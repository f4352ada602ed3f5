import Mathlib.Data.List.Forall2
import Lox.Proofs.Lexical.Tokens
import Lox.Proofs.Phrase.Program
import Lox.Script

/-!
The yield of a tree: what it tells, from left to right, of the tokens that it was read from.
Brackets, semicolons and the words of statements are put back in. A text without a `for` whose
statements have no fault yields its own tokens, so that none is lost or invented, and none changes
its place.
-/

namespace Lox

/-- What a tree tells of one of its tokens. Names and lines that it does not hold are left open. -/
structure Leaf where
  kind : Kind
  name : Option String := none
  value : Option Value := none
  line : Option Nat := none

structure Token.Fits (t : Token) (leaf : Leaf) : Prop where
  kind : t.kind = leaf.kind
  name : ∀ n ∈ leaf.name, t.lexeme = n
  value : t.literal = leaf.value
  line : ∀ l ∈ leaf.line, t.line = l

namespace Leaf

def mark (kind : Kind) : Leaf := { kind }

def operator (kind : Kind) (line : Nat) : Leaf := { kind, line := some line }

def identifier (name : String) (line : Nat) : Leaf :=
  { kind := .identifier, name := some name, line := some line }

def ofValue : Value → Leaf
  | .nil => mark .nullWord
  | .bool true => mark .trueWord
  | .bool false => mark .falseWord
  | .number x => { kind := .number, value := some (.number x) }
  | .string s => { kind := .string, value := some (.string s) }

end Leaf

def UnaryOp.kind : UnaryOp → Kind
  | negate => .minus
  | not => .bang

def BinaryOp.kind : BinaryOp → Kind
  | add => .plus
  | subtract => .minus
  | multiply => .star
  | divide => .slash
  | equal => .equalEqual
  | notEqual => .bangEqual
  | less => .less
  | lessEqual => .lessEqual
  | greater => .greater
  | greaterEqual => .greaterEqual

def LogicalOp.kind : LogicalOp → Kind
  | and => .andWord
  | or => .orWord

theorem UnaryOp.ofKind?_eq_some_iff {k : Kind} {op : UnaryOp} :
    ofKind? k = some op ↔ k = op.kind := by
  cases op <;> cases k <;> simp [ofKind?, UnaryOp.kind]

def Connective.leaf (line : Nat) : Connective → Leaf
  | binary op => .operator op.kind line
  | logical op => .mark op.kind

theorem Connective.kind_leaf {k : Kind} {c : Connective} {line : Nat} :
    ofKind? k = some c ↔ k = (c.leaf line).kind := by
  cases c with
  | binary op => cases op <;> cases k <;> simp [ofKind?, leaf, Leaf.operator, BinaryOp.kind]
  | logical op => cases op <;> cases k <;> simp [ofKind?, leaf, Leaf.mark, LogicalOp.kind]

def Expr.yield : Expr → List Leaf
  | literal v => [.ofValue v]
  | grouping e => .mark .leftParen :: e.yield ++ [.mark .rightParen]
  | unary op line e => .operator op.kind line :: e.yield
  | binary op line l r => l.yield ++ .operator op.kind line :: r.yield
  | logical op l r => l.yield ++ .mark op.kind :: r.yield
  | var name line => [.identifier name line]
  | assign name line e => .identifier name line :: .mark .equal :: e.yield

theorem Connective.yield_join (c : Connective) (line : Nat) (l r : Expr) :
    (c.join line l r).yield = l.yield ++ c.leaf line :: r.yield := by
  cases c <;> rfl

mutual

def Stmt.yield : Stmt → List Leaf
  | .expression e => e.yield ++ [.mark .semicolon]
  | .print e => .mark .printWord :: e.yield ++ [.mark .semicolon]
  | .declare name none line => [.mark .varWord, .identifier name line, .mark .semicolon]
  | .declare name (some e) line =>
      .mark .varWord :: .identifier name line :: .mark .equal :: e.yield ++ [.mark .semicolon]
  | .block body => .mark .leftBrace :: yields body ++ [.mark .rightBrace]
  | .ifThen e s =>
      .mark .ifWord :: .mark .leftParen :: e.yield ++ .mark .rightParen :: s.yield
  | .ifElse e s s' =>
      .mark .ifWord :: .mark .leftParen :: e.yield ++ .mark .rightParen :: s.yield ++
        .mark .elseWord :: s'.yield
  | .loop e s =>
      .mark .whileWord :: .mark .leftParen :: e.yield ++ .mark .rightParen :: s.yield

def Stmt.yields : List Stmt → List Leaf
  | [] => []
  | s :: rest => s.yield ++ yields rest

end

def Kind.isValued : Kind → Bool
  | .number | .string => true
  | _ => false

namespace Token

variable {t : Token}

theorem Valued.literal_eq_none (h : t.Valued) (hk : t.kind.isValued = false) :
    t.literal = none := by
  unfold Valued at h
  split at h <;> simp_all [Kind.isValued]

theorem Valued.fits_mark {k : Kind} (h : t.Valued) (hk : t.kind = k) (hv : k.isValued = false) :
    t.Fits (.mark k) where
  kind := hk
  name := by simp [Leaf.mark]
  value := h.literal_eq_none (hk ▸ hv)
  line := by simp [Leaf.mark]

theorem Valued.fits_operator {k : Kind} (h : t.Valued) (hk : t.kind = k)
    (hv : k.isValued = false) : t.Fits (.operator k t.line) where
  kind := hk
  name := by simp [Leaf.operator]
  value := h.literal_eq_none (hk ▸ hv)
  line := by simp [Leaf.operator]

theorem Valued.fits_identifier (h : t.Valued) (hk : t.kind = .identifier) :
    t.Fits (.identifier t.lexeme t.line) where
  kind := hk
  name := by simp [Leaf.identifier]
  value := h.literal_eq_none (hk ▸ rfl)
  line := by simp [Leaf.identifier]

theorem Valued.fits_connective {c : Connective} (h : t.Valued)
    (hc : Connective.ofKind? t.kind = some c) : t.Fits (c.leaf t.line) := by
  have hk : t.kind = (c.leaf t.line).kind := Connective.kind_leaf.1 hc
  cases c with
  | binary op => exact h.fits_operator hk (by cases op <;> rfl)
  | logical op => exact h.fits_mark hk (by cases op <;> rfl)

theorem Valued.fits_value {v : Value} (h : t.Valued) (hv : t.value? = some v) :
    t.Fits (.ofValue v) := by
  cases hk : t.kind <;> simp only [value?, hk, Option.some.injEq, reduceCtorEq] at hv
  case number | string =>
    unfold Valued at h
    rw [hk] at h
    obtain ⟨x, hx⟩ := h
    rw [hx, Option.getD_some] at hv
    subst hv
    exact ⟨hk, by simp [Leaf.ofValue], hx, by simp [Leaf.ofValue]⟩
  all_goals
    subst hv
    exact h.fits_mark hk rfl

end Token

open List (rel_append)

/-- The tokens that an expression is worded by are its yield. -/
theorem Expr.Wording.fits {w : List Token} {e : Expr} (h : Wording w e) (hv : ∀ t ∈ w, t.Valued) :
    w.Forall₂ Token.Fits e.yield := by
  induction h with
  | literal ht =>
      rw [List.forall_mem_singleton] at hv
      exact .cons (hv.fits_value ht) .nil
  | var ht =>
      rw [List.forall_mem_singleton] at hv
      exact .cons (hv.fits_identifier ht) .nil
  | grouping hl _ hr ih =>
      rw [List.forall_mem_append, List.forall_mem_cons, List.forall_mem_singleton] at hv
      obtain ⟨⟨vl, vw⟩, vr⟩ := hv
      exact rel_append (.cons (vl.fits_mark hl rfl) (ih vw)) (.cons (vr.fits_mark hr rfl) .nil)
  | @unary t op w e ht _ _ ih =>
      rw [List.forall_mem_cons] at hv
      have hk : t.kind = op.kind := UnaryOp.ofKind?_eq_some_iff.1 ht
      exact .cons (hv.1.fits_operator hk (by cases op <;> rfl)) (ih hv.2)
  | joined ht _ _ _ _ ihl ihr =>
      rw [List.forall_mem_append, List.forall_mem_cons] at hv
      obtain ⟨vl, vt, vr⟩ := hv
      rw [Connective.yield_join]
      exact rel_append (ihl vl) (.cons (vt.fits_connective ht) (ihr vr))
  | assign hn hq _ ih =>
      rw [List.forall_mem_cons, List.forall_mem_cons] at hv
      obtain ⟨vn, vq, vw⟩ := hv
      exact .cons (vn.fits_identifier hn) (.cons (vq.fits_mark hq rfl) (ih vw))

namespace Stmt

theorem Declaring.fits {w : List Token} {s : Stmt} (h : Declaring w s) (hv : ∀ t ∈ w, t.Valued) :
    w.Forall₂ Token.Fits s.yield := by
  cases h with
  | bare hw hn ht =>
      simp only [List.forall_mem_cons] at hv
      obtain ⟨vw, vn, vt, -⟩ := hv
      exact .cons (vw.fits_mark hw rfl) (.cons (vn.fits_identifier hn)
        (.cons (vt.fits_mark ht rfl) .nil))
  | initialized hw hn hq value ht =>
      simp only [List.forall_mem_append, List.forall_mem_cons] at hv
      obtain ⟨⟨vw, vn, vq, ve⟩, vt, -⟩ := hv
      exact rel_append (.cons (vw.fits_mark hw rfl) (.cons (vn.fits_identifier hn)
        (.cons (vq.fits_mark hq rfl) (value.fits ve)))) (.cons (vt.fits_mark ht rfl) .nil)

theorem Evaluating.fits {w : List Token} {s : Stmt} (h : Evaluating w s)
    (hv : ∀ t ∈ w, t.Valued) : w.Forall₂ Token.Fits s.yield := by
  obtain ⟨value, ht⟩ := h
  rw [List.forall_mem_append, List.forall_mem_singleton] at hv
  exact rel_append (value.fits hv.1) (.cons (hv.2.fits_mark ht rfl) .nil)

theorem fits_parts {parts : List (List Token × Stmt × Bool)}
    (h : ∀ q ∈ parts, q.1.Forall₂ Token.Fits q.2.1.yield) :
    (parts.flatMap (·.1)).Forall₂ Token.Fits (yields (parts.map (·.2.1))) := by
  induction parts with
  | nil => exact .nil
  | cons q parts ih =>
      rw [List.forall_mem_cons] at h
      exact rel_append h.1 (ih h.2)

theorem fits_header {f l r : Token} {w u : List Token} {k : Kind} {e : Expr} {v : List Leaf}
    (hv : ∀ t ∈ f :: l :: w ++ r :: u, t.Valued) (hf : f.kind = k) (hk : k.isValued = false)
    (hl : l.kind = .leftParen) (condition : Expr.Wording w e) (hr : r.kind = .rightParen)
    (body : u.Forall₂ Token.Fits v) :
    (f :: l :: w ++ r :: u).Forall₂ Token.Fits
      (.mark k :: .mark .leftParen :: e.yield ++ .mark .rightParen :: v) := by
  simp only [List.forall_mem_append, List.forall_mem_cons] at hv
  obtain ⟨⟨vf, vl, ve⟩, vr, -⟩ := hv
  exact rel_append (.cons (vf.fits_mark hf hk) (.cons (vl.fits_mark hl rfl) (condition.fits ve)))
    (.cons (vr.fits_mark hr rfl) body)

/-- The tokens that a statement is worded by are its yield if no `for` is among them. -/
theorem Wording.fits {w : List Token} {s : Stmt} {tail : Bool} (h : Wording w s tail)
    (hv : ∀ t ∈ w, t.Valued) (noFor : ∀ t ∈ w, t.kind ≠ .forWord) :
    w.Forall₂ Token.Fits s.yield := by
  induction h with
  | declaring h => exact h.fits hv
  | evaluating h => exact h.fits hv
  | print hp value ht =>
      simp only [List.forall_mem_append, List.forall_mem_cons] at hv
      obtain ⟨⟨vp, ve⟩, vt, -⟩ := hv
      exact rel_append (.cons (vp.fits_mark hp rfl) (value.fits ve))
        (.cons (vt.fits_mark ht rfl) .nil)
  | block hl body hr ih =>
      simp only [List.forall_mem_append, List.forall_mem_cons, List.forall_mem_flatMap] at hv noFor
      obtain ⟨⟨vl, vb⟩, vr, -⟩ := hv
      have inside := fits_parts fun q hq => ih q hq (vb q hq) (noFor.1.2 q hq)
      exact rel_append (.cons (vl.fits_mark hl rfl) inside) (.cons (vr.fits_mark hr rfl) .nil)
  | ifThen hf hl condition hr _ _ ih | loop hf hl condition hr _ _ ih =>
      refine fits_header hv hf rfl hl condition hr (ih (fun t ht => hv t ?_) fun t ht => noFor t ?_)
      · simp [ht]
      · simp [ht]
  | ifElse hf hl condition hr _ _ ho _ _ ih ih' =>
      rw [List.forall_mem_append, List.forall_mem_cons] at hv noFor
      obtain ⟨vu, vo, vs⟩ := hv
      refine rel_append (fits_header vu hf rfl hl condition hr ?_)
        (.cons (vo.fits_mark ho rfl) (ih' vs noFor.2.2))
      exact ih (fun t ht => vu t (by simp [ht])) fun t ht => noFor.1 t (by simp [ht])
  | forLoop hf =>
      simp only [List.forall_mem_append, List.forall_mem_cons] at noFor
      exact absurd hf noFor.1.1.1.1

end Stmt

/-- A text without a `for` whose statements have no fault: the tokens before its end mark are the
yield of its statements. -/
theorem Script.tokens_fit_yield (text : String) (h : (ofText text).program.faults = [])
    (noFor : ∀ t ∈ (ofText text).reading.tokens, t.kind ≠ .forWord) :
    ∃ front line, (ofText text).reading.tokens = front ++ [Lexical.eofAt line] ∧
      (∀ t ∈ front, t.kind ≠ .eof) ∧
      front.Forall₂ Token.Fits (Stmt.yields (ofText text).statements) := by
  obtain ⟨front, line, read, regular⟩ := Lexical.read_tokens text
  have read' : (ofText text).reading.tokens = front ++ [Lexical.eofAt line] := read
  have body : Program.body (ofText text).reading.tokens = front := by
    rw [read', Program.body_append_eof (fun t ht => (regular t ht).1) rfl]
  obtain ⟨parts, cut, statements, worded⟩ := Program.wording_of_faults_nil h
  have within : ∀ q ∈ parts, ∀ t ∈ q.1, t ∈ front := by
    intro q hq t ht
    rw [← body]
    exact cut ▸ List.mem_flatMap_of_mem hq ht
  refine ⟨front, line, read', fun t ht => (regular t ht).1, ?_⟩
  have fits := Stmt.fits_parts fun q hq => (worded q hq).fits
    (fun t ht => (regular t (within q hq t ht)).2)
    (fun t ht => noFor t (by simp [read', within q hq t ht]))
  rw [← cut, ← statements] at fits
  exact body ▸ fits

theorem Script.tokens_fit_yield_conditional :
    let script := ofText "if (a) print -b;\nelse a = \"x\" + 1;"
    (script.program.faults = [] ∧ ∀ t ∈ script.reading.tokens, t.kind ≠ .forWord) ∧
      (Stmt.yields script.statements).map Leaf.kind =
        [.ifWord, .leftParen, .identifier, .rightParen, .printWord, .minus, .identifier, .semicolon,
          .elseWord, .identifier, .equal, .string, .plus, .number, .semicolon] ∧
      ∃ front line, script.reading.tokens = front ++ [Lexical.eofAt line] ∧
        (∀ t ∈ front, t.kind ≠ .eof) ∧ front.Forall₂ Token.Fits (Stmt.yields script.statements) :=
  ⟨⟨by decide +kernel, by decide +kernel⟩, by decide +kernel,
    tokens_fit_yield _ (by decide +kernel) (by decide +kernel)⟩

end Lox
