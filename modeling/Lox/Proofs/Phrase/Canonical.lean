import Lox.Proofs.Phrase.Yield

/-!
Canonical trees: those in which every operand binds tightly enough for its place, declarations stand
only in programs and blocks, and no `else` could be taken for that of an inner `if`. They are the
trees that can be read: whatever is read without a fault is canonical, and a canonical tree that is
written out as tokens is read back.
-/

namespace Lox

namespace Expr

def Canonical : Expr → Prop
  | literal _ | var _ _ => True
  | grouping e | assign _ _ e => e.Canonical
  | unary _ _ e => e.level ≤ 1 ∧ e.Canonical
  | binary op line l r =>
      l.level ≤ (binary op line l r).level ∧ r.level < (binary op line l r).level ∧
        l.Canonical ∧ r.Canonical
  | logical op l r =>
      l.level ≤ (logical op l r).level ∧ r.level < (logical op l r).level ∧
        l.Canonical ∧ r.Canonical

end Expr

theorem Connective.canonical_join {c : Connective} {line : Nat} {l r : Expr} :
    (c.join line l r).Canonical ↔
      l.level ≤ c.rank + 1 ∧ r.level < c.rank + 1 ∧ l.Canonical ∧ r.Canonical := by
  rw [← c.level_join line l r]
  cases c <;> rfl

namespace Stmt

/-- Whether a statement ends, perhaps inside the branch of an `else` or the body of a loop, in an
`if` that has no `else`. -/
def endsOpen : Stmt → Bool
  | .ifThen _ _ => true
  | .ifElse _ _ s => s.endsOpen
  | .loop _ s => s.endsOpen
  | _ => false

mutual

def Canonical : Stmt → Prop
  | .expression e | .print e => e.Canonical
  | .declare _ none _ => True
  | .declare _ (some e) _ => e.Canonical
  | .block body => AllCanonical body
  | .ifThen e s | .loop e s => e.Canonical ∧ s.isDeclaration = false ∧ s.Canonical
  | .ifElse e s s' =>
      e.Canonical ∧ (s.isDeclaration = false ∧ s.Canonical) ∧ s.endsOpen = false ∧
        s'.isDeclaration = false ∧ s'.Canonical

def AllCanonical : List Stmt → Prop
  | [] => True
  | s :: rest => s.Canonical ∧ AllCanonical rest

end

theorem allCanonical_iff {body : List Stmt} : AllCanonical body ↔ ∀ s ∈ body, s.Canonical := by
  induction body with
  | nil => simp [AllCanonical]
  | cons s rest ih => rw [AllCanonical, ih, List.forall_mem_cons]

end Stmt

theorem Expr.Wording.canonical {w : List Token} {e : Expr} (h : Wording w e) : e.Canonical := by
  induction h with
  | literal | var => trivial
  | grouping _ _ _ ih | assign _ _ _ ih => exact ih
  | unary _ hl _ ih => exact ⟨hl, ih⟩
  | joined _ hl hr _ _ ihl ihr =>
      exact Connective.canonical_join.2 ⟨hl, Nat.lt_succ_of_le hr, ihl, ihr⟩

namespace Stmt

theorem Declaring.canonical {w : List Token} {s : Stmt} (h : Declaring w s) :
    s.Canonical ∧ s.endsOpen = false := by
  cases h with
  | bare => exact ⟨trivial, rfl⟩
  | initialized _ _ _ value => exact ⟨value.canonical, rfl⟩

theorem Evaluating.canonical {w : List Token} {s : Stmt} (h : Evaluating w s) :
    s.Canonical ∧ s.endsOpen = false := by
  obtain ⟨value, _⟩ := h
  exact ⟨value.canonical, rfl⟩

theorem Starting.canonical {w : List Token} {first : Option Stmt} (h : Starting w first) :
    ∀ s ∈ first, s.Canonical := by
  cases h with
  | absent => simp
  | declaring h => simpa using h.canonical.1
  | evaluating h => simpa using h.canonical.1

theorem Clause.canonical {w : List Token} {e : Option Expr} (h : Clause w e) :
    ∀ e' ∈ e, e'.Canonical := by
  cases h with
  | absent => simp
  | present h => simpa using h.canonical

/-- A `for` loop stands for a canonical tree, which ends in an open `if` only if its body does. -/
theorem canonical_forLoop {first : Option Stmt} {condition increment : Option Expr} {s : Stmt}
    (hf : ∀ s ∈ first, s.Canonical) (hc : ∀ e ∈ condition, e.Canonical)
    (hi : ∀ e ∈ increment, e.Canonical) (hd : s.isDeclaration = false) (hs : s.Canonical) :
    (forLoop first condition increment s).Canonical ∧
      ((forLoop first condition increment s).endsOpen = true → s.endsOpen = true) := by
  have test : (condition.getD (.literal (.bool true))).Canonical := by
    cases condition with
    | none => trivial
    | some e => exact hc e rfl
  cases first <;> cases increment <;>
    simp_all [forLoop, Canonical, AllCanonical, endsOpen, isDeclaration]

theorem Wording.canonical {w : List Token} {s : Stmt} {tail : Bool} (h : Wording w s tail) :
    s.Canonical ∧ (s.endsOpen = true → tail = true) := by
  induction h with
  | declaring h => simp [h.canonical]
  | evaluating h => simp [h.canonical]
  | print _ value => exact ⟨value.canonical, id⟩
  | block _ _ _ ih =>
      refine ⟨allCanonical_iff.2 fun s hs => ?_, id⟩
      obtain ⟨q, hq, rfl⟩ := List.mem_map.1 hs
      exact (ih q hq).1
  | ifThen _ _ condition _ hs _ ih => exact ⟨⟨condition.canonical, hs, ih.1⟩, fun _ => rfl⟩
  | ifElse _ _ condition _ hs _ _ hs' _ ih ih' =>
      have closed := Bool.eq_false_iff.2 fun open' => Bool.noConfusion (ih.2 open')
      exact ⟨⟨condition.canonical, ⟨hs, ih.1⟩, closed, hs', ih'.1⟩, ih'.2⟩
  | loop _ _ condition _ hs _ ih => exact ⟨⟨condition.canonical, hs, ih.1⟩, ih.2⟩
  | forLoop _ _ start test _ step _ hs _ ih =>
      have lowered := canonical_forLoop start.canonical test.canonical step.canonical hs ih.1
      exact ⟨lowered.1, fun h => ih.2 (lowered.2 h)⟩

end Stmt

theorem Token.fits_append {w : List Token} {u v : List Leaf} :
    w.Forall₂ Token.Fits (u ++ v) ↔
      ∃ w₁ w₂, w = w₁ ++ w₂ ∧ w₁.Forall₂ Token.Fits u ∧ w₂.Forall₂ Token.Fits v := by
  constructor
  · intro h
    exact ⟨_, _, (List.take_append_drop u.length w).symm, List.forall₂_take_append w u v h,
      List.forall₂_drop_append w u v h⟩
  · rintro ⟨w₁, w₂, rfl, hu, hv⟩
    exact List.rel_append hu hv

theorem Token.fits_singleton {w : List Token} {leaf : Leaf} :
    w.Forall₂ Token.Fits [leaf] ↔ ∃ t, w = [t] ∧ t.Fits leaf := by
  simp [List.forall₂_cons_right_iff, and_comm]

theorem Token.value?_of_fits {t : Token} {v : Value} (h : t.Fits (.ofValue v)) :
    t.value? = some v := by
  obtain ⟨hk, -, hv, -⟩ := h
  cases v with
  | bool b => cases b <;> simp_all [Leaf.ofValue, Leaf.mark, value?]
  | _ => simp_all [Leaf.ofValue, Leaf.mark, value?]

theorem Connective.join_of_fits {c : Connective} {line : Nat} {t : Token}
    (h : t.Fits (c.leaf line)) (l r : Expr) : c.join t.line l r = c.join line l r := by
  cases c with
  | binary op => rw [h.line line rfl]
  | logical op => rfl

namespace Expr

theorem Wording.of_join {c : Connective} (line : Nat) {l r : Expr} {w : List Token}
    (h : (c.join line l r).Canonical) (fits : w.Forall₂ Token.Fits (c.join line l r).yield)
    (left : ∀ u : List Token, l.Canonical → u.Forall₂ Token.Fits l.yield → Wording u l)
    (right : ∀ u : List Token, r.Canonical → u.Forall₂ Token.Fits r.yield → Wording u r) :
    Wording w (c.join line l r) := by
  obtain ⟨hl, hr, cl, cr⟩ := Connective.canonical_join.1 h
  rw [Connective.yield_join, Token.fits_append] at fits
  obtain ⟨u, _, rfl, fl, fr⟩ := fits
  obtain ⟨t, v, ft, fv, rfl⟩ := List.forall₂_cons_right_iff.1 fr
  rw [← Connective.join_of_fits ft]
  exact .joined (Connective.kind_leaf.2 ft.kind) hl (Nat.le_of_lt_succ hr) (left u cl fl)
    (right v cr fv)

/-- A canonical expression is worded by any tokens that fit its yield. -/
theorem Canonical.wording {e : Expr} {w : List Token} (h : e.Canonical)
    (fits : w.Forall₂ Token.Fits e.yield) : Wording w e := by
  induction e generalizing w with
  | literal v =>
      obtain ⟨t, rfl, ft⟩ := Token.fits_singleton.1 fits
      exact .literal (Token.value?_of_fits ft)
  | grouping e ih =>
      obtain ⟨_, _, rfl, front, last⟩ := Token.fits_append.1 fits
      obtain ⟨l, u, fl, fu, rfl⟩ := List.forall₂_cons_right_iff.1 front
      obtain ⟨r, rfl, fr⟩ := Token.fits_singleton.1 last
      exact .grouping fl.kind (ih h fu) fr.kind
  | unary op line e ih =>
      obtain ⟨t, u, ft, fu, rfl⟩ := List.forall₂_cons_right_iff.1 fits
      rw [← ft.line line rfl]
      exact .unary (UnaryOp.ofKind?_eq_some_iff.2 ft.kind) h.1 (ih h.2 fu)
  | binary op line l r ihl ihr =>
      exact Wording.of_join line (c := .binary op) h fits (fun _ => ihl) (fun _ => ihr)
  | logical op l r ihl ihr =>
      exact Wording.of_join 0 (c := .logical op) h fits (fun _ => ihl) (fun _ => ihr)
  | var name line =>
      obtain ⟨t, rfl, ft⟩ := Token.fits_singleton.1 fits
      rw [← ft.line line rfl, ← ft.name name rfl]
      exact .var ft.kind
  | assign name line e ih =>
      obtain ⟨n, _, fn, rest, rfl⟩ := List.forall₂_cons_right_iff.1 fits
      obtain ⟨q, u, fq, fu, rfl⟩ := List.forall₂_cons_right_iff.1 rest
      rw [← fn.line line rfl, ← fn.name name rfl]
      exact .assign fn.kind fq.kind (ih h fu)

end Expr

namespace Stmt

/-- The word of a conditional or a loop with its condition in parentheses, before what follows. -/
theorem header_of_fits {e : Expr} {k : Kind} {v : List Leaf} {w : List Token} (h : e.Canonical)
    (fits : w.Forall₂ Token.Fits
      (.mark k :: .mark .leftParen :: e.yield ++ .mark .rightParen :: v)) :
    ∃ f l c r u, w = f :: l :: c ++ r :: u ∧ f.kind = k ∧ l.kind = .leftParen ∧
      Expr.Wording c e ∧ r.kind = .rightParen ∧ u.Forall₂ Token.Fits v := by
  obtain ⟨_, _, rfl, front, back⟩ := Token.fits_append.1 fits
  obtain ⟨f, _, ff, rest, rfl⟩ := List.forall₂_cons_right_iff.1 front
  obtain ⟨l, c, fl, fc, rfl⟩ := List.forall₂_cons_right_iff.1 rest
  obtain ⟨r, u, fr, fu, rfl⟩ := List.forall₂_cons_right_iff.1 back
  exact ⟨f, l, c, r, u, rfl, ff.kind, fl.kind, h.wording fc, fr.kind, fu⟩

theorem declaring_of_canonical {name : String} {init : Option Expr} {line : Nat} {w : List Token}
    (h : (declare name init line).Canonical)
    (fits : w.Forall₂ Token.Fits (declare name init line).yield) :
    Declaring w (.declare name init line) := by
  cases init with
  | none =>
      obtain ⟨v, _, fv, named, rfl⟩ := List.forall₂_cons_right_iff.1 fits
      obtain ⟨n, _, fn, last, rfl⟩ := List.forall₂_cons_right_iff.1 named
      obtain ⟨t, rfl, ft⟩ := Token.fits_singleton.1 last
      rw [← fn.line line rfl, ← fn.name name rfl]
      exact .bare fv.kind fn.kind ft.kind
  | some e =>
      obtain ⟨_, _, rfl, front, back⟩ := Token.fits_append.1 fits
      obtain ⟨v, _, fv, named, rfl⟩ := List.forall₂_cons_right_iff.1 front
      obtain ⟨n, _, fn, valued, rfl⟩ := List.forall₂_cons_right_iff.1 named
      obtain ⟨q, u, fq, fu, rfl⟩ := List.forall₂_cons_right_iff.1 valued
      obtain ⟨t, rfl, ft⟩ := Token.fits_singleton.1 back
      rw [← fn.line line rfl, ← fn.name name rfl]
      exact .initialized fv.kind fn.kind fq.kind (Expr.Canonical.wording h fu) ft.kind

mutual

/-- A canonical statement is worded by any tokens that fit its yield. -/
theorem wording_of_canonical (s : Stmt) {w : List Token} (h : s.Canonical)
    (fits : w.Forall₂ Token.Fits s.yield) : Wording w s s.endsOpen := by
  cases s with
  | expression e =>
      obtain ⟨u, _, rfl, fu, back⟩ := Token.fits_append.1 fits
      obtain ⟨t, rfl, ft⟩ := Token.fits_singleton.1 back
      exact .evaluating (.intro (Expr.Canonical.wording h fu) ft.kind)
  | print e =>
      obtain ⟨_, _, rfl, front, back⟩ := Token.fits_append.1 fits
      obtain ⟨p, u, fp, fu, rfl⟩ := List.forall₂_cons_right_iff.1 front
      obtain ⟨t, rfl, ft⟩ := Token.fits_singleton.1 back
      exact .print fp.kind (Expr.Canonical.wording h fu) ft.kind
  | declare name init line => exact .declaring (declaring_of_canonical h fits)
  | block body =>
      obtain ⟨_, _, rfl, front, back⟩ := Token.fits_append.1 fits
      obtain ⟨l, u, fl, fu, rfl⟩ := List.forall₂_cons_right_iff.1 front
      obtain ⟨r, rfl, fr⟩ := Token.fits_singleton.1 back
      obtain ⟨parts, rfl, rfl, worded⟩ := wording_of_allCanonical body h fu
      exact .block fl.kind worded fr.kind
  | ifThen e s =>
      obtain ⟨he, hd, hs⟩ := h
      obtain ⟨f, l, c, r, u, rfl, hf, hl, hc, hr, fu⟩ := header_of_fits he fits
      exact .ifThen hf hl hc hr hd (wording_of_canonical s hs fu)
  | ifElse e s s' =>
      obtain ⟨he, ⟨hd, hs⟩, closed, hd', hs'⟩ := h
      obtain ⟨_, _, rfl, front, back⟩ := Token.fits_append.1 fits
      obtain ⟨f, l, c, r, u, rfl, hf, hl, hc, hr, fu⟩ := header_of_fits he front
      obtain ⟨o, v, fo, fv, rfl⟩ := List.forall₂_cons_right_iff.1 back
      have thenBranch := wording_of_canonical s hs fu
      rw [closed] at thenBranch
      exact .ifElse hf hl hc hr hd thenBranch fo.kind hd' (wording_of_canonical s' hs' fv)
  | loop e s =>
      obtain ⟨he, hd, hs⟩ := h
      obtain ⟨f, l, c, r, u, rfl, hf, hl, hc, hr, fu⟩ := header_of_fits he fits
      exact .loop hf hl hc hr hd (wording_of_canonical s hs fu)

theorem wording_of_allCanonical (body : List Stmt) {w : List Token} (h : AllCanonical body)
    (fits : w.Forall₂ Token.Fits (yields body)) : Program.Wording w body := by
  cases body with
  | nil =>
      cases fits
      exact ⟨[], rfl, rfl, by simp⟩
  | cons s rest =>
      obtain ⟨u, v, rfl, fu, fv⟩ := Token.fits_append.1 fits
      obtain ⟨parts, rfl, rfl, worded⟩ := wording_of_allCanonical rest h.2 fv
      have first := wording_of_canonical s h.1 fu
      exact ⟨(u, s, s.endsOpen) :: parts, rfl, rfl, List.forall_mem_cons.2 ⟨first, worded⟩⟩

end

end Stmt

theorem Leaf.ofValue_ne_eof (v : Value) : (ofValue v).kind ≠ .eof := by
  cases v with
  | bool b => cases b <;> simp [ofValue, mark]
  | _ => simp [ofValue, mark]

theorem Connective.leaf_ne_eof (c : Connective) (line : Nat) : (c.leaf line).kind ≠ .eof := by
  cases c with
  | binary op => cases op <;> simp [leaf, Leaf.operator, BinaryOp.kind]
  | logical op => cases op <;> simp [leaf, Leaf.mark, LogicalOp.kind]

theorem Connective.yield_join_ne_eof (c : Connective) (line : Nat) {l r : Expr}
    (hl : ∀ leaf ∈ l.yield, leaf.kind ≠ .eof) (hr : ∀ leaf ∈ r.yield, leaf.kind ≠ .eof) :
    ∀ leaf ∈ (c.join line l r).yield, leaf.kind ≠ .eof := by
  rw [c.yield_join, List.forall_mem_append, List.forall_mem_cons]
  exact ⟨hl, c.leaf_ne_eof line, hr⟩

theorem Expr.yield_ne_eof (e : Expr) : ∀ leaf ∈ e.yield, leaf.kind ≠ .eof := by
  induction e with
  | literal v => simpa [yield] using Leaf.ofValue_ne_eof v
  | grouping e ih => simpa [yield, Leaf.mark, or_imp, forall_and] using ih
  | unary op line e ih =>
      cases op <;> simpa [yield, Leaf.operator, UnaryOp.kind] using ih
  | binary op line l r ihl ihr => exact (Connective.binary op).yield_join_ne_eof line ihl ihr
  | logical op l r ihl ihr => exact (Connective.logical op).yield_join_ne_eof 0 ihl ihr
  | var name line => simp [yield, Leaf.identifier]
  | assign name line e ih => simpa [yield, Leaf.identifier, Leaf.mark] using ih

namespace Stmt

mutual

theorem yield_ne_eof (s : Stmt) : ∀ leaf ∈ s.yield, leaf.kind ≠ .eof := by
  cases s with
  | expression e | print e =>
      simpa [yield, Leaf.mark, or_imp, forall_and] using e.yield_ne_eof
  | declare name init line =>
      cases init with
      | none => simp [yield, Leaf.mark, Leaf.identifier]
      | some e =>
          simpa [yield, Leaf.mark, Leaf.identifier, or_imp, forall_and] using e.yield_ne_eof
  | block body => simpa [yield, Leaf.mark, or_imp, forall_and] using yields_ne_eof body
  | ifThen e s | loop e s =>
      simpa [yield, Leaf.mark, or_imp, forall_and] using And.intro e.yield_ne_eof s.yield_ne_eof
  | ifElse e s s' =>
      have branches := And.intro s.yield_ne_eof s'.yield_ne_eof
      simpa [yield, Leaf.mark, or_imp, forall_and] using And.intro e.yield_ne_eof branches

theorem yields_ne_eof (body : List Stmt) : ∀ leaf ∈ yields body, leaf.kind ≠ .eof := by
  cases body with
  | nil => simp [yields]
  | cons s rest =>
      rw [yields, List.forall_mem_append]
      exact ⟨s.yield_ne_eof, yields_ne_eof rest⟩

end

end Stmt

theorem Token.ne_eof_of_fits {w : List Token} {leaves : List Leaf}
    (fits : w.Forall₂ Token.Fits leaves) (h : ∀ leaf ∈ leaves, leaf.kind ≠ .eof) :
    ∀ t ∈ w, t.kind ≠ .eof := by
  induction fits with
  | nil => simp
  | cons ft _ ih =>
      rw [List.forall_mem_cons] at h ⊢
      exact ⟨ft.kind ▸ h.1, ih h.2⟩

namespace Leaf

def token (leaf : Leaf) : Token where
  kind := leaf.kind
  lexeme := leaf.name.getD ""
  literal := leaf.value
  line := leaf.line.getD 1

theorem token_fits (leaf : Leaf) : leaf.token.Fits leaf where
  kind := rfl
  name n hn := by simp [token, Option.mem_def.1 hn]
  value := rfl
  line l hl := by simp [token, Option.mem_def.1 hl]

end Leaf

namespace Program

def written (body : List Stmt) : List Token := (Stmt.yields body).map Leaf.token

theorem written_fits (body : List Stmt) : (written body).Forall₂ Token.Fits (Stmt.yields body) :=
  List.forall₂_map_left_iff.2 (List.forall₂_same.2 fun leaf _ => leaf.token_fits)

theorem ofTokens_of_fits {body : List Stmt} {tokens : List Token} {mark : Token}
    (canonical : Stmt.AllCanonical body) (fits : tokens.Forall₂ Token.Fits (Stmt.yields body))
    (hm : mark.kind = .eof) : ofTokens (tokens ++ [mark]) = ⟨body, [], mark.line⟩ := by
  have regular := Token.ne_eof_of_fits fits (Stmt.yields_ne_eof body)
  have worded := Stmt.wording_of_allCanonical body canonical fits
  rw [← body_append_eof regular hm] at worded
  rw [ofTokens_of_wording worded, lineOfEnd_append_eof regular hm]

/-- What is read without a fault is canonical, and a canonical program that is written out, with any
texts and lines where the tree leaves them open, is read back as it was. -/
theorem canonical_round_trip :
    (∀ tokens, (ofTokens tokens).faults = [] → ∀ s ∈ (ofTokens tokens).statements, s.Canonical) ∧
      ∀ body : List Stmt, (∀ s ∈ body, s.Canonical) → ∀ mark : Token, mark.kind = .eof →
        ofTokens (written body ++ [mark]) = ⟨body, [], mark.line⟩ ∧
          ∀ tokens : List Token, tokens.Forall₂ Token.Fits (Stmt.yields body) →
            ofTokens (tokens ++ [mark]) = ⟨body, [], mark.line⟩ := by
  refine ⟨fun tokens clean s hs => ?_, fun body canonical mark hm => ?_⟩
  · obtain ⟨parts, -, statements, worded⟩ := wording_of_faults_nil clean
    rw [statements] at hs
    obtain ⟨q, hq, rfl⟩ := List.mem_map.1 hs
    exact (worded q hq).canonical.1
  · rw [← Stmt.allCanonical_iff] at canonical
    exact ⟨ofTokens_of_fits canonical (written_fits body) hm,
      fun tokens fits => ofTokens_of_fits canonical fits hm⟩

theorem canonical_round_trip_loop :
    ((ofTokens (Lexical.read "for (var i; i < n; i = -i) print i;").tokens).faults = [] ∧
      ∀ s ∈ (ofTokens (Lexical.read "for (var i; i < n; i = -i) print i;").tokens).statements,
        s.Canonical) ∧
    ∃ body : List Stmt, body.length = 2 ∧ (∀ s ∈ body, s.Canonical) ∧
      ofTokens (written body ++ [Lexical.eofAt 4]) = ⟨body, [], 4⟩ := by
  have clean :
      (ofTokens (Lexical.read "for (var i; i < n; i = -i) print i;").tokens).faults = [] := by
    decide +kernel
  have canonical : ∀ s ∈
      [Stmt.loop (.binary .less 1 (.var "a" 1) (.unary .not 1 (.var "b" 2)))
        (.ifElse (.var "b" 2) (.block [.declare "a" none 3]) (.print (.literal .nil))),
        .declare "a" none 3], s.Canonical := by
    simp [Stmt.AllCanonical, Stmt.Canonical, Stmt.isDeclaration, Stmt.endsOpen, Expr.Canonical,
      Expr.level]
  exact ⟨⟨clean, canonical_round_trip.1 _ clean⟩, _, rfl, canonical,
    (canonical_round_trip.2 _ canonical (Lexical.eofAt 4) rfl).1⟩

end Program
end Lox
