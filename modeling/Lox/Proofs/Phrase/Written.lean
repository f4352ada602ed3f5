import Lox.Proofs.Phrase.Program

/-!
Statements as they are written, with `for` loops among them. They are worded by the same tokens as
what they are read as, and everything that is read without a fault is written in this way.
-/

namespace Lox

/-- Statements as they are written. A plain one holds no other. -/
inductive Written
  | plain (s : Stmt)
  | block (body : List Written)
  | ifThen (condition : Expr) (thenBranch : Written)
  | ifElse (condition : Expr) (thenBranch elseBranch : Written)
  | whileLoop (condition : Expr) (body : Written)
  | forLoop (first : Option Stmt) (condition increment : Option Expr) (body : Written)

namespace Written

mutual

def lower : Written → Stmt
  | .plain s => s
  | .block body => .block (lowerAll body)
  | .ifThen e w => .ifThen e w.lower
  | .ifElse e w w' => .ifElse e w.lower w'.lower
  | .whileLoop e w => .loop e w.lower
  | .forLoop first condition increment w => .forLoop first condition increment w.lower

def lowerAll : List Written → List Stmt
  | [] => []
  | w :: rest => w.lower :: lowerAll rest

end

def isDeclaration : Written → Bool
  | .plain s => s.isDeclaration
  | _ => false

inductive Wording : List Token → Written → Bool → Prop
  | plain {u : List Token} {s : Stmt} {tail : Bool} (h : Stmt.Wording u s tail) (hs : s.Plain) :
      Wording u (.plain s) tail
  | block {l r : Token} {parts : List (List Token × Written × Bool)} (hl : l.kind = .leftBrace)
      (body : ∀ p ∈ parts, Wording p.1 p.2.1 p.2.2) (hr : r.kind = .rightBrace) :
      Wording (l :: parts.flatMap (·.1) ++ [r]) (.block (parts.map (·.2.1))) false
  | ifThen {f l r : Token} {u v : List Token} {e : Expr} {w : Written} {tail : Bool}
      (hf : f.kind = .ifWord) (hl : l.kind = .leftParen) (condition : Expr.Wording u e)
      (hr : r.kind = .rightParen) (hw : w.isDeclaration = false) (thenBranch : Wording v w tail) :
      Wording (f :: l :: u ++ r :: v) (.ifThen e w) true
  | ifElse {f l r o : Token} {u v v' : List Token} {e : Expr} {w w' : Written} {tail : Bool}
      (hf : f.kind = .ifWord) (hl : l.kind = .leftParen) (condition : Expr.Wording u e)
      (hr : r.kind = .rightParen) (hw : w.isDeclaration = false) (thenBranch : Wording v w false)
      (ho : o.kind = .elseWord) (hw' : w'.isDeclaration = false)
      (elseBranch : Wording v' w' tail) :
      Wording (f :: l :: u ++ r :: v ++ o :: v') (.ifElse e w w') tail
  | whileLoop {f l r : Token} {u v : List Token} {e : Expr} {w : Written} {tail : Bool}
      (hf : f.kind = .whileWord) (hl : l.kind = .leftParen) (condition : Expr.Wording u e)
      (hr : r.kind = .rightParen) (hw : w.isDeclaration = false) (body : Wording v w tail) :
      Wording (f :: l :: u ++ r :: v) (.whileLoop e w) tail
  | forLoop {f l t r : Token} {u₁ u₂ u₃ v : List Token} {first : Option Stmt}
      {condition increment : Option Expr} {w : Written} {tail : Bool} (hf : f.kind = .forWord)
      (hl : l.kind = .leftParen) (start : Stmt.Starting u₁ first)
      (test : Stmt.Clause u₂ condition) (ht : t.kind = .semicolon)
      (step : Stmt.Clause u₃ increment) (hr : r.kind = .rightParen)
      (hw : w.isDeclaration = false) (body : Wording v w tail) :
      Wording (f :: l :: u₁ ++ u₂ ++ t :: u₃ ++ r :: v) (.forLoop first condition increment w) tail

def Words (tokens : List Token) (body : List Written) : Prop :=
  ∃ parts : List (List Token × Written × Bool), tokens = parts.flatMap (·.1) ∧
    body = parts.map (·.2.1) ∧ ∀ p ∈ parts, Wording p.1 p.2.1 p.2.2

theorem lowerAll_eq_map (body : List Written) : lowerAll body = body.map lower := by
  induction body with
  | nil => rfl
  | cons w rest ih => rw [lowerAll, ih, List.map_cons]

theorem isDeclaration_lower (w : Written) : w.lower.isDeclaration = w.isDeclaration := by
  cases w with
  | forLoop first condition increment w => exact Reader.isDeclaration_forLoop _ _ _ _
  | _ => rfl

def lowerParts (parts : List (List Token × Written × Bool)) : List (List Token × Stmt × Bool) :=
  parts.map fun p => (p.1, p.2.1.lower, p.2.2)

theorem flatMap_lowerParts (parts : List (List Token × Written × Bool)) :
    (lowerParts parts).flatMap (·.1) = parts.flatMap (·.1) := by
  rw [lowerParts, List.flatMap_map]

theorem map_lowerParts (parts : List (List Token × Written × Bool)) :
    (lowerParts parts).map (·.2.1) = lowerAll (parts.map (·.2.1)) := by
  rw [lowerAll_eq_map, lowerParts, List.map_map, List.map_map]
  rfl

/-- The tokens of a written statement stand for what it is read as. -/
theorem Wording.lower {u : List Token} {w : Written} {tail : Bool} (h : Wording u w tail) :
    Stmt.Wording u w.lower tail := by
  induction h with
  | plain h => exact h
  | @block l r parts hl body hr ih =>
      have worded : ∀ p ∈ lowerParts parts, Stmt.Wording p.1 p.2.1 p.2.2 :=
        List.forall_mem_map.2 ih
      have lowered := Stmt.Wording.block hl worded hr
      rwa [flatMap_lowerParts, map_lowerParts] at lowered
  | ifThen hf hl condition hr hw _ ih =>
      exact .ifThen hf hl condition hr ((isDeclaration_lower _).trans hw) ih
  | ifElse hf hl condition hr hw _ ho hw' _ ih ih' =>
      exact .ifElse hf hl condition hr ((isDeclaration_lower _).trans hw) ih ho
        ((isDeclaration_lower _).trans hw') ih'
  | whileLoop hf hl condition hr hw _ ih =>
      exact .loop hf hl condition hr ((isDeclaration_lower _).trans hw) ih
  | forLoop hf hl start test ht step hr hw _ ih =>
      exact .forLoop hf hl start test ht step hr ((isDeclaration_lower _).trans hw) ih

theorem exists_parts {parts : List (List Token × Stmt × Bool)}
    (h : ∀ p ∈ parts, ∃ w : Written, Wording p.1 w p.2.2 ∧ w.lower = p.2.1) :
    ∃ written, lowerParts written = parts ∧ ∀ p ∈ written, Wording p.1 p.2.1 p.2.2 := by
  induction parts with
  | nil => exact ⟨[], rfl, by simp⟩
  | cons p rest ih =>
      obtain ⟨⟨w, worded, lowered⟩, more⟩ := List.forall_mem_cons.1 h
      obtain ⟨written, rfl, all⟩ := ih more
      refine ⟨(p.1, w, p.2.2) :: written, ?_, List.forall_mem_cons.2 ⟨worded, all⟩⟩
      rw [lowerParts, List.map_cons, lowered]
      rfl

/-- Every statement is what some written statement with the same tokens is read as. -/
theorem exists_wording {u : List Token} {s : Stmt} {tail : Bool} (h : Stmt.Wording u s tail) :
    ∃ w : Written, Wording u w tail ∧ w.lower = s := by
  induction h with
  | declaring h => exact ⟨_, .plain (.declaring h) h.plain, rfl⟩
  | evaluating h => exact ⟨_, .plain (.evaluating h) h.plain, rfl⟩
  | print hp value ht => exact ⟨_, .plain (.print hp value ht) trivial, rfl⟩
  | @block l r parts hl _ hr ih =>
      obtain ⟨written, rfl, worded⟩ := exists_parts ih
      rw [flatMap_lowerParts, map_lowerParts]
      exact ⟨_, .block hl worded hr, rfl⟩
  | ifThen hf hl condition hr hs _ ih =>
      obtain ⟨w, worded, rfl⟩ := ih
      exact ⟨_, .ifThen hf hl condition hr (w.isDeclaration_lower ▸ hs) worded, rfl⟩
  | ifElse hf hl condition hr hs _ ho hs' _ ih ih' =>
      obtain ⟨w, worded, rfl⟩ := ih
      obtain ⟨w', worded', rfl⟩ := ih'
      exact ⟨_, .ifElse hf hl condition hr (w.isDeclaration_lower ▸ hs) worded ho
        (w'.isDeclaration_lower ▸ hs') worded', rfl⟩
  | loop hf hl condition hr hs _ ih =>
      obtain ⟨w, worded, rfl⟩ := ih
      exact ⟨_, .whileLoop hf hl condition hr (w.isDeclaration_lower ▸ hs) worded, rfl⟩
  | forLoop hf hl start test ht step hr hs _ ih =>
      obtain ⟨w, worded, rfl⟩ := ih
      exact ⟨_, .forLoop hf hl start test ht step hr (w.isDeclaration_lower ▸ hs) worded, rfl⟩

section

variable {tokens : List Token}

theorem Words.lower {body : List Written} (h : Words tokens body) :
    Program.Wording tokens (lowerAll body) := by
  obtain ⟨parts, rfl, rfl, worded⟩ := h
  exact ⟨lowerParts parts, (flatMap_lowerParts parts).symm, (map_lowerParts parts).symm,
    List.forall_mem_map.2 fun p hp => (worded p hp).lower⟩

theorem exists_words {statements : List Stmt} (h : Program.Wording tokens statements) :
    ∃ body, Words tokens body ∧ lowerAll body = statements := by
  obtain ⟨parts, rfl, rfl, read⟩ := h
  obtain ⟨written, rfl, worded⟩ := exists_parts fun p hp => exists_wording (read p hp)
  exact ⟨_, ⟨written, flatMap_lowerParts written, rfl, worded⟩, (map_lowerParts written).symm⟩

end

end Written

end Lox
