import Lox.Proofs.Phrase.Soundness

/-!
Where declarations stand. Whatever tokens a program is read from, with faults among them or none,
its declarations are direct elements of the program or of a block. No branch of a conditional and no
body of a loop is one.
-/

namespace Lox

namespace Stmt

mutual

/-- No branch and no loop body inside a statement is a declaration. -/
def Placed : Stmt → Prop
  | .expression _ | .print _ | .declare _ _ _ => True
  | .block body => AllPlaced body
  | .ifThen _ s | .loop _ s => s.isDeclaration = false ∧ s.Placed
  | .ifElse _ s s' => (s.isDeclaration = false ∧ s.Placed) ∧ s'.isDeclaration = false ∧ s'.Placed

def AllPlaced : List Stmt → Prop
  | [] => True
  | s :: rest => s.Placed ∧ AllPlaced rest

end

theorem allPlaced_iff {body : List Stmt} : AllPlaced body ↔ ∀ s ∈ body, s.Placed := by
  induction body with
  | nil => simp [AllPlaced]
  | cons s rest ih => rw [AllPlaced, ih, List.forall_mem_cons]

theorem placed_forLoop {first : Option Stmt} (condition increment : Option Expr) {s : Stmt}
    (hf : ∀ s ∈ first, s.Placed) (hd : s.isDeclaration = false) (hs : s.Placed) :
    (forLoop first condition increment s).Placed := by
  cases first with
  | none =>
      cases increment with
      | none => exact ⟨hd, hs⟩
      | some e => exact ⟨rfl, hs, trivial, trivial⟩
  | some s' =>
      cases increment with
      | none => exact ⟨hf s' rfl, ⟨hd, hs⟩, trivial⟩
      | some e => exact ⟨hf s' rfl, ⟨rfl, hs, trivial, trivial⟩, trivial⟩

end Stmt

namespace Reader

def Answers {α : Type} (P : α → Prop) (p : Reader α) : Prop :=
  ∀ tokens value passed rest, p tokens = .done value passed rest → P value

section

variable {α β : Type} {P : α → Prop} {Q : β → Prop}

theorem answers_pure {value : α} (h : P value) : Answers P (Pure.pure value) := by
  intro tokens _ _ _ hd
  cases hd
  exact h

theorem answers_any (p : Reader α) : Answers (fun _ => True) p := fun _ _ _ _ _ => trivial

theorem answers_bind {p : Reader α} {f : α → Reader β} (hp : Answers P p)
    (hf : ∀ a, P a → Answers Q (f a)) : Answers Q (p >>= f) := by
  intro tokens value passed rest hd
  obtain ⟨a, before, left, after, hl, hr, -⟩ := done_of_bind hd
  exact hf a (hp _ _ _ _ hl) _ _ _ _ hr

/-- The answer of the first reader does not matter to the second. -/
theorem answers_after {p : Reader α} {f : α → Reader β} (hf : ∀ a, Answers Q (f a)) :
    Answers Q (p >>= f) :=
  answers_bind (answers_any p) fun a _ => hf a

theorem answers_map {p : Reader α} {f : α → β} (hp : Answers P p) (hf : ∀ a, P a → Q (f a)) :
    Answers Q (f <$> p) :=
  answers_bind hp fun a ha => answers_pure (hf a ha)

end

def Embeddable (s : Stmt) : Prop := s.isDeclaration = false ∧ s.Placed

theorem answers_declaredVariable : Answers Stmt.Placed declaredVariable :=
  answers_after fun _ => answers_after fun _ => answers_after fun _ => answers_pure trivial

theorem answers_printed : Answers Embeddable printed :=
  answers_after fun _ => answers_after fun _ => answers_pure ⟨rfl, trivial⟩

theorem answers_expressionStatement : Answers Embeddable expressionStatement :=
  answers_after fun _ => answers_after fun _ => answers_pure ⟨rfl, trivial⟩

theorem answers_declaration {p : Reader Stmt} (hp : Answers Embeddable p) :
    Answers Stmt.Placed (declaration p) := by
  refine answers_after fun word => ?_
  cases word with
  | none => exact fun tokens s passed rest hd => (hp tokens s passed rest hd).2
  | some _ => exact answers_declaredVariable

theorem answers_declarationsWithin {one : Reader Stmt} (ho : Answers Stmt.Placed one)
    (close : Kind) (n : Nat) (found : List Stmt) (passed : List Fault) (tokens : List Token)
    (hf : ∀ s ∈ found, s.Placed) :
    ∀ s ∈ (declarationsWithin one close n found passed tokens).statements, s.Placed := by
  induction n generalizing found passed tokens with
  | zero => simpa [declarationsWithin] using hf
  | succ n ih =>
      cases tokens with
      | nil => simpa [declarationsWithin] using hf
      | cons t rest =>
          simp only [declarationsWithin]
          split
          · simpa using hf
          · cases hd : one (t :: rest) with
            | done s more left =>
                exact ih _ _ _ (List.forall_mem_cons.2 ⟨ho _ _ _ _ hd, hf⟩)
            | failed fault more left => exact ih _ _ _ hf

theorem answers_block {one : Reader Stmt} (ho : Answers Stmt.Placed one) :
    Answers Embeddable (block one) := by
  have body : Answers Stmt.AllPlaced (blockBody one) := by
    intro tokens _ _ _ hd
    cases hd
    exact Stmt.allPlaced_iff.2 (answers_declarationsWithin ho _ _ [] [] tokens (by simp))
  exact answers_bind body fun _ h => answers_after fun _ => answers_pure ⟨rfl, h⟩

theorem answers_conditional {p : Reader Stmt} (hp : Answers Embeddable p) :
    Answers Embeddable (conditional p) := by
  refine answers_after fun _ => answers_after fun _ => answers_after fun _ =>
    answers_bind hp fun _ branch => answers_after fun word => ?_
  cases word with
  | none => exact answers_pure ⟨rfl, branch⟩
  | some _ => exact answers_bind hp fun _ other => answers_pure ⟨rfl, branch, other⟩

theorem answers_whileLoop {p : Reader Stmt} (hp : Answers Embeddable p) :
    Answers Embeddable (whileLoop p) :=
  answers_after fun _ => answers_after fun _ => answers_after fun _ =>
    answers_bind hp fun _ body => answers_pure ⟨rfl, body⟩

theorem answers_initializer : Answers (fun first => ∀ s ∈ first, s.Placed) initializer := by
  refine answers_after fun semicolon => ?_
  cases semicolon with
  | some _ => exact answers_pure (by simp)
  | none =>
      exact answers_map (answers_declaration answers_expressionStatement) fun s hs => by
        simpa using hs

theorem answers_forLoop {p : Reader Stmt} (hp : Answers Embeddable p) :
    Answers Embeddable (forLoop p) :=
  answers_after fun _ => answers_bind answers_initializer fun _ first =>
    answers_after fun _ => answers_after fun _ => answers_after fun _ => answers_after fun _ =>
      answers_bind hp fun _ body => answers_pure
        ⟨isDeclaration_forLoop _ _ _ _, Stmt.placed_forLoop _ _ first body.1 body.2⟩

theorem answers_statementOf {p : Reader Stmt} (hp : Answers Embeddable p) :
    Answers Embeddable (statementOf p) := by
  intro tokens s passed rest hd
  cases tokens with
  | nil => exact answers_expressionStatement _ _ _ _ hd
  | cons t more =>
      simp only [statementOf] at hd
      split at hd
      · exact answers_printed _ _ _ _ hd
      · exact answers_block (answers_declaration hp) _ _ _ _ hd
      · exact answers_conditional hp _ _ _ _ hd
      · exact answers_whileLoop hp _ _ _ _ hd
      · exact answers_forLoop hp _ _ _ _ hd
      · exact answers_expressionStatement _ _ _ _ hd

theorem answers_statementWithin (n : Nat) : Answers Embeddable (statementWithin n) := by
  induction n with
  | zero => intro tokens s passed rest hd; cases hd
  | succ n ih => exact answers_statementOf ih

theorem answers_statement : Answers Embeddable statement :=
  fun tokens => answers_statementWithin _ tokens

end Reader

/-- The statements read from any tokens are placed. -/
theorem Program.placed_ofTokens (tokens : List Token) :
    Stmt.AllPlaced (ofTokens tokens).statements :=
  Stmt.allPlaced_iff.2 (Reader.answers_declarationsWithin
    (Reader.answers_declaration Reader.answers_statement) _ _ [] [] (body tokens) (by simp))

end Lox
