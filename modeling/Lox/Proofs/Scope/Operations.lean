import Lox.Proofs.Scope.Growth

/-!
Operations on an environment, one after the other. Whatever they are, they are answered as on a
plain stack of frames, with the same depth after each of them, and the parent of each open scope
stays the scope below it.
-/

namespace Lox

inductive Scope.Answer
  | done
  /-- There is no binding to give another value to. -/
  | undefined
  | found (value : Option Value)
  deriving DecidableEq

namespace Environment

inductive Operation
  | push
  | pop
  | define (name : String) (value : Value)
  | assign (name : String) (value : Value)
  | lookup (name : String)

/-- Performs one operation. An assignment to a name that is not bound leaves everything as it is. -/
def perform (e : Environment) : Operation → Scope.Answer × Environment
  | .push => (.done, e.push)
  | .pop => (.done, e.pop)
  | .define name value => (.done, e.define name value)
  | .assign name value =>
      match e.assign? name value with
      | some e' => (.done, e')
      | none => (.undefined, e)
  | .lookup name => (.found (e.lookup name), e)

end Environment

namespace Stack

open Environment (Operation)

/-- What an operation means for a plain stack of frames. The last frame is not dropped. -/
def perform : Stack → Operation → Scope.Answer × Stack
  | σ, .push => (.done, ∅ :: σ)
  | _ :: f :: rest, .pop => (.done, f :: rest)
  | σ, .pop => (.done, σ)
  | f :: rest, .define name value => (.done, f.insert name value :: rest)
  | [], .define _ _ => (.done, [])
  | σ, .assign name value =>
      match σ.assign? name value with
      | some σ' => (.done, σ')
      | none => (.undefined, σ)
  | σ, .lookup name => (.found (σ.lookup name), σ)

end Stack

namespace Environment

def trace {α : Type} (perform : α → Operation → Scope.Answer × α) (depth : α → Nat) :
    List Operation → α → List (Scope.Answer × Nat) × α
  | [], a => ([], a)
  | op :: rest, a =>
      let (answer, a) := perform a op
      let (more, last) := trace perform depth rest a
      ((answer, depth a) :: more, last)

theorem trace_cons {α : Type} (perform : α → Operation → Scope.Answer × α) (depth : α → Nat)
    (op : Operation) (rest : List Operation) (a : α) :
    trace perform depth (op :: rest) a =
      (((perform a op).1, depth (perform a op).2) :: (trace perform depth rest (perform a op).2).1,
        (trace perform depth rest (perform a op).2).2) := rfl

/-- The parent of each of some scopes is the one that stands below it; the last one has none. -/
def ParentsBelow (s : ScopeStore) : List ScopeId → Prop
  | [] => True
  | id :: below => (s.get? id).map Scope.parent = some below.head? ∧ ParentsBelow s below

theorem Linked.parentsBelow {e : Environment} (h : e.Linked) :
    ParentsBelow e.store (e.opened ++ [globalScope]) := by
  obtain ⟨store, opened⟩ := e
  have parent (i : Nat) (hi : i < store.scopes.size) :
      (store.get? ⟨i⟩).map Scope.parent = some (ScopeStore.parentAt i) := by
    have found : store.get? ⟨i⟩ = some store.scopes[i] := Array.getElem?_eq_getElem hi
    rw [found, Option.map_some, h.chained i _ found]
  have all (opened : List ScopeId) (nested : Nested opened)
      (size : opened.length < store.scopes.size) :
      ParentsBelow store (opened ++ [globalScope]) := by
    induction opened with
    | nil => exact ⟨parent 0 size, trivial⟩
    | cons id rest ih =>
        obtain ⟨rfl, below⟩ := nested
        refine ⟨(parent _ size).trans ?_, ih below (Nat.lt_of_succ_lt size)⟩
        cases rest with
        | nil => rfl
        | cons next rest =>
            obtain ⟨rfl, -⟩ := below
            rfl
  exact all opened h.nested (h.size ▸ Nat.lt_succ_self _)

/-- Closing the innermost scope drops its frame unless that is the last. -/
theorem Linked.perform_pop {e : Environment} (h : e.Linked) :
    e.pop.Linked ∧ (Scope.Answer.done, e.pop.stack) = Stack.perform e.stack .pop := by
  obtain ⟨store, opened⟩ := e
  cases opened with
  | nil => exact ⟨h, rfl⟩
  | cons id rest =>
      obtain ⟨f, σ, hσ⟩ := List.exists_cons_of_ne_nil (stack_ne_nil ⟨store, rest⟩)
      have whole : stack ⟨store, id :: rest⟩ = store.frame id :: f :: σ :=
        congrArg (store.frame id :: ·) hσ
      obtain ⟨linked, popped⟩ := h.pop whole (List.cons_ne_nil f σ)
      exact ⟨linked, by rw [whole, popped, Stack.perform]⟩

/-- An operation does to an environment and answers what it does to and answers for its stack. -/
theorem Linked.perform {e : Environment} (h : e.Linked) (op : Operation) :
    (e.perform op).2.Linked ∧
      ((e.perform op).1, (e.perform op).2.stack) = e.stack.perform op := by
  cases op with
  | push => exact ⟨h.push.1, congrArg (Scope.Answer.done, ·) h.push.2⟩
  | pop => exact h.perform_pop
  | define name value =>
      obtain ⟨f, σ, hσ⟩ := List.exists_cons_of_ne_nil e.stack_ne_nil
      obtain ⟨linked, defined⟩ := h.define hσ name value
      exact ⟨linked, by rw [hσ]; exact congrArg (Scope.Answer.done, ·) defined⟩
  | assign name value =>
      obtain ⟨linked, assigned⟩ := h.assign? name value
      rw [Environment.perform, Stack.perform, ← assigned]
      cases he : e.assign? name value with
      | none => exact ⟨h, rfl⟩
      | some e' => exact ⟨linked e' he, rfl⟩
  | lookup name => exact ⟨h, congrArg (fun v => (Scope.Answer.found v, e.stack)) (h.lookup name)⟩

theorem Linked.trace {e : Environment} (h : e.Linked) (ops : List Operation) :
    (trace Environment.perform depth ops e).2.Linked ∧
      ((trace Environment.perform depth ops e).1, (trace Environment.perform depth ops e).2.stack) =
        trace Stack.perform List.length ops e.stack := by
  induction ops generalizing e with
  | nil => exact ⟨h, rfl⟩
  | cons op rest ih =>
      obtain ⟨linked, step⟩ := h.perform op
      obtain ⟨last, more⟩ := ih linked
      refine ⟨last, ?_⟩
      rw [trace_cons, trace_cons, ← step, ← more, length_stack]

/-- Operations on a new environment are answered as on a stack of one empty frame, with the same
depths, and leave what they leave there. At every moment the parent of each open scope is the scope
below it. -/
theorem trace_eq_on_stack (ops : List Operation) :
    (trace perform depth ops empty).1 = (trace Stack.perform List.length ops [∅]).1 ∧
      (trace perform depth ops empty).2.stack = (trace Stack.perform List.length ops [∅]).2 ∧
      (trace Stack.perform List.length ops [∅]).2 ≠ [] ∧
      ParentsBelow (trace perform depth ops empty).2.store
        ((trace perform depth ops empty).2.opened ++ [globalScope]) := by
  obtain ⟨linked, same⟩ := linked_empty.trace ops
  obtain ⟨answers, left⟩ := Prod.ext_iff.1 same
  refine ⟨answers, left, ?_, linked.parentsBelow⟩
  have nonempty := stack_ne_nil (trace perform depth ops empty).2
  exact left ▸ nonempty

end Environment
end Lox
