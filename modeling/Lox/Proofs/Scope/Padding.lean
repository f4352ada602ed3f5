import Lox.Proofs.Execution.Rules

/-!
Empty frames among the frames of a stack. No name is found in them and no assignment reaches them,
so that an expression does with them what it does without.
-/

namespace Lox

namespace Stack

/-- A stack with empty frames put among its own. From the innermost on, `true` stands for one that
is put there, and `false` for the next frame of the stack. -/
def pad : List Bool → Stack → Stack
  | [], σ => σ
  | true :: gaps, σ => ∅ :: pad gaps σ
  | false :: _, [] => []
  | false :: gaps, f :: σ => f :: pad gaps σ

theorem pad_ne_nil (gaps : List Bool) {σ : Stack} (h : σ ≠ []) : pad gaps σ ≠ [] := by
  fun_cases pad gaps σ with
  | case1 | case3 => exact h
  | case2 | case4 => exact List.cons_ne_nil _ _

theorem lookup_pad (gaps : List Bool) (name : String) (σ : Stack) :
    (pad gaps σ).lookup name = σ.lookup name := by
  fun_induction pad gaps σ with
  | case1 | case3 => rfl
  | case2 gaps σ ih => rw [lookup, Finmap.lookup_empty, ih]
  | case4 gaps f σ ih => rw [lookup, lookup, ih]

theorem assign?_pad (gaps : List Bool) (name : String) (v : Value) (σ : Stack) :
    (pad gaps σ).assign? name v = (σ.assign? name v).map (pad gaps) := by
  fun_induction pad gaps σ with
  | case1 σ => exact Option.map_id'.symm
  | case2 gaps σ ih =>
      rw [assign?, if_neg Finmap.notMem_empty, ih, Option.map_map]
      rfl
  | case3 => rfl
  | case4 gaps f σ ih =>
      rw [assign?, assign?]
      split
      · rfl
      · rw [ih, Option.map_map, Option.map_map]
        rfl

end Stack

/-- Empty frames make no difference to an expression. -/
theorem Expr.Evaluates.pad {e : Expr} {σ σ' : Stack} {r : Except RuntimeError Value}
    (h : e.Evaluates σ r σ') (gaps : List Bool) :
    e.Evaluates (Stack.pad gaps σ) r (Stack.pad gaps σ') := by
  induction h with
  | literal v σ => exact .literal v _
  | grouping _ ih => exact .grouping ih
  | unary _ given ih => exact .unary ih given
  | unaryFails _ ih => exact .unaryFails ih
  | binary _ _ given ihl ihr => exact .binary ihl ihr given
  | binaryLeftFails _ ih => exact .binaryLeftFails ih
  | binaryRightFails _ _ ihl ihr => exact .binaryRightFails ihl ihr
  | decided _ decides ih => exact .decided ih decides
  | undecided _ undecided _ ihl ihr => exact .undecided ihl undecided ihr
  | logicalFails _ ih => exact .logicalFails ih
  | var found => exact .var ((Stack.lookup_pad gaps _ _).trans found)
  | varUnbound absent => exact .varUnbound ((Stack.lookup_pad gaps _ _).trans absent)
  | assign _ assigned ih =>
      refine .assign ih ?_
      rw [Stack.assign?_pad, assigned, Option.map_some]
  | assignUnbound _ absent ih =>
      refine .assignUnbound ih ?_
      rw [Stack.assign?_pad, absent, Option.map_none]
  | assignFails _ ih => exact .assignFails ih

end Lox
