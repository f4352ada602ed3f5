import Mathlib.Data.Finmap
import Lox.Scope.Environment

/-!
The scopes of a run as a plain stack of finite maps, innermost first. A store of linked scopes of
which each but the global one is inside the one made before it shows such a stack, and opening,
closing, defining, looking up and assigning do to the store what they do to the stack.
-/

namespace Lox

abbrev Frame := Finmap fun _ : String => Value

/-- The frames of a run, the innermost first and the global one last. -/
abbrev Stack := List Frame

namespace Stack

def lookup (name : String) : Stack → Option Value
  | [] => none
  | f :: rest =>
      match f.lookup name with
      | some v => some v
      | none => lookup name rest

def assign? (name : String) (value : Value) : Stack → Option Stack
  | [] => none
  | f :: rest =>
      if name ∈ f then some (f.insert name value :: rest)
      else (assign? name value rest).map (f :: ·)

end Stack

namespace Bindings

def frame : Bindings → Frame
  | [] => ∅
  | (name, value) :: rest => (frame rest).insert name value

theorem lookup_frame (b : Bindings) (name : String) : b.frame.lookup name = b.get? name := by
  induction b with
  | nil => rfl
  | cons entry rest ih =>
      obtain ⟨n, v⟩ := entry
      by_cases hn : name = n
      · subst hn
        simp [frame, get?]
      · have other : (name == n) = false := by simpa using hn
        rw [frame, Finmap.lookup_insert_of_ne _ hn, ih, get?, get?, List.lookup_cons, other]

theorem mem_frame {b : Bindings} {name : String} : name ∈ b.frame ↔ b.contains name = true := by
  induction b with
  | nil => simp [frame, contains, Finmap.notMem_empty]
  | cons entry rest ih =>
      obtain ⟨n, v⟩ := entry
      have hc : contains ((n, v) :: rest) name = (n == name || contains rest name) := rfl
      rw [frame, Finmap.mem_insert, ih, hc, Bool.or_eq_true, beq_iff_eq, eq_comm]

theorem frame_set (b : Bindings) (name : String) (value : Value) :
    (b.set name value).frame = b.frame.insert name value := by
  induction b with
  | nil => rfl
  | cons entry rest ih =>
      obtain ⟨n, v⟩ := entry
      by_cases hn : n = name
      · subst hn
        simp [set, frame]
      · have hb : (n == name) = false := by simpa using hn
        simp only [set, hb, Bool.false_eq_true, if_false, frame, ih]
        exact Finmap.insert_insert_of_ne _ (Ne.symm hn)

end Bindings

namespace ScopeStore

/-- The scope in which a scope at some place is if each was made inside the one before it. -/
def parentAt : Nat → Option ScopeId
  | 0 => none
  | i + 1 => some ⟨i⟩

def Chained (s : ScopeStore) : Prop :=
  ∀ i scope, s.get? ⟨i⟩ = some scope → scope.parent = parentAt i

def frame (s : ScopeStore) (id : ScopeId) : Frame := ((s.get? id).getD {}).bindings.frame

def frames (s : ScopeStore) : Nat → Stack
  | 0 => []
  | n + 1 => s.frame ⟨n⟩ :: s.frames n

theorem frames_congr {s t : ScopeStore} {n : Nat} (h : ∀ i < n, s.frame ⟨i⟩ = t.frame ⟨i⟩) :
    s.frames n = t.frames n := by
  induction n with
  | zero => rfl
  | succ n ih =>
      rw [frames, frames, h n (Nat.lt_succ_self n), ih fun i hi => h i (Nat.lt_succ_of_lt hi)]

section define

variable (s : ScopeStore) (id : ScopeId) (name : String) (value : Value)

theorem size_define : (s.define id name value).scopes.size = s.scopes.size := by
  simp [define]

theorem get?_define (id' : ScopeId) :
    (s.define id name value).get? id' = if id = id' then (s.get? id').map fun scope =>
      { scope with bindings := scope.bindings.set name value } else s.get? id' := by
  obtain ⟨i⟩ := id
  obtain ⟨j⟩ := id'
  simp [define, get?, Array.getElem?_modify]

theorem frame_define_self (h : id.place < s.scopes.size) :
    (s.define id name value).frame id = (s.frame id).insert name value := by
  have found : s.get? id = some s.scopes[id.place] := Array.getElem?_eq_getElem h
  rw [frame, frame, get?_define, if_pos rfl, found]
  exact Bindings.frame_set _ _ _

theorem frame_define_of_ne {id' : ScopeId} (h : id ≠ id') :
    (s.define id name value).frame id' = s.frame id' := by
  rw [frame, get?_define, if_neg h, frame]

theorem Chained.define {s : ScopeStore} (h : s.Chained) : (s.define id name value).Chained := by
  intro i scope hi
  rw [get?_define] at hi
  split at hi
  · obtain ⟨old, found, rfl⟩ := Option.map_eq_some_iff.1 hi
    exact h i old found
  · exact h i scope hi

end define

section addChild

variable (s : ScopeStore) (parent : ScopeId)

theorem get?_addChild (i : Nat) : (s.addChild parent).2.get? ⟨i⟩ =
    if i = s.scopes.size then some { parent := some parent } else s.get? ⟨i⟩ := by
  simp [addChild, add, get?, Array.getElem?_push]

theorem frame_addChild (i : Nat) : (s.addChild parent).2.frame ⟨i⟩ = s.frame ⟨i⟩ := by
  rw [frame, frame, get?_addChild]
  split
  · rename_i hi
    have absent : s.get? ⟨i⟩ = none := Array.getElem?_eq_none (Nat.le_of_eq hi.symm)
    rw [absent]
    rfl
  · rfl

theorem frame_size : s.frame ⟨s.scopes.size⟩ = ∅ := by
  have absent : s.get? ⟨s.scopes.size⟩ = none := Array.getElem?_eq_none (Nat.le_refl _)
  rw [frame, absent]
  rfl

theorem Chained.addChild {s : ScopeStore} (h : s.Chained)
    (hp : some parent = parentAt s.scopes.size) : (s.addChild parent).2.Chained := by
  intro i scope hi
  rw [get?_addChild] at hi
  split at hi
  · rename_i last
    cases hi
    rw [last]
    exact hp
  · exact h i scope hi

end addChild

section dropLast

variable (s : ScopeStore)

theorem get?_dropLast {i : Nat} (hi : i < s.scopes.size - 1) :
    s.dropLast.get? ⟨i⟩ = s.get? ⟨i⟩ := by
  simp [dropLast, get?, hi]

theorem Chained.dropLast {s : ScopeStore} (h : s.Chained) : s.dropLast.Chained := by
  intro i scope hi
  by_cases hl : i < s.scopes.size - 1
  · rw [get?_dropLast s hl] at hi
    exact h i scope hi
  · simp [ScopeStore.dropLast, get?, hl] at hi

end dropLast

section nearest

def nearestOf (s : ScopeStore) (name : String) : Nat → Option ScopeId
  | 0 => none
  | n + 1 => s.nearest ⟨n⟩ name

variable {s : ScopeStore} {name : String}

/-- The last of some scopes decides what a name means if it binds it, and otherwise those before it
do. -/
theorem nearestOf_succ (chained : s.Chained) {n : Nat} (hn : n < s.scopes.size) :
    s.nearestOf name (n + 1) =
      if name ∈ s.frame ⟨n⟩ then some ⟨n⟩ else s.nearestOf name n := by
  have found : s.get? ⟨n⟩ = some s.scopes[n] := Array.getElem?_eq_getElem hn
  have parent := chained n _ found
  rw [nearestOf, nearest, nearestWithin, frame, found]
  simp only [Option.getD_some, Bindings.mem_frame, parent]
  cases n <;> rfl

theorem nearestOf_lt (chained : s.Chained) {n : Nat} (hn : n ≤ s.scopes.size) :
    ∀ owner ∈ s.nearestOf name n, owner.place < n := by
  induction n with
  | zero => simp [nearestOf]
  | succ n ih =>
      rw [nearestOf_succ chained hn]
      split
      · simp
      · exact fun owner h => Nat.lt_succ_of_lt (ih (Nat.le_of_succ_le hn) owner h)

theorem value_eq {id : ScopeId} (h : id.place < s.scopes.size) :
    ((s.get? id).bind fun scope => scope.bindings.get? name) = (s.frame id).lookup name := by
  have found : s.get? id = some s.scopes[id.place] := Array.getElem?_eq_getElem h
  rw [frame, found, Bindings.lookup_frame]
  rfl

theorem lookup_nearestOf (chained : s.Chained) {n : Nat} (hn : n ≤ s.scopes.size) :
    ((s.nearestOf name n).bind fun owner => (s.get? owner).bind fun scope =>
      scope.bindings.get? name) = Stack.lookup name (s.frames n) := by
  induction n with
  | zero => rfl
  | succ n ih =>
      rw [nearestOf_succ chained hn, frames, Stack.lookup]
      by_cases hm : name ∈ s.frame ⟨n⟩
      · obtain ⟨v, hv⟩ := Finmap.mem_iff.1 hm
        rw [if_pos hm, Option.bind_some, value_eq hn, hv]
      · rw [if_neg hm, Finmap.lookup_eq_none.2 hm]
        exact ih (Nat.le_of_succ_le hn)

theorem frames_define (v : Value) {n : Nat} (hn : n < s.scopes.size) :
    (s.define ⟨n⟩ name v).frames (n + 1) = (s.frame ⟨n⟩).insert name v :: s.frames n := by
  have below : (s.define ⟨n⟩ name v).frames n = s.frames n :=
    frames_congr fun i hi => frame_define_of_ne _ _ _ _ (by simp; omega)
  rw [frames, frame_define_self s ⟨n⟩ name v hn, below]

theorem frames_nearestOf (chained : s.Chained) (v : Value) {n : Nat} (hn : n ≤ s.scopes.size) :
    (s.nearestOf name n).map (fun owner => (s.define owner name v).frames n) =
      Stack.assign? name v (s.frames n) := by
  induction n with
  | zero => rfl
  | succ n ih =>
      rw [nearestOf_succ chained hn, frames, Stack.assign?]
      by_cases hm : name ∈ s.frame ⟨n⟩
      · rw [if_pos hm, if_pos hm, Option.map_some, frames_define v hn]
      · have inner : ∀ owner ∈ s.nearestOf name n, owner.place < n :=
          nearestOf_lt chained (Nat.le_of_succ_le hn)
        rw [if_neg hm, if_neg hm, ← ih (Nat.le_of_succ_le hn), Option.map_map]
        refine Option.map_congr fun owner ho => ?_
        have other : owner ≠ ⟨n⟩ := by
          rintro rfl
          exact absurd (inner _ ho) (Nat.lt_irrefl n)
        simp [frames, frame_define_of_ne s owner name v other]

end nearest

end ScopeStore

namespace Environment

def Nested : List ScopeId → Prop
  | [] => True
  | id :: rest => id = ⟨rest.length + 1⟩ ∧ Nested rest

/-- The scopes of a store are those that are open, each inside the one opened before it. -/
structure Linked (e : Environment) : Prop where
  size : e.store.scopes.size = e.depth
  nested : Nested e.opened
  chained : e.store.Chained

def stack (e : Environment) : Stack := (e.opened ++ [globalScope]).map e.store.frame

theorem stack_ne_nil (e : Environment) : e.stack ≠ [] := by
  simp [stack]

theorem map_frame_of_nested (s : ScopeStore) {opened : List ScopeId} (h : Nested opened) :
    (opened ++ [globalScope]).map s.frame = s.frames (opened.length + 1) := by
  induction opened with
  | nil => rfl
  | cons id rest ih =>
      obtain ⟨rfl, hr⟩ := h
      rw [List.cons_append, List.map_cons, ih hr]
      rfl

theorem stack_eq {e : Environment} (h : e.Linked) : e.stack = e.store.frames e.depth :=
  map_frame_of_nested e.store h.nested

theorem innermost_eq {e : Environment} (h : e.Linked) : e.innermost = ⟨e.opened.length⟩ := by
  obtain ⟨store, opened⟩ := e
  cases opened with
  | nil => rfl
  | cons id rest => exact h.nested.1

theorem linked_empty : empty.Linked where
  size := rfl
  nested := trivial
  chained i scope hi := by
    cases i with
    | zero =>
        cases hi
        rfl
    | succ i => cases hi

theorem pop_of_singleton {e : Environment} {f : Frame} (h : e.stack = [f]) : e.pop = e := by
  obtain ⟨store, opened⟩ := e
  cases opened with
  | nil => rfl
  | cons id rest => simp [stack] at h

variable {e : Environment} (h : e.Linked)

include h

theorem Linked.push : e.push.Linked ∧ e.push.stack = ∅ :: e.stack := by
  have size : e.push.store.scopes.size = e.push.depth := by
    show (e.store.scopes.push _).size = e.depth + 1
    rw [Array.size_push, h.size]
  have nested : Nested e.push.opened := ⟨congrArg ScopeId.mk h.size, h.nested⟩
  have parent : some e.innermost = ScopeStore.parentAt e.store.scopes.size := by
    rw [innermost_eq h, h.size]
    rfl
  have linked : e.push.Linked := ⟨size, nested, h.chained.addChild _ parent⟩
  refine ⟨linked, ?_⟩
  rw [stack_eq linked, stack_eq h]
  show ScopeStore.frames (e.store.addChild e.innermost).2 (e.depth + 1) = _
  rw [ScopeStore.frames, ScopeStore.frame_addChild, ← h.size, ScopeStore.frame_size]
  exact congrArg (∅ :: ·) (ScopeStore.frames_congr fun i _ => ScopeStore.frame_addChild _ _ i)

theorem Linked.pop {f : Frame} {σ : Stack} (hs : e.stack = f :: σ) (hσ : σ ≠ []) :
    e.pop.Linked ∧ e.pop.stack = σ := by
  rw [stack_eq h] at hs
  obtain ⟨store, opened⟩ := e
  cases opened with
  | nil =>
      cases hs
      exact absurd rfl hσ
  | cons id rest =>
      have full : store.scopes.size = rest.length + 1 + 1 := h.size
      have size : store.dropLast.scopes.size = rest.length + 1 := by
        show store.scopes.pop.size = _
        rw [Array.size_pop, full]
        rfl
      have linked : (pop ⟨store, id :: rest⟩).Linked := ⟨size, h.nested.2, h.chained.dropLast⟩
      refine ⟨linked, ?_⟩
      rw [stack_eq linked]
      have below : store.dropLast.frames (rest.length + 1) = store.frames (rest.length + 1) := by
        refine ScopeStore.frames_congr fun i hi => ?_
        rw [ScopeStore.frame, ScopeStore.get?_dropLast store (by omega), ScopeStore.frame]
      exact below.trans (List.cons.inj hs).2

theorem Linked.define {f : Frame} {σ : Stack} (hs : e.stack = f :: σ) (name : String)
    (value : Value) :
    (e.define name value).Linked ∧ (e.define name value).stack = f.insert name value :: σ := by
  have linked : (e.define name value).Linked :=
    ⟨(e.store.size_define _ name value).trans h.size, h.nested, h.chained.define _ name value⟩
  refine ⟨linked, ?_⟩
  have inside : e.opened.length < e.store.scopes.size := by
    rw [h.size]
    exact Nat.lt_succ_self _
  rw [stack_eq h] at hs
  rw [stack_eq linked]
  show (e.store.define e.innermost name value).frames (e.opened.length + 1) = _
  rw [innermost_eq h, ScopeStore.frames_define value inside]
  obtain ⟨rfl, rfl⟩ := List.cons.inj hs
  rfl

theorem Linked.lookup (name : String) : e.lookup name = Stack.lookup name e.stack := by
  rw [stack_eq h, ← ScopeStore.lookup_nearestOf h.chained (Nat.le_of_eq h.size.symm)]
  show e.store.lookup e.innermost name = _
  rw [innermost_eq h]
  rfl

theorem Linked.assign? (name : String) (value : Value) :
    (∀ e' ∈ e.assign? name value, e'.Linked) ∧
      (e.assign? name value).map stack = Stack.assign? name value e.stack := by
  have eq : e.assign? name value = (e.store.nearestOf name e.depth).map fun owner =>
      ⟨e.store.define owner name value, e.opened⟩ := by
    show ((e.store.nearest e.innermost name).map _).map _ = _
    rw [innermost_eq h, Option.map_map]
    rfl
  have linked (owner : ScopeId) :
      Linked ⟨e.store.define owner name value, e.opened⟩ :=
    ⟨(e.store.size_define _ name value).trans h.size, h.nested, h.chained.define _ name value⟩
  constructor
  · intro e' he'
    rw [eq, Option.mem_def, Option.map_eq_some_iff] at he'
    obtain ⟨owner, -, rfl⟩ := he'
    exact linked owner
  · rw [eq, Option.map_map, stack_eq h,
      ← ScopeStore.frames_nearestOf h.chained value (Nat.le_of_eq h.size.symm)]
    exact Option.map_congr fun owner _ => stack_eq (linked owner)

end Environment
end Lox
