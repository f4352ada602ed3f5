import Lox.Proofs.Scope.Stack

/-!
How a stack can change. It keeps the names of all its frames, and the values of all names but some;
or its innermost frame gains names on top of that, at least some and at most others.
-/

namespace Lox

namespace Stack

/-- Frame by frame the same names, and the same values except for some of the names. -/
def Keeps (assigned : Finset String) : Stack → Stack → Prop :=
  List.Forall₂ fun f f' => f'.keys = f.keys ∧ ∀ x ∉ assigned, f'.lookup x = f.lookup x

namespace Keeps

variable {A B : Finset String} {σ σ₁ σ₂ : Stack}

theorem refl (A : Finset String) (σ : Stack) : Keeps A σ σ :=
  List.forall₂_same.2 fun _ _ => ⟨rfl, fun _ _ => rfl⟩

theorem mono (h : Keeps A σ σ₁) (sub : A ⊆ B) : Keeps B σ σ₁ :=
  h.imp fun _ _ same => ⟨same.1, fun x hx => same.2 x fun hA => hx (sub hA)⟩

theorem trans (h : Keeps A σ σ₁) (h' : Keeps A σ₁ σ₂) : Keeps A σ σ₂ := by
  induction h generalizing σ₂ with
  | nil => exact h'
  | cons same _ ih =>
      cases h' with
      | cons same' rest =>
          exact .cons ⟨same'.1.trans same.1, fun x hx => (same'.2 x hx).trans (same.2 x hx)⟩
            (ih rest)

theorem values (h : Keeps A σ σ₁) {x : String}
    (hx : x ∉ A) : σ₁.map (Finmap.lookup x) = σ.map (Finmap.lookup x) := by
  induction h with
  | nil => rfl
  | cons same _ ih => rw [List.map_cons, List.map_cons, same.2 x hx, ih]

theorem names (h : Keeps A σ σ₁) :
    σ₁.map Finmap.keys = σ.map Finmap.keys := by
  induction h with
  | nil => rfl
  | cons same _ ih => rw [List.map_cons, List.map_cons, same.1, ih]

end Keeps

theorem keys_insert (f : Frame) (name : String) (v : Value) :
    (f.insert name v).keys = insert name f.keys := by
  ext x
  simp [Finmap.mem_keys, Finmap.mem_insert]

theorem keeps_assign? {name : String} {v : Value} {σ σ' : Stack}
    (h : σ.assign? name v = some σ') : Keeps {name} σ σ' := by
  induction σ generalizing σ' with
  | nil => cases h
  | cons f rest ih =>
      rw [assign?] at h
      split at h
      · rename_i bound
        cases h
        refine .cons ⟨?_, fun x hx => ?_⟩ (Keeps.refl _ rest)
        · rw [keys_insert, Finset.insert_eq_of_mem (Finmap.mem_keys.2 bound)]
        · exact Finmap.lookup_insert_of_ne f (by simpa using hx)
      · obtain ⟨rest', hr, rfl⟩ := Option.map_eq_some_iff.1 h
        exact .cons ⟨rfl, fun _ _ => rfl⟩ (ih hr)

/-- The innermost frame gains names, at least some and at most others, and may change the values of
those and of the assigned ones. The other frames keep their names. -/
inductive Grows (least most assigned : Finset String) : Stack → Stack → Prop
  | intro {f f' : Frame} {σ σ' : Stack} (lower : f.keys ∪ least ⊆ f'.keys)
      (upper : f'.keys ⊆ f.keys ∪ most)
      (values : ∀ x ∉ assigned ∪ most, f'.lookup x = f.lookup x) (outer : Keeps assigned σ σ') :
      Grows least most assigned (f :: σ) (f' :: σ')

theorem Keeps.grows {A : Finset String} {σ σ' : Stack} (h : Keeps A σ σ') (hσ : σ ≠ []) :
    Grows ∅ ∅ A σ σ' := by
  cases h with
  | nil => exact absurd rfl hσ
  | cons same rest =>
      refine .intro ?_ ?_ (fun x hx => same.2 x (by simpa using hx)) rest
      · rw [same.1, Finset.union_empty]
      · rw [same.1, Finset.union_empty]

theorem grows_insert (f : Frame) (σ : Stack) (name : String) (v : Value) :
    Grows {name} {name} ∅ (f :: σ) (f.insert name v :: σ) := by
  refine .intro ?_ ?_ (fun x hx => ?_) (.refl _ σ)
  · rw [keys_insert, Finset.insert_eq, Finset.union_comm]
  · rw [keys_insert, Finset.insert_eq, Finset.union_comm]
  · exact Finmap.lookup_insert_of_ne f (by simpa using hx)

namespace Grows

variable {L L' M M' A A' : Finset String} {σ σ₁ σ₂ : Stack}

theorem mono (h : Grows L M A σ σ₁) (least : L' ⊆ L) (most : M ⊆ M') (assigned : A ⊆ A') :
    Grows L' M' A' σ σ₁ := by
  obtain ⟨lower, upper, values, outer⟩ := h
  refine .intro ?_ ?_ (fun x hx => values x fun h => hx ?_) (outer.mono assigned)
  · exact (Finset.union_subset_union_right least).trans lower
  · exact upper.trans (Finset.union_subset_union_right most)
  · exact Finset.union_subset_union assigned most h

theorem trans (h : Grows L M A σ σ₁) (h' : Grows L' M' A σ₁ σ₂) :
    Grows (L ∪ L') (M ∪ M') A σ σ₂ := by
  obtain ⟨lower, upper, values, outer⟩ := h
  obtain ⟨lower', upper', values', outer'⟩ := h'
  refine .intro ?_ ?_ (fun x hx => ?_) (outer.trans outer')
  · rw [← Finset.union_assoc]
    exact (Finset.union_subset_union_left lower).trans lower'
  · rw [← Finset.union_assoc]
    exact upper'.trans (Finset.union_subset_union_left upper)
  · simp only [Finset.mem_union, not_or] at hx values values'
    rw [values' x ⟨hx.1, hx.2.2⟩, values x ⟨hx.1, hx.2.1⟩]

/-- The frames below a new empty one keep their names, whatever is added to it. -/
theorem outer (h : Grows L M A (∅ :: σ) σ₁) : ∃ f σ', σ₁ = f :: σ' ∧ Keeps A σ σ' := by
  obtain ⟨-, -, -, outer⟩ := h
  exact ⟨_, _, rfl, outer⟩

end Grows

def Binds (x : String) (σ : Stack) : Prop := ∃ names ∈ σ.map Finmap.keys, x ∈ names

section binds

variable {x : String} {σ σ₁ : Stack} {A L : Finset String}

theorem not_binds_nil : ¬Binds x [] := by
  simp [Binds]

theorem binds_cons {f : Frame} : Binds x (f :: σ) ↔ x ∈ f.keys ∨ Binds x σ := by
  simp [Binds]

theorem lookup_eq_none_iff : σ.lookup x = none ↔ ¬Binds x σ := by
  induction σ with
  | nil => simp [lookup, not_binds_nil]
  | cons f rest ih =>
      rw [lookup, binds_cons, not_or, ← ih, Finmap.mem_keys, ← Finmap.lookup_eq_none]
      cases f.lookup x <;> simp

theorem assign?_eq_none_iff {v : Value} : σ.assign? x v = none ↔ ¬Binds x σ := by
  induction σ with
  | nil => simp [assign?, not_binds_nil]
  | cons f rest ih =>
      rw [assign?, binds_cons, not_or, ← ih, Finmap.mem_keys]
      split <;> simp [*]

theorem Keeps.binds_iff (h : Keeps A σ σ₁) : Binds x σ₁ ↔ Binds x σ := by
  rw [Binds, h.names, Binds]

theorem Grows.binds_of {M : Finset String} (h : Grows L M A σ σ₁) (hx : Binds x σ₁) :
    Binds x σ ∨ x ∈ M := by
  obtain ⟨-, upper, -, outer⟩ := h
  rw [binds_cons, outer.binds_iff] at hx
  rw [binds_cons, or_right_comm]
  exact hx.imp_left fun h => Finset.mem_union.1 (upper h)

/-- When the names that are sure to be gained are all that can be, the names are known. -/
theorem Grows.binds_iff (h : Grows L L A σ σ₁) : Binds x σ₁ ↔ Binds x σ ∨ x ∈ L := by
  obtain ⟨lower, upper, -, outer⟩ := h
  rw [binds_cons, binds_cons, outer.binds_iff, Finset.Subset.antisymm upper lower,
    Finset.mem_union, or_right_comm]

end binds
end Stack

theorem Environment.not_binds_empty (x : String) : ¬Stack.Binds x Environment.empty.stack := by
  show ¬Stack.Binds x [∅]
  simp [Stack.binds_cons, Stack.not_binds_nil]

theorem Environment.length_stack (e : Environment) : e.stack.length = e.depth := by
  simp [stack, depth]

theorem Environment.depth_eq_of_names {e e' : Environment}
    (h : e'.stack.map Finmap.keys = e.stack.map Finmap.keys) : e'.depth = e.depth := by
  have size := congrArg List.length h
  rwa [List.length_map, List.length_map, length_stack, length_stack] at size

end Lox
