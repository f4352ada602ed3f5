import Lox.Proofs.Execution.Rules
import Lox.Proofs.Scope.Growth

/-!
Stacks that bind the same values to some names, frame by frame, whatever they bind to others. What
is done with these names does the same to both stacks, and leaves them like that.
-/

namespace Lox

namespace Stack

/-- Frame by frame the same values of some names. A name that one frame does not bind, the other one
does not bind either. -/
def AgreeOn (names : Set String) : Stack → Stack → Prop :=
  List.Forall₂ fun f f' => ∀ x ∈ names, f'.lookup x = f.lookup x

variable {N : Set String} {σ τ : Stack} {f g : Frame} {x : String}

theorem mem_iff_of_lookup_eq (h : g.lookup x = f.lookup x) : x ∈ g ↔ x ∈ f := by
  rw [← Finmap.lookup_isSome, h, Finmap.lookup_isSome]

theorem AgreeOn.lookup (h : AgreeOn N σ τ) (hx : x ∈ N) : τ.lookup x = σ.lookup x := by
  induction h with
  | nil => rfl
  | cons same _ ih => rw [Stack.lookup, Stack.lookup, same x hx, ih]

/-- The same binding in the innermost frames. -/
theorem AgreeOn.insert (h : AgreeOn N (f :: σ) (g :: τ)) (x : String) (v : Value) :
    AgreeOn N (f.insert x v :: σ) (g.insert x v :: τ) := by
  obtain ⟨same, rest⟩ := List.forall₂_cons.1 h
  refine .cons (fun y hy => ?_) rest
  by_cases hxy : y = x
  · rw [hxy, Finmap.lookup_insert, Finmap.lookup_insert]
  · rw [Finmap.lookup_insert_of_ne _ hxy, Finmap.lookup_insert_of_ne _ hxy, same y hy]

/-- An assignment to one of the names reaches the same frame of both stacks, or none of either. -/
theorem AgreeOn.assign? (h : AgreeOn N σ τ) (hx : x ∈ N) (v : Value) :
    (∃ σ' τ', σ.assign? x v = some σ' ∧ τ.assign? x v = some τ' ∧ AgreeOn N σ' τ') ∨
      (σ.assign? x v = none ∧ τ.assign? x v = none) := by
  induction h with
  | nil => exact .inr ⟨rfl, rfl⟩
  | @cons f g σ τ same rest ih =>
      rw [Stack.assign?, Stack.assign?]
      by_cases bound : x ∈ f
      · rw [if_pos bound, if_pos ((mem_iff_of_lookup_eq (same x hx)).2 bound)]
        exact .inl ⟨_, _, rfl, rfl, AgreeOn.insert (.cons same rest) x v⟩
      · rw [if_neg bound, if_neg (mt (mem_iff_of_lookup_eq (same x hx)).1 bound)]
        obtain ⟨σ', τ', found, found', inner⟩ | ⟨absent, absent'⟩ := ih
        · rw [found, found']
          exact .inl ⟨_, _, rfl, rfl, .cons same inner⟩
        · rw [absent, absent']
          exact .inr ⟨rfl, rfl⟩

theorem Keeps.agreeOn {A : Finset String} (h : Keeps A σ τ) (apart : ∀ x ∈ N, x ∉ A) :
    AgreeOn N σ τ :=
  h.imp fun _ _ same x hx => same.2 x (apart x hx)

theorem Grows.agreeOn {L M A : Finset String} (h : Grows L M A σ τ)
    (apart : ∀ x ∈ N, x ∉ A ∪ M) : AgreeOn N σ τ := by
  obtain ⟨-, -, values, outer⟩ := h
  exact .cons (fun x hx => values x (apart x hx))
    (outer.agreeOn fun x hx hA => apart x hx (Finset.mem_union_left M hA))

end Stack

def Expr.mentioned : Expr → Finset String
  | literal _ => ∅
  | var name _ => {name}
  | grouping e | unary _ _ e => e.mentioned
  | binary _ _ l r | logical _ l r => l.mentioned ∪ r.mentioned
  | assign name _ e => insert name e.mentioned

/-- An expression comes to the same on stacks that agree on its names, and leaves them so. -/
theorem Expr.Evaluates.agreeOn {e : Expr} {σ σ' τ : Stack} {r : Except RuntimeError Value}
    {N : Set String} (h : e.Evaluates σ r σ') (sub : ∀ x ∈ e.mentioned, x ∈ N)
    (same : Stack.AgreeOn N σ τ) : ∃ τ', e.Evaluates τ r τ' ∧ Stack.AgreeOn N σ' τ' := by
  induction h generalizing τ with
  | literal v => exact ⟨τ, .literal v τ, same⟩
  | grouping _ ih =>
      obtain ⟨τ', inner, same'⟩ := ih sub same
      exact ⟨τ', .grouping inner, same'⟩
  | unary _ given ih =>
      obtain ⟨τ', operand, same'⟩ := ih sub same
      exact ⟨τ', .unary operand given, same'⟩
  | unaryFails _ ih =>
      obtain ⟨τ', operand, same'⟩ := ih sub same
      exact ⟨τ', .unaryFails operand, same'⟩
  | binary _ _ given ihl ihr =>
      obtain ⟨subl, subr⟩ := Finset.forall_mem_union.1 sub
      obtain ⟨τ₁, left, same₁⟩ := ihl subl same
      obtain ⟨τ₂, right, same₂⟩ := ihr subr same₁
      exact ⟨τ₂, .binary left right given, same₂⟩
  | binaryLeftFails _ ih =>
      obtain ⟨τ₁, left, same₁⟩ := ih (Finset.forall_mem_union.1 sub).1 same
      exact ⟨τ₁, .binaryLeftFails left, same₁⟩
  | binaryRightFails _ _ ihl ihr =>
      obtain ⟨subl, subr⟩ := Finset.forall_mem_union.1 sub
      obtain ⟨τ₁, left, same₁⟩ := ihl subl same
      obtain ⟨τ₂, right, same₂⟩ := ihr subr same₁
      exact ⟨τ₂, .binaryRightFails left right, same₂⟩
  | decided _ decides ih =>
      obtain ⟨τ₁, left, same₁⟩ := ih (Finset.forall_mem_union.1 sub).1 same
      exact ⟨τ₁, .decided left decides, same₁⟩
  | undecided _ undecided _ ihl ihr =>
      obtain ⟨subl, subr⟩ := Finset.forall_mem_union.1 sub
      obtain ⟨τ₁, left, same₁⟩ := ihl subl same
      obtain ⟨τ₂, right, same₂⟩ := ihr subr same₁
      exact ⟨τ₂, .undecided left undecided right, same₂⟩
  | logicalFails _ ih =>
      obtain ⟨τ₁, left, same₁⟩ := ih (Finset.forall_mem_union.1 sub).1 same
      exact ⟨τ₁, .logicalFails left, same₁⟩
  | var found =>
      exact ⟨τ, .var ((same.lookup (sub _ (Finset.mem_singleton_self _))).trans found), same⟩
  | varUnbound absent =>
      exact ⟨τ, .varUnbound ((same.lookup (sub _ (Finset.mem_singleton_self _))).trans absent), same⟩
  | @assign name line e σ σ₁ σ₂ v _ assigned ih =>
      obtain ⟨target, sub⟩ := Finset.forall_mem_insert _ _ _ |>.1 sub
      obtain ⟨τ₁, value, same₁⟩ := ih sub same
      obtain ⟨_, τ₂, found, found', same₂⟩ | ⟨absent, -⟩ := same₁.assign? target v
      · cases assigned.symm.trans found
        exact ⟨τ₂, .assign value found', same₂⟩
      · cases assigned.symm.trans absent
  | @assignUnbound name line e σ σ₁ v _ unbound ih =>
      obtain ⟨target, sub⟩ := Finset.forall_mem_insert _ _ _ |>.1 sub
      obtain ⟨τ₁, value, same₁⟩ := ih sub same
      obtain ⟨_, _, found, -⟩ | ⟨-, absent⟩ := same₁.assign? target v
      · cases unbound.symm.trans found
      · exact ⟨τ₁, .assignUnbound value absent, same₁⟩
  | assignFails _ ih =>
      obtain ⟨τ₁, value, same₁⟩ := ih (Finset.forall_mem_insert _ _ _ |>.1 sub).2 same
      exact ⟨τ₁, .assignFails value, same₁⟩

end Lox
