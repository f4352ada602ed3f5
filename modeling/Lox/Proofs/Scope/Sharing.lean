import Lox.Proofs.Scope.Operations

/-!
Scopes that are shared. Handles can be had for new scopes, for scopes inside others, for copies of
scopes, and again for scopes that have one. From a handle the scopes outward are a chain without
repetition, whose frames are a plain stack, and a write to a scope is seen from exactly those
handles in whose chain no nearer scope binds the name.
-/

namespace Lox

namespace ScopeStore

/-- Each scope was made after the one it is in. -/
def Founded (s : ScopeStore) : Prop :=
  ∀ id scope, s.get? id = some scope → ∀ parent ∈ scope.parent, parent.place < id.place

/-- The scopes that are met from one outward, up to one without a parent. -/
inductive Chain (s : ScopeStore) : ScopeId → List ScopeId → Prop
  | root {id : ScopeId} {scope : Scope} (found : s.get? id = some scope)
      (outermost : scope.parent = none) : Chain s id [id]
  | inside {id parent : ScopeId} {scope : Scope} {chain : List ScopeId}
      (found : s.get? id = some scope) (enclosed : scope.parent = some parent)
      (outward : Chain s parent chain) : Chain s id (id :: chain)

def binder? (s : ScopeStore) (name : String) (chain : List ScopeId) : Option ScopeId :=
  chain.find? fun id => name ∈ s.frame id

/-- A scope stands among others, and none before it binds a name. -/
def Exposed (s : ScopeStore) (name : String) (id : ScopeId) (chain : List ScopeId) : Prop :=
  ∃ nearer outer, chain = nearer ++ id :: outer ∧ ∀ other ∈ nearer, name ∉ s.frame other

section

variable {s : ScopeStore} {id : ScopeId} {chain : List ScopeId}

theorem lt_size_of_get? {scope : Scope} (h : s.get? id = some scope) :
    id.place < s.scopes.size :=
  (Array.getElem?_eq_some_iff.1 h).1

theorem exists_get? (h : id.place < s.scopes.size) : ∃ scope, s.get? id = some scope :=
  ⟨_, Array.getElem?_eq_getElem h⟩

theorem Chain.lt_size (h : s.Chain id chain) : ∀ o ∈ chain, o.place < s.scopes.size := by
  induction h with
  | root found _ => exact List.forall_mem_singleton.2 (lt_size_of_get? found)
  | inside found _ _ ih => exact List.forall_mem_cons.2 ⟨lt_size_of_get? found, ih⟩

theorem Chain.unique (h : s.Chain id chain) {other : List ScopeId} (h' : s.Chain id other) :
    other = chain := by
  induction h generalizing other with
  | root found outermost =>
      cases h' with
      | root => rfl
      | inside found' enclosed _ =>
          cases found.symm.trans found'
          cases outermost.symm.trans enclosed
  | inside found enclosed _ ih =>
      cases h' with
      | root found' outermost =>
          cases found.symm.trans found'
          cases outermost.symm.trans enclosed
      | inside found' enclosed' outward' =>
          cases found.symm.trans found'
          cases enclosed.symm.trans enclosed'
          rw [ih outward']

theorem Founded.exists_chain (founded : s.Founded) (h : id.place < s.scopes.size) :
    ∃ chain, s.Chain id chain := by
  induction hn : id.place using Nat.strongRecOn generalizing id with
  | _ n ih =>
      obtain ⟨scope, found⟩ := exists_get? h
      cases hp : scope.parent with
      | none => exact ⟨_, .root found hp⟩
      | some parent =>
          have lower := founded id scope found parent hp
          obtain ⟨chain, outward⟩ := ih parent.place (hn ▸ lower) (lower.trans h) rfl
          exact ⟨_, .inside found hp outward⟩

/-- Further outward are only scopes made before. -/
theorem Chain.place_le (h : s.Chain id chain) (founded : s.Founded) :
    ∀ o ∈ chain, o.place ≤ id.place := by
  induction h with
  | root _ _ => simp
  | inside found enclosed _ ih =>
      refine List.forall_mem_cons.2 ⟨Nat.le_refl _, fun o ho => (ih o ho).trans ?_⟩
      exact Nat.le_of_lt (founded _ _ found _ enclosed)

/-- No scope is met twice. -/
theorem Chain.nodup (h : s.Chain id chain) (founded : s.Founded) : chain.Nodup := by
  induction h with
  | root _ _ => exact List.nodup_singleton _
  | inside found enclosed outward ih =>
      refine List.nodup_cons.2 ⟨fun again => ?_, ih⟩
      have lower := founded _ _ found _ enclosed
      exact absurd (outward.place_le founded _ again) (Nat.not_le.2 lower)

/-- A search of as many scopes as have a place up to that of the first one meets all of the
chain. -/
theorem Chain.nearestWithin_eq (h : s.Chain id chain) (founded : s.Founded) (name : String)
    {n : Nat} (hn : id.place < n) : s.nearestWithin name n id = s.binder? name chain := by
  induction h generalizing n with
  | root found outermost =>
      obtain ⟨n, rfl⟩ := Nat.exists_eq_add_of_lt hn
      simp [nearestWithin, binder?, frame, found, outermost, Bindings.mem_frame]
  | inside found enclosed outward ih =>
      have lower := founded _ _ found _ enclosed
      obtain ⟨n, rfl⟩ : ∃ k, n = k + 1 := ⟨n - 1, by omega⟩
      have more := ih (n := n) (by omega)
      simp only [nearestWithin, found, enclosed, more, binder?, List.find?_cons, frame,
        Option.getD_some, Bindings.mem_frame, Bool.decide_eq_true]
      split <;> simp_all

theorem Chain.nearest_eq (h : s.Chain id chain) (founded : s.Founded) (name : String) :
    s.nearest id name = s.binder? name chain :=
  h.nearestWithin_eq founded name (Nat.lt_succ_self _)

theorem binder?_lookup (inside : ∀ o ∈ chain, o.place < s.scopes.size) (name : String) :
    ((s.binder? name chain).bind fun owner => (s.get? owner).bind fun scope =>
      scope.bindings.get? name) = Stack.lookup name (chain.map s.frame) := by
  induction chain with
  | nil => rfl
  | cons o outer ih =>
      rw [List.forall_mem_cons] at inside
      rw [binder?, List.find?_cons, List.map_cons, Stack.lookup]
      by_cases bound : name ∈ s.frame o
      · obtain ⟨v, hv⟩ := Finmap.mem_iff.1 bound
        simp only [bound, decide_true, Option.bind_some, value_eq inside.1, hv]
      · simp only [bound, decide_false, Finmap.lookup_eq_none.2 bound]
        exact ih inside.2

/-- From a scope outward, names mean what they mean in the stack of the frames there. -/
theorem Chain.lookup_eq (h : s.Chain id chain) (founded : s.Founded) (name : String) :
    s.lookup id name = Stack.lookup name (chain.map s.frame) := by
  rw [← binder?_lookup h.lt_size, ← h.nearest_eq founded]
  rfl

theorem mem_frame_of_binder? {name : String} {owner : ScopeId}
    (h : s.binder? name chain = some owner) : owner ∈ chain ∧ name ∈ s.frame owner :=
  ⟨List.mem_of_find?_eq_some h, by simpa using List.find?_some h⟩

/-- A scope that binds a name is exposed exactly where it is the first to bind it. -/
theorem exposed_iff {name : String} (bound : name ∈ s.frame id) :
    s.Exposed name id chain ↔ s.binder? name chain = some id := by
  simp only [binder?, List.find?_eq_some_iff_append, bound, decide_true, true_and,
    Bool.not_eq_true', decide_eq_false_iff_not]
  rfl

section define

variable {name : String} (value : Value)

theorem Founded.define (founded : s.Founded) : (s.define id name value).Founded := by
  intro o scope found parent hp
  rw [get?_define] at found
  split at found
  · obtain ⟨old, there, rfl⟩ := Option.map_eq_some_iff.1 found
    exact founded o old there parent hp
  · exact founded o scope found parent hp

/-- A write moves no scope. -/
theorem Chain.define {g : ScopeId} (h : s.Chain g chain) :
    (s.define id name value).Chain g chain := by
  have kept {o : ScopeId} {scope : Scope} (found : s.get? o = some scope) :
      ∃ scope', (s.define id name value).get? o = some scope' ∧ scope'.parent = scope.parent := by
    rw [get?_define, found]
    split
    · exact ⟨_, rfl, rfl⟩
    · exact ⟨_, rfl, rfl⟩
  induction h with
  | root found outermost =>
      obtain ⟨scope', found', same⟩ := kept found
      exact .root found' (same.trans outermost)
  | inside found enclosed _ ih =>
      obtain ⟨scope', found', same⟩ := kept found
      exact .inside found' (same.trans enclosed) ih

theorem lookup_frames_define_self (hid : id.place < s.scopes.size)
    (exposed : s.Exposed name id chain) :
    Stack.lookup name (chain.map (s.define id name value).frame) = some value := by
  obtain ⟨nearer, outer, rfl, unbound⟩ := exposed
  induction nearer with
  | nil => simp [Stack.lookup, frame_define_self s id name value hid]
  | cons o nearer ih =>
      rw [List.forall_mem_cons] at unbound
      rw [List.cons_append, List.map_cons, Stack.lookup]
      by_cases same : id = o
      · subst same
        rw [frame_define_self s id name value hid, Finmap.lookup_insert]
      · rw [frame_define_of_ne s id name value same, Finmap.lookup_eq_none.2 unbound.1]
        exact ih unbound.2

theorem lookup_frames_define_of_not (hid : id.place < s.scopes.size) {name' : String}
    (other : ¬(name' = name ∧ s.Exposed name id chain)) :
    Stack.lookup name' (chain.map (s.define id name value).frame) =
      Stack.lookup name' (chain.map s.frame) := by
  induction chain with
  | nil => rfl
  | cons o outer ih =>
      rw [List.map_cons, List.map_cons, Stack.lookup, Stack.lookup]
      have same : ((s.define id name value).frame o).lookup name' = (s.frame o).lookup name' := by
        by_cases here : id = o
        · subst here
          have ne : name' ≠ name := fun hn => other ⟨hn, [], outer, rfl, by simp⟩
          rw [frame_define_self s id name value hid, Finmap.lookup_insert_of_ne _ ne]
        · rw [frame_define_of_ne s id name value here]
      rw [same]
      cases bound : (s.frame o).lookup name' with
      | some v => rfl
      | none =>
          refine ih fun outside => other ?_
          obtain ⟨hn, nearer, rest, split, unbound⟩ := outside
          refine ⟨hn, o :: nearer, rest, ?_, ?_⟩
          · rw [split, List.cons_append]
          · exact List.forall_mem_cons.2 ⟨hn ▸ Finmap.lookup_eq_none.1 bound, unbound⟩

end define

section add

variable (scope : Scope)

theorem get?_add (o : ScopeId) :
    (s.add scope).2.get? o = if o.place = s.scopes.size then some scope else s.get? o := by
  simp [add, get?, Array.getElem?_push]

variable {scope}

theorem Founded.add (founded : s.Founded)
    (inside : ∀ parent ∈ scope.parent, parent.place < s.scopes.size) :
    (s.add scope).2.Founded := by
  intro o made found parent hp
  rw [get?_add] at found
  split at found
  · rename_i last
    cases found
    exact last ▸ inside parent hp
  · exact founded o made found parent hp

theorem Founded.addCopy (founded : s.Founded) (h : id.place < s.scopes.size) :
    (s.addCopy id).2.Founded := by
  obtain ⟨scope, found⟩ := exists_get? h
  refine founded.add fun parent hp => ?_
  rw [found, Option.getD_some] at hp
  exact (founded id scope found parent hp).trans h

end add

end

/-- After a write of a value under a name, a scope from which it is seen has that value there, and
everything else that can be looked up is what it was. -/
def Written (before after : ScopeStore) (name : String) (value : Value) (g : ScopeId)
    (seen : Prop) : Prop :=
  (seen → after.lookup g name = some value) ∧
    ∀ other, ¬(other = name ∧ seen) → after.lookup g other = before.lookup g other

theorem Founded.written_define {s : ScopeStore} (founded : s.Founded) {id g : ScopeId}
    (hid : id.place < s.scopes.size) {chain : List ScopeId} (h : s.Chain g chain) (name : String)
    (value : Value) :
    Written s (s.define id name value) name value g (s.Exposed name id chain) := by
  have moved : (s.define id name value).Chain g chain := h.define value
  have after := moved.lookup_eq (founded.define value)
  refine ⟨fun exposed => ?_, fun other unseen => ?_⟩
  · rw [after, lookup_frames_define_self value hid exposed]
  · rw [after, h.lookup_eq founded, lookup_frames_define_of_not value hid unseen]

end ScopeStore

/-- Scopes, and the handles that have been had for them, the earliest first. -/
structure Sharing where
  store : ScopeStore := .empty
  handles : List ScopeId := []

namespace Sharing

/-- What can be asked for. A handle is given by its place among those that have been had. -/
inductive Request
  | root
  | child (handle : Nat)
  | share (handle : Nat)
  | copy (handle : Nat)
  | define (handle : Nat) (name : String) (value : Value)
  | assign (handle : Nat) (name : String) (value : Value)
  | lookup (handle : Nat) (name : String)

def grant (s : Sharing) : ScopeId × ScopeStore → Sharing
  | (id, store) => ⟨store, s.handles ++ [id]⟩

def step (s : Sharing) : Request → Option (Scope.Answer × Sharing)
  | .root => some (.done, s.grant s.store.addRoot)
  | .child h => s.handles[h]?.map fun id => (.done, s.grant (s.store.addChild id))
  | .share h => s.handles[h]?.map fun id => (.done, s.grant (id, s.store))
  | .copy h => s.handles[h]?.map fun id => (.done, s.grant (s.store.addCopy id))
  | .define h name value =>
      s.handles[h]?.map fun id => (.done, { s with store := s.store.define id name value })
  | .assign h name value =>
      s.handles[h]?.map fun id =>
        match s.store.assign? id name value with
        | some store => (.done, { s with store := store })
        | none => (.undefined, s)
  | .lookup h name => s.handles[h]?.map fun id => (.found (s.store.lookup id name), s)

def steps : List Request → Sharing → Option Sharing
  | [], s => some s
  | request :: rest, s => (s.step request).bind fun next => steps rest next.2

structure Sound (s : Sharing) : Prop where
  founded : s.store.Founded
  held : ∀ g ∈ s.handles, g.place < s.store.scopes.size

variable {s : Sharing}

theorem Sound.holds (sound : s.Sound) {h : Nat} {id : ScopeId} (hid : s.handles[h]? = some id) :
    id.place < s.store.scopes.size :=
  sound.held id (List.mem_of_getElem? hid)

theorem Sound.grant_add (sound : s.Sound) {scope : Scope}
    (founded : (s.store.add scope).2.Founded) : (s.grant (s.store.add scope)).Sound := by
  have grown : (s.store.add scope).2.scopes.size = s.store.scopes.size + 1 := Array.size_push _
  refine ⟨founded, List.forall_mem_append.2 ⟨fun g hg => ?_, List.forall_mem_singleton.2 ?_⟩⟩
  · exact (sound.held g hg).trans (grown ▸ Nat.lt_succ_self _)
  · exact grown ▸ Nat.lt_succ_self _

theorem Sound.define (sound : s.Sound) (id : ScopeId) (name : String) (value : Value) :
    Sound { s with store := s.store.define id name value } :=
  ⟨sound.founded.define value, fun g hg =>
    (s.store.size_define id name value).symm ▸ sound.held g hg⟩

theorem Sound.step (sound : s.Sound) {request : Request} {answer : Scope.Answer} {s' : Sharing}
    (h : s.step request = some (answer, s')) : s'.Sound := by
  cases request with
  | root =>
      cases h
      exact sound.grant_add (sound.founded.add nofun)
  | child handle =>
      obtain ⟨id, hid, made⟩ := Option.map_eq_some_iff.1 h
      cases made
      refine sound.grant_add (sound.founded.add fun parent hp => ?_)
      cases hp
      exact sound.holds hid
  | share handle =>
      obtain ⟨id, hid, made⟩ := Option.map_eq_some_iff.1 h
      cases made
      exact ⟨sound.founded, List.forall_mem_append.2
        ⟨sound.held, List.forall_mem_singleton.2 (sound.holds hid)⟩⟩
  | copy handle =>
      obtain ⟨id, hid, made⟩ := Option.map_eq_some_iff.1 h
      cases made
      exact sound.grant_add (sound.founded.addCopy (sound.holds hid))
  | define handle name value =>
      obtain ⟨id, -, made⟩ := Option.map_eq_some_iff.1 h
      cases made
      exact sound.define id name value
  | assign handle name value =>
      obtain ⟨id, -, made⟩ := Option.map_eq_some_iff.1 h
      cases assigned : s.store.assign? id name value with
      | none =>
          rw [assigned] at made
          cases made
          exact sound
      | some store =>
          rw [assigned] at made
          cases made
          obtain ⟨owner, -, rfl⟩ := Option.map_eq_some_iff.1 assigned
          exact sound.define owner name value
  | lookup handle name =>
      obtain ⟨id, -, made⟩ := Option.map_eq_some_iff.1 h
      cases made
      exact sound

theorem sound_empty : Sound {} := by
  refine ⟨fun id scope found => ?_, nofun⟩
  simp [ScopeStore.get?, ScopeStore.empty] at found

theorem Sound.steps (sound : s.Sound) {requests : List Request} {s' : Sharing}
    (h : steps requests s = some s') : s'.Sound := by
  induction requests generalizing s with
  | nil =>
      cases h
      exact sound
  | cons request rest ih =>
      obtain ⟨⟨answer, next⟩, here, more⟩ := Option.bind_eq_some_iff.1 h
      exact ih (sound.step here) more

structure Aliasing (s : Sharing) : Prop where
  /-- From each handle there is one chain outward. It meets no scope twice and decides what names
  mean. -/
  chains : ∀ g ∈ s.handles, ∃ chain, s.store.Chain g chain ∧
    (∀ other, s.store.Chain g other → other = chain) ∧ chain.Nodup ∧
    ∀ name, s.store.lookup g name = Stack.lookup name (chain.map s.store.frame)
  /-- A definition is seen where the scope stands in the chain and none nearer binds the name. -/
  defined : ∀ h id name value, s.handles[h]? = some id → ∃ s',
    s.step (.define h name value) = some (.done, s') ∧ ∀ g ∈ s.handles, ∀ chain,
      s.store.Chain g chain →
        ScopeStore.Written s.store s'.store name value g (s.store.Exposed name id chain)
  /-- An assignment is seen where the nearest scope that binds the name is the one to which it is
  made. -/
  assigned : ∀ h id inner owner name value, s.handles[h]? = some id → s.store.Chain id inner →
    s.store.binder? name inner = some owner → ∃ s',
      s.step (.assign h name value) = some (.done, s') ∧ ∀ g ∈ s.handles, ∀ chain,
        s.store.Chain g chain →
          ScopeStore.Written s.store s'.store name value g (s.store.binder? name chain = some owner)
  /-- An assignment to a name that no scope of the chain binds changes nothing. -/
  refused : ∀ h id inner name value, s.handles[h]? = some id → s.store.Chain id inner →
    s.store.binder? name inner = none → s.step (.assign h name value) = some (.undefined, s)

/-- However scopes have come to be shared, chains outward are free of repetition, and a write is
seen from exactly those handles from which the written binding is the nearest one. -/
theorem aliasing_of_steps {requests : List Request} (h : steps requests {} = some s) :
    s.Aliasing := by
  have sound := sound_empty.steps h
  have nearest {id : ScopeId} {inner : List ScopeId} (chain : s.store.Chain id inner)
      (name : String) (value : Value) :
      s.store.assign? id name value =
        (s.store.binder? name inner).map fun owner => s.store.define owner name value := by
    rw [ScopeStore.assign?, chain.nearest_eq sound.founded]
  constructor
  case chains =>
    intro g hg
    obtain ⟨chain, h⟩ := sound.founded.exists_chain (sound.held g hg)
    exact ⟨chain, h, fun _ => h.unique, h.nodup sound.founded, h.lookup_eq sound.founded⟩
  case defined =>
    intro h id name value hid
    refine ⟨_, congrArg (Option.map _) hid, fun g _ chain hc => ?_⟩
    exact sound.founded.written_define (sound.holds hid) hc name value
  case assigned =>
    intro h id inner owner name value hid hi bound
    obtain ⟨there, binds⟩ := ScopeStore.mem_frame_of_binder? bound
    refine ⟨{ s with store := s.store.define owner name value }, ?_, fun g _ chain hc => ?_⟩
    · rw [Sharing.step, hid, Option.map_some, nearest hi, bound, Option.map_some]
    · rw [← ScopeStore.exposed_iff binds]
      exact sound.founded.written_define (hi.lt_size owner there) hc name value
  case refused =>
    intro h id inner name value hid hi unbound
    rw [Sharing.step, hid, Option.map_some, nearest hi, unbound, Option.map_none]

theorem aliasing_of_copy :
    let requests : List Request :=
      [.root, .define 0 "a" .nil, .define 0 "b" .nil, .child 0, .define 1 "a" .nil, .share 1,
        .copy 1]
    let s := Sharing.mk ⟨#[⟨[("a", .nil), ("b", .nil)], none⟩, ⟨[("a", .nil)], some ⟨0⟩⟩,
      ⟨[("a", .nil)], some ⟨0⟩⟩]⟩ [⟨0⟩, ⟨1⟩, ⟨1⟩, ⟨2⟩]
    steps requests {} = some s ∧ s.Aliasing ∧
      (∃ s', s.step (.assign 2 "a" (.bool true)) = some (.done, s') ∧
        s'.store.lookup ⟨1⟩ "a" = some (.bool true) ∧ s'.store.lookup ⟨2⟩ "a" = some .nil) ∧
      ∃ s', s.step (.assign 2 "b" (.bool true)) = some (.done, s') ∧
        s'.store.lookup ⟨2⟩ "b" = some (.bool true) := by
  intro requests s
  have asked : steps requests {} = some s := rfl
  have aliasing := aliasing_of_steps asked
  have chain : s.store.Chain ⟨1⟩ [⟨1⟩, ⟨0⟩] := .inside rfl rfl (.root rfl rfl)
  have copied : s.store.Chain ⟨2⟩ [⟨2⟩, ⟨0⟩] := .inside rfl rfl (.root rfl rfl)
  obtain ⟨s₁, assigned₁, seen₁⟩ :=
    aliasing.assigned 2 ⟨1⟩ _ ⟨1⟩ "a" (.bool true) rfl chain (by decide +kernel)
  obtain ⟨s₂, assigned₂, seen₂⟩ :=
    aliasing.assigned 2 ⟨1⟩ _ ⟨0⟩ "b" (.bool true) rfl chain (by decide +kernel)
  refine ⟨asked, aliasing, ⟨s₁, assigned₁, ?_, ?_⟩, s₂, assigned₂, ?_⟩
  · exact (seen₁ ⟨1⟩ (by simp [s]) _ chain).1 (by decide +kernel)
  · exact (seen₁ ⟨2⟩ (by simp [s]) _ copied).2 "a" (by decide +kernel)
  · exact (seen₂ ⟨2⟩ (by simp [s]) _ copied).1 (by decide +kernel)

end Sharing
end Lox
