import Lox.Proofs.Names

/-!
A table of names that several callers share, with an index beside it for the look-ups by text. A
caller looks a text up, and if it is not there comes back to look again and register it; between the
two the table may have grown, also by that text. All the same a text keeps the number that it was
given first, no other text gets that number, and the number gives the text back.
-/

namespace Lox

namespace NameTable

variable {t : NameTable} {x : String} {n : Name}

theorem find?_isSome_iff : (t.find? x).isSome ↔ x ∈ t.names.toList := by
  rw [find?_eq, Option.isSome_map, Array.findIdx?_isSome, Array.any_eq_true']
  simp

theorem find?_eq_none_iff : t.find? x = none ↔ x ∉ t.names.toList := by
  rw [← find?_isSome_iff, Option.not_isSome_iff_eq_none]

theorem index_lt_of_find? (h : t.find? x = some n) : n.index < t.size := by
  rw [find?_eq, Option.map_eq_some_iff] at h
  obtain ⟨i, found, rfl⟩ := h
  exact (Array.findIdx?_eq_some_iff_getElem.1 found).1

theorem text_of_size_le (h : t.size ≤ n.index) : t.text n = "" := by
  rw [text, Array.getD_eq_getD_getElem?, Array.getElem?_eq_none h, Option.getD_none]

theorem getElem?_eq_text (h : n.index < t.size) :
    t.names.toList[n.index]? = some (t.text n) := by
  rw [Array.getElem?_toList, text, Array.getD_eq_getD_getElem?, Array.getElem?_eq_getElem h,
    Option.getD_some]

/-- In a table without repetitions, looking up by text and by number undo each other. -/
theorem find?_eq_some_iff (distinct : t.names.toList.Nodup) :
    t.find? x = some n ↔ n.index < t.size ∧ t.text n = x := by
  refine ⟨fun h => ⟨index_lt_of_find? h, text_of_find? h⟩, ?_⟩
  rintro ⟨inside, rfl⟩
  have here := getElem?_eq_text inside
  obtain ⟨m, hm⟩ := Option.isSome_iff_exists.1 (find?_isSome_iff.2 (List.mem_of_getElem? here))
  have again := getElem?_eq_text (index_lt_of_find? hm)
  rw [text_of_find? hm, ← here] at again
  have same : m.index = n.index := (List.getElem?_inj (index_lt_of_find? hm) distinct).1 again
  rw [hm]
  exact congrArg some (congrArg Name.mk same)

theorem find?_push (absent : t.find? x = none) (y : String) :
    find? ⟨t.names.push x⟩ y = if x = y then some ⟨t.size⟩ else t.find? y := by
  have added := find?_insert t y x
  rw [insert, absent] at added
  rw [added]
  split
  · rename_i same
    rw [← same, absent, Option.none_or]
  · rw [Option.or_none]

end NameTable

/-- A table of names, and beside it the number of each name by its text. -/
structure Interner where
  table : NameTable := .empty
  numbers : Std.HashMap String Nat := Std.HashMap.ofList [("", 0)]

namespace Interner

def probe (i : Interner) (text : String) : Option Name := i.numbers[text]?.map Name.mk

def push (i : Interner) (text : String) : Interner :=
  { table := ⟨i.table.names.push text⟩, numbers := i.numbers.insert text i.table.size }

/-- Looks a text up and gives it the next number if it has none, unless there is none left. -/
def register (i : Interner) (text : String) : Except String (Name × Interner) :=
  match i.probe text with
  | some n => .ok (n, i)
  | none =>
      if i.table.size ≤ NameTable.largest then .ok (⟨i.table.size⟩, i.push text)
      else .error (NameTable.overflow i.table.size)

def Indexed (i : Interner) : Prop := ∀ x, i.probe x = i.table.find? x

theorem indexed_start : Indexed {} := by
  intro x
  rw [probe, NameTable.find?_eq]
  by_cases h : "" = x
  · subst h
    simp [NameTable.empty]
  · simp [NameTable.empty, h]

theorem Indexed.push {i : Interner} (h : i.Indexed) {x : String} (absent : i.probe x = none) :
    (i.push x).Indexed := by
  intro y
  rw [Interner.push, probe, NameTable.find?_push ((h x).symm.trans absent), ← h y, probe,
    Std.HashMap.getElem?_insert]
  by_cases same : x = y <;> simp [same]

/-- With its index a table registers what it would register without. -/
theorem Indexed.register {i : Interner} (h : i.Indexed) (x : String) :
    (i.register x).map (fun p => (p.1, p.2.table)) = i.table.insert? x := by
  rw [Interner.register, NameTable.insert?, NameTable.insert, ← h x]
  cases i.probe x with
  | some n => rfl
  | none =>
      dsimp only
      split <;> rfl

end Interner

structure Registry where
  interner : Interner := {}
  /-- The texts that callers have looked up in vain and are about to register. -/
  pending : List String := []
  /-- What callers were given, the latest first. -/
  given : List (String × Name) := []
  /-- The texts for which there was no number left. -/
  refused : List String := []

namespace Registry

def look (r : Registry) (text : String) : Registry :=
  match r.interner.probe text with
  | some n => { r with given := (text, n) :: r.given }
  | none => { r with pending := text :: r.pending }

/-- Goes on with a text that was looked up in vain. -/
def settle (r : Registry) (text : String) : Registry :=
  match r.interner.register text with
  | .ok (n, interner) =>
      { r with interner, pending := r.pending.erase text, given := (text, n) :: r.given }
  | .error _ => { r with pending := r.pending.erase text, refused := text :: r.refused }

/-- What a caller can do next. Any caller may be the next one. -/
inductive Step : Registry → Registry → Prop
  | look (r : Registry) (text : String) : Step r (r.look text)
  | settle {r : Registry} {text : String} (h : text ∈ r.pending) : Step r (r.settle text)

abbrev Steps : Registry → Registry → Prop := Relation.ReflTransGen Step

/-- The distinct texts among those that got a number, and the empty one, which had its number from
the start. -/
def known (given : List (String × Name)) : Finset String := insert "" (given.map Prod.fst).toFinset

theorem known_cons (x : String) (n : Name) (given : List (String × Name)) :
    known ((x, n) :: given) = insert x (known given) := by
  rw [known, known, List.map_cons, List.toFinset_cons, Finset.insert_comm]

/-- The number of a text that is given for the first time is the count of the distinct texts before
it. -/
def Ordered (given : List (String × Name)) : Prop :=
  ∀ later x n earlier, given = later ++ (x, n) :: earlier → x ∉ known earlier →
    n.index = (known earlier).card

theorem Ordered.cons {given : List (String × Name)} (h : Ordered given) {x : String} {n : Name}
    (first : x ∉ known given → n.index = (known given).card) : Ordered ((x, n) :: given) := by
  rintro (_ | ⟨p, later⟩) y m earlier split new
  · cases split
    exact first new
  · exact h later y m earlier (List.cons.inj split).2 new

/-- All that a step can do: answer a text that has a number, leave one pending, give one the next
number, or refuse one as there is none left. -/
theorem Step.cases {r r' : Registry} (h : Step r r') :
    (∃ x n, r.interner.probe x = some n ∧
      r'.interner = r.interner ∧ r'.given = (x, n) :: r.given ∧ r'.refused = r.refused) ∨
    (r'.interner = r.interner ∧ r'.given = r.given ∧ r'.refused = r.refused) ∨
    (∃ x, r.interner.probe x = none ∧ r.interner.table.size ≤ NameTable.largest ∧
      r'.interner = r.interner.push x ∧ r'.given = (x, ⟨r.interner.table.size⟩) :: r.given ∧
      r'.refused = r.refused) ∨
    (∃ x, r.interner.probe x = none ∧ NameTable.largest < r.interner.table.size ∧
      r'.interner = r.interner ∧ r'.given = r.given ∧ r'.refused = x :: r.refused) := by
  cases h with
  | look x =>
      rw [Registry.look]
      cases found : r.interner.probe x with
      | some n => exact .inl ⟨x, n, found, rfl, rfl, rfl⟩
      | none => exact .inr (.inl ⟨rfl, rfl, rfl⟩)
  | @settle x =>
      rw [Registry.settle, Interner.register]
      cases found : r.interner.probe x with
      | some n => exact .inl ⟨x, n, found, rfl, rfl, rfl⟩
      | none =>
          by_cases room : r.interner.table.size ≤ NameTable.largest
          · rw [if_pos room]
            exact .inr (.inr (.inl ⟨x, found, room, rfl, rfl, rfl⟩))
          · rw [if_neg room]
            exact .inr (.inr (.inr ⟨x, found, Nat.lt_of_not_le room, rfl, rfl, rfl⟩))

/-- The table has the texts that got a number, each once, in the order in which they got it, and
only a full table has refused one. -/
structure Sound (i : Interner) (given : List (String × Name)) (refused : List String) : Prop where
  indexed : i.Indexed
  distinct : i.table.names.toList.Nodup
  holds : i.table.names.toList.toFinset = known given
  emptyName : i.table.find? "" = some .empty
  answers : ∀ p ∈ given, i.table.find? p.1 = some p.2
  order : Ordered given
  fits : i.table.size ≤ NameTable.largest + 1
  full : ∀ x ∈ refused, i.table.find? x = none ∧ NameTable.largest < i.table.size

theorem sound_start : Sound {} [] [] where
  indexed := Interner.indexed_start
  distinct := List.nodup_singleton ""
  holds := rfl
  emptyName := by
    rw [NameTable.find?_eq]
    simp [NameTable.empty, Name.empty]
  answers _ h := by cases h
  order _ _ _ _ h := by simp at h
  fits := by decide
  full _ h := by cases h

namespace Sound

variable {i : Interner} {given : List (String × Name)} {refused : List String} {x : String}
  {n : Name}

theorem size (h : Sound i given refused) : i.table.size = (known given).card := by
  rw [← h.holds, List.toFinset_card_of_nodup h.distinct]
  rfl

theorem mem_known_iff (h : Sound i given refused) :
    x ∈ known given ↔ (i.table.find? x).isSome := by
  rw [← h.holds, List.mem_toFinset, NameTable.find?_isSome_iff]

theorem answer (h : Sound i given refused) (found : i.probe x = some n) :
    Sound i ((x, n) :: given) refused := by
  rw [h.indexed] at found
  have old : x ∈ known given := by
    rw [h.mem_known_iff, found]
    rfl
  refine { h with holds := ?_, answers := ?_, order := h.order.cons fun new => absurd old new }
  · rw [known_cons, Finset.insert_eq_of_mem old, h.holds]
  · exact List.forall_mem_cons.2 ⟨found, h.answers⟩

theorem push (h : Sound i given refused) (absent : i.probe x = none)
    (room : i.table.size ≤ NameTable.largest) :
    Sound (i.push x) ((x, ⟨i.table.size⟩) :: given) refused := by
  have missing : i.table.find? x = none := (h.indexed x).symm.trans absent
  have added := NameTable.find?_push missing
  -- A text that has a number keeps it, as it is not the one that is new.
  have kept {y : String} {m : Name} (hy : i.table.find? y = some m) :
      (i.push x).table.find? y = some m := by
    rw [Interner.push, added, if_neg, hy]
    rintro rfl
    rw [missing] at hy
    cases hy
  refine
    { indexed := h.indexed.push absent
      distinct := ?_
      holds := ?_
      emptyName := kept h.emptyName
      answers := ?_
      order := h.order.cons fun _ => h.size
      fits := ?_
      full := fun y hy => absurd room (Nat.not_le.2 (h.full y hy).2) }
  · rw [Interner.push, Array.toList_push]
    exact h.distinct.append (List.nodup_singleton x)
      (List.disjoint_singleton.2 (NameTable.find?_eq_none_iff.1 missing))
  · rw [Interner.push, Array.toList_push, List.toFinset_append, h.holds, known_cons,
      Finset.union_comm]
    rfl
  · refine List.forall_mem_cons.2 ⟨?_, fun p hp => kept (h.answers p hp)⟩
    rw [Interner.push, added, if_pos rfl]
  · rw [Interner.push, NameTable.size, Array.size_push]
    exact Nat.succ_le_succ room

theorem refuse (h : Sound i given refused) (absent : i.probe x = none)
    (full : NameTable.largest < i.table.size) : Sound i given (x :: refused) :=
  { h with full := List.forall_mem_cons.2 ⟨⟨(h.indexed x).symm.trans absent, full⟩, h.full⟩ }

end Sound

/-- What a step keeps. -/
theorem Step.sound {r r' : Registry} (s : Step r r') (h : Sound r.interner r.given r.refused) :
    Sound r'.interner r'.given r'.refused := by
  obtain ⟨x, n, found, hi, hg, hr⟩ | ⟨hi, hg, hr⟩ | ⟨x, absent, room, hi, hg, hr⟩ |
    ⟨x, absent, full, hi, hg, hr⟩ := s.cases <;> rw [hi, hg, hr]
  · exact h.answer found
  · exact h
  · exact h.push absent room
  · exact h.refuse absent full

theorem Steps.sound {r r' : Registry} (s : Steps r r') (h : Sound r.interner r.given r.refused) :
    Sound r'.interner r'.given r'.refused := by
  induction s with
  | refl => exact h
  | tail _ step ih => exact step.sound ih

/-- What callers were given is not taken back. -/
theorem Step.given_subset {r r' : Registry} (s : Step r r') : r.given ⊆ r'.given := by
  obtain ⟨x, n, -, -, hg, -⟩ | ⟨-, hg, -⟩ | ⟨x, -, -, -, hg, -⟩ | ⟨x, -, -, -, hg, -⟩ := s.cases <;>
    rw [hg]
  · exact List.subset_cons_self _ _
  · exact List.Subset.refl _
  · exact List.subset_cons_self _ _
  · exact List.Subset.refl _

theorem Steps.given_subset {r r' : Registry} (s : Steps r r') : r.given ⊆ r'.given := by
  induction s with
  | refl => exact List.Subset.refl _
  | tail _ step ih => exact List.Subset.trans ih step.given_subset

/-- However the callers take turns, numbers and texts are in bijection. Different texts have
different numbers; a number keeps giving its text back; a text gets the count of the distinct texts
that came before it, the empty one among them; a text is refused only when no number is left; and
the index never answers anything else than the table itself would. -/
theorem steps_bijective {r : Registry} (h : Steps {} r) :
    (∀ p ∈ r.given, ∀ q ∈ r.given, p.2 = q.2 ↔ p.1 = q.1) ∧
    (∀ p ∈ r.given, ∀ r', Steps r r' → r'.interner.table.text p.2 = p.1) ∧
    (∀ later x n earlier, r.given = later ++ (x, n) :: earlier → x ∉ known earlier →
      n.index = (known earlier).card) ∧
    (∀ n, ("", n) ∈ r.given → n = .empty) ∧
    r.interner.table.size = (known r.given).card ∧
    (∀ n, r.interner.table.size ≤ n.index → r.interner.table.text n = "") ∧
    (∀ x n, r.interner.probe x = some n ↔
      n.index < r.interner.table.size ∧ r.interner.table.text n = x) ∧
    (∀ x ∈ r.pending, r.interner.table.size ≤ NameTable.largest →
      ∃ n, (x, n) ∈ (r.settle x).given) ∧
    (∀ x ∈ r.refused, x ∉ known r.given ∧ r.interner.table.size = NameTable.largest + 1) ∧
    ∀ x, r.interner.probe x = r.interner.table.find? x ∧
      (r.interner.register x).map (fun p => (p.1, p.2.table)) = r.interner.table.insert? x := by
  have sound := h.sound sound_start
  have back {r' : Registry} (later : Steps r r') (p : String × Name) (hp : p ∈ r.given) :
      r'.interner.table.text p.2 = p.1 :=
    NameTable.text_of_find? ((later.sound sound).answers p (later.given_subset hp))
  refine ⟨fun p hp q hq => ⟨fun same => ?_, fun same => ?_⟩, fun p hp r' later => back later p hp,
    sound.order, fun n hn => ?_, sound.size, fun n => NameTable.text_of_size_le, fun x n => ?_,
    fun x hx room => ?_, fun x hx => ?_, fun x => ⟨sound.indexed x, sound.indexed.register x⟩⟩
  · rw [← back .refl p hp, same, back .refl q hq]
  · have twice := sound.answers p hp
    rw [same, sound.answers q hq] at twice
    exact (Option.some.inj twice).symm
  · exact Option.some.inj ((sound.answers _ hn).symm.trans sound.emptyName)
  · rw [sound.indexed, NameTable.find?_eq_some_iff sound.distinct]
  · rw [settle, Interner.register]
    cases r.interner.probe x with
    | some n => exact ⟨n, List.mem_cons_self⟩
    | none =>
        rw [if_pos room]
        exact ⟨_, List.mem_cons_self⟩
  · obtain ⟨missing, full⟩ := sound.full x hx
    refine ⟨?_, Nat.le_antisymm sound.fits full⟩
    rw [sound.mem_known_iff, missing]
    exact Bool.false_ne_true

/-- Two callers register the same text, both after looking it up in vain, and another one comes in
between. -/
theorem steps_bijective_race :
    ∃ r, Steps {} r ∧ r.given = [("a", ⟨2⟩), ("a", ⟨2⟩), ("b", ⟨1⟩)] ∧
      r.interner.table.size = (known r.given).card ∧
      ∀ p ∈ r.given, ∀ r', Steps r r' → r'.interner.table.text p.2 = p.1 := by
  let looked : Registry := ((({} : Registry).look "a").look "b").look "a"
  have looks : Steps {} looked :=
    .tail (.tail (.tail .refl (.look _ "a")) (.look _ "b")) (.look _ "a")
  have hlooked : looked = { pending := ["a", "b", "a"] } := by
    simp [looked, look, Interner.probe]
  have hb : looked.settle "b" =
      { interner := ({} : Interner).push "b", pending := ["a", "a"], given := [("b", ⟨1⟩)] } := by
    rw [hlooked]
    simp [settle, Interner.register, Interner.probe, NameTable.size, NameTable.empty,
      NameTable.largest]
  have ha : (looked.settle "b").settle "a" =
      { interner := (({} : Interner).push "b").push "a", pending := ["a"],
        given := [("a", ⟨2⟩), ("b", ⟨1⟩)] } := by
    rw [hb]
    simp [settle, Interner.register, Interner.probe, Interner.push, NameTable.size, NameTable.empty,
      NameTable.largest]
  have given : (((looked.settle "b").settle "a").settle "a").given =
      [("a", ⟨2⟩), ("a", ⟨2⟩), ("b", ⟨1⟩)] := by
    rw [ha]
    simp [settle, Interner.register, Interner.probe, Interner.push, NameTable.size, NameTable.empty]
  have steps : Steps {} (((looked.settle "b").settle "a").settle "a") :=
    .tail (.tail (.tail looks (.settle (by simp [hlooked]))) (.settle (by simp [hb])))
      (.settle (by simp [ha]))
  obtain ⟨-, texts, -, -, size, -⟩ := steps_bijective steps
  exact ⟨_, steps, given, size, texts⟩

end Registry
end Lox
