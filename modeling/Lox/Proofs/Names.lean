import Mathlib
import Lox.Lexical.Reading
import Lox.Proofs.Relabel.Tree

/-!
Tables of names. A name keeps its number when more names are registered, and the number gives the
name back; so different names have different numbers, whatever has been registered besides them.
-/

namespace Lox

theorem Token.lexeme_mem_names (t : Token) : t.lexeme ∈ t.names := by
  rw [names]
  split <;> simp

theorem Token.names_ofLines (line : Nat → Nat) (t : Token) :
    (t.relabel (.ofLines line)).names = t.names := by
  rw [relabel_ofLines]
  rfl

namespace NameTable

section

variable (t : NameTable) (x y : String)

theorem find?_eq : t.find? x = (t.names.findIdx? (· == x)).map Name.mk := by
  obtain ⟨⟨names⟩⟩ := t
  rw [find?, List.idxOf?_toArray, List.findIdx?_toArray]
  rfl

/-- Registering a name adds at most that one, with the next number. -/
theorem find?_insert :
    (t.insert y).2.find? x = (t.find? x).or (if y = x then some ⟨t.size⟩ else none) := by
  rw [insert]
  cases h : t.find? y with
  | some n =>
      by_cases hx : y = x
      · subst hx
        rw [h, Option.some_or]
      · rw [if_neg hx, Option.or_none]
  | none =>
      rw [find?_eq, find?_eq, Array.findIdx?_push]
      cases t.names.findIdx? (· == x) with
      | some i => rfl
      | none => by_cases hx : y = x <;> simp [hx, size]

end

section

variable {t : NameTable} {x : String} {n : Name}

theorem text_of_find? (h : t.find? x = some n) : t.text n = x := by
  rw [find?_eq, Option.map_eq_some_iff] at h
  obtain ⟨i, found, rfl⟩ := h
  obtain ⟨hi, same, -⟩ := Array.findIdx?_eq_some_iff_getElem.1 found
  rw [text, Array.getD_eq_getD_getElem?, Array.getElem?_eq_getElem hi]
  exact eq_of_beq same

/-- The number of a text that a table knows, and that of the empty one for any other. -/
def numberOf (t : NameTable) (x : String) : Name := (t.find? x).getD .empty

theorem find?_numberOf (h : (t.find? x).isSome) : t.find? x = some (t.numberOf x) := by
  obtain ⟨n, hn⟩ := Option.isSome_iff_exists.1 h
  rw [numberOf, hn, Option.getD_some]

theorem text_numberOf (h : (t.find? x).isSome) : t.text (t.numberOf x) = x :=
  text_of_find? (find?_numberOf h)

theorem insert_of_find? (h : t.find? x = some n) : t.insert x = (n, t) := by
  rw [insert, h]

theorem find?_foldl (names : List String) (h : t.find? x = some n) :
    (names.foldl (fun t y => (t.insert y).2) t).find? x = some n := by
  induction names generalizing t with
  | nil => exact h
  | cons y rest ih => exact ih (by rw [find?_insert, h, Option.some_or])

theorem isSome_find?_foldl {names : List String} (h : x ∈ names) (t : NameTable) :
    ((names.foldl (fun t y => (t.insert y).2) t).find? x).isSome := by
  induction names generalizing t with
  | nil => cases h
  | cons y rest ih =>
      cases h with
      | head =>
          have registered : ((t.insert x).2.find? x).isSome := by
            rw [find?_insert, if_pos rfl]
            cases t.find? x <;> rfl
          obtain ⟨n, hn⟩ := Option.isSome_iff_exists.1 registered
          rw [List.foldl_cons, find?_foldl rest hn]
          rfl
      | tail _ h => exact ih h _

/-- Names keep their numbers when tokens are registered. -/
theorem find?_insertTokens (tokens : List Token) (h : t.find? x = some n) :
    (t.insertTokens tokens).find? x = some n :=
  find?_foldl _ h

/-- All texts of tokens are known once these are registered. -/
theorem isSome_find?_insertTokens (t : NameTable) {tokens : List Token} {token : Token}
    (h : token ∈ tokens) (hx : x ∈ token.names) : ((t.insertTokens tokens).find? x).isSome :=
  isSome_find?_foldl (List.mem_flatMap.2 ⟨token, h, hx⟩) t

theorem insertTokens_append (t : NameTable) (front back : List Token) :
    t.insertTokens (front ++ back) = (t.insertTokens front).insertTokens back := by
  rw [insertTokens, List.flatMap_append, List.foldl_append, insertTokens, insertTokens]

/-- An end mark registers nothing where the empty name is known. -/
theorem insertTokens_eofAt (h : t.find? "" = some n) (line : Nat) :
    t.insertTokens [Lexical.eofAt line] = t :=
  congrArg Prod.snd (insert_of_find? h)

/-- On which lines tokens stand does not matter for what they register. -/
theorem insertTokens_ofLines (t : NameTable) (tokens : List Token) (line : Nat → Nat) :
    t.insertTokens (tokens.map (Token.relabel (.ofLines line))) = t.insertTokens tokens := by
  simp only [insertTokens, List.flatMap_map, Token.names_ofLines]

theorem insertTokens_below (t : NameTable) (tokens : List Token) (lines : Nat) :
    t.insertTokens (tokens.map (Token.relabel (.below lines))) = t.insertTokens tokens :=
  t.insertTokens_ofLines tokens (· + lines)

end

def Within (t t' : NameTable) : Prop := ∀ x, (t.find? x).isSome → (t'.find? x).isSome

theorem Within.insertTokens {t t' : NameTable} (h : t.Within t') (tokens : List Token) :
    (t.insertTokens tokens).Within (t'.insertTokens tokens) := by
  have insert {t t' : NameTable} (h : t.Within t') (y : String) :
      (t.insert y).2.Within (t'.insert y).2 := by
    intro x hx
    rw [find?_insert, Option.isSome_or, Bool.or_eq_true] at hx ⊢
    refine hx.imp (h x) fun hy => ?_
    by_cases same : y = x
    · rw [if_pos same]
      rfl
    · rw [if_neg same] at hy
      cases hy
  rw [NameTable.insertTokens, NameTable.insertTokens]
  generalize tokens.flatMap Token.names = names
  induction names generalizing t t' with
  | nil => exact h
  | cons y rest ih => exact ih (insert h y)

theorem within_insertTokens (t : NameTable) (tokens : List Token) :
    t.Within (t.insertTokens tokens) := by
  intro x hx
  obtain ⟨n, hn⟩ := Option.isSome_iff_exists.1 hx
  rw [find?_insertTokens tokens hn]
  rfl

end NameTable
end Lox
