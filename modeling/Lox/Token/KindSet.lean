import Lox.Token.Kind

/-!
Sets of token kinds as one 64-bit word, the bit of a kind being its index. The kinds that were put
into a set are its members.
-/

namespace Lox

structure KindSet where
  bits : UInt64
  deriving DecidableEq, Repr, Inhabited

namespace KindSet

def empty : KindSet := ⟨0⟩

def bit (k : Kind) : UInt64 := (1 : UInt64) <<< UInt64.ofNat k.index

def insert (s : KindSet) (k : Kind) : KindSet := ⟨s.bits ||| bit k⟩

def contains (s : KindSet) (k : Kind) : Bool := s.bits &&& bit k != 0

def isEmpty (s : KindSet) : Bool := s.bits == 0

def ofList (ks : List Kind) : KindSet := ks.foldl insert empty

/-- The set as it is listed, by its word in decimal. -/
def describe (s : KindSet) : String := "TokenSet(" ++ toString s.bits.toNat ++ ")"

/-- There are fewer than 64 kinds, so that the bit of each is in the word. -/
theorem toBitVec_bit (k : Kind) : (bit k).toBitVec = BitVec.twoPow 64 k.index := by
  cases k <;> rfl

theorem getLsbD_bit (j k : Kind) : (bit j).toBitVec.getLsbD k.index = decide (j = k) := by
  have small : j.index < 64 := Nat.lt_trans j.index_lt (by decide)
  rw [toBitVec_bit, BitVec.getLsbD_twoPow]
  simp [small, Kind.index_inj]

theorem contains_eq_getLsbD (s : KindSet) (k : Kind) :
    s.contains k = s.bits.toBitVec.getLsbD k.index := by
  have common : (s.bits &&& bit k).toBitVec =
      if s.bits.toBitVec.getLsbD k.index then (bit k).toBitVec else 0 := by
    rw [UInt64.toBitVec_and, toBitVec_bit, BitVec.and_twoPow]
    rfl
  rw [contains]
  cases member : s.bits.toBitVec.getLsbD k.index with
  | false =>
      have nothing : s.bits &&& bit k = 0 := UInt64.toBitVec_inj.1 (by simpa [member] using common)
      simp [nothing]
  | true =>
      have whole : s.bits &&& bit k = bit k :=
        UInt64.toBitVec_inj.1 (by simpa [member] using common)
      have some : bit k ≠ 0 := fun h => by simpa [h] using getLsbD_bit k k
      simpa [whole] using some

@[simp]
theorem contains_empty (k : Kind) : empty.contains k = false := by
  simp [contains_eq_getLsbD, empty]

@[simp]
theorem contains_insert (s : KindSet) (j k : Kind) :
    (s.insert j).contains k = (s.contains k || decide (j = k)) := by
  rw [contains_eq_getLsbD, insert, UInt64.toBitVec_or, BitVec.getLsbD_or, getLsbD_bit,
    contains_eq_getLsbD]

theorem contains_foldl_insert (ks : List Kind) (s : KindSet) (k : Kind) :
    (ks.foldl insert s).contains k = (s.contains k || decide (k ∈ ks)) := by
  induction ks generalizing s with
  | nil => simp
  | cons j ks ih =>
      rw [List.foldl_cons, ih, contains_insert, Bool.or_assoc]
      simp [eq_comm]

/-- The members of the set of some kinds are those kinds. -/
theorem contains_ofList {ks : List Kind} {k : Kind} : (ofList ks).contains k = true ↔ k ∈ ks := by
  simp [ofList, contains_foldl_insert]

end KindSet
end Lox
