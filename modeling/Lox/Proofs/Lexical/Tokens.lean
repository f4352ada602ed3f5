import Lox.Lexical.Reading

/-!
The tokens of a program text. The list ends with its only end mark. Numbers and strings are the
tokens that carry a value, each of them one of its own sort.
-/

namespace Lox

/-- A token carries a value exactly if its kind asks for one, and then one of the right sort. -/
def Token.Valued (t : Token) : Prop :=
  match t.kind with
  | .number => ∃ x, t.literal = some (.number x)
  | .string => ∃ s, t.literal = some (.string s)
  | _ => t.literal = none

theorem Kind.ofWord_ne_eof (word : String) : ofWord word ≠ .eof := by
  unfold ofWord
  cases h : reserved.lookup word with
  | none => simp
  | some k =>
      obtain ⟨front, back, he, -⟩ := List.lookup_eq_some_iff.1 h
      have mem : (word, k) ∈ reserved := by simp [he]
      rintro rfl
      simp [reserved] at mem

namespace Lexical

theorem tokenOf_valued (kind : Kind) (text : List Char) (line : Nat) :
    (tokenOf kind text line).Valued := by
  cases kind
  case number | string => exact ⟨_, rfl⟩
  all_goals rfl

theorem mark?_ne_eof (c : Char) : mark? c ≠ some .eof := by
  unfold mark?
  split <;> simp

theorem markWithEqual?_ne_eof (c : Char) : markWithEqual? c ≠ some .eof := by
  unfold markWithEqual?
  split <;> simp

theorem first_ne_eof (c : Char) (rest text : List Char) : (first c rest).1 ≠ .token .eof text := by
  simp only [first, stringSegment, slashSegment, numberSegment, wordSegment, markSegment]
  repeat' split
  all_goals simp [Kind.ofWord_ne_eof]
  · rename_i hm
    rintro rfl
    exact absurd hm (markWithEqual?_ne_eof c)
  · rename_i hm
    rintro rfl
    exact absurd hm (mark?_ne_eof c)

theorem segmentsWithin_ne_eof (n : Nat) (found : List Segment) (rest text : List Char)
    (h : .token .eof text ∉ found) : .token .eof text ∉ segmentsWithin n found rest := by
  induction n generalizing found rest with
  | zero => simpa [segmentsWithin] using h
  | succ n ih =>
      cases rest with
      | nil => simpa [segmentsWithin] using h
      | cons c rest =>
          refine ih _ _ (List.not_mem_cons_of_ne_of_not_mem ?_ h)
          exact (first_ne_eof c rest text).symm

theorem foldl_next_valued (found : List Segment) (p : Progress)
    (hf : ∀ text, .token .eof text ∉ found) (hp : ∀ t ∈ p.tokens, t.kind ≠ .eof ∧ t.Valued) :
    ∀ t ∈ (found.foldl Progress.next p).tokens, t.kind ≠ .eof ∧ t.Valued := by
  induction found generalizing p with
  | nil => exact hp
  | cons s found ih =>
      refine ih _ (fun text => List.not_mem_of_not_mem_cons (hf text)) ?_
      cases s with
      | token kind text =>
          refine List.forall_mem_cons.2 ⟨⟨?_, tokenOf_valued _ _ _⟩, hp⟩
          rintro rfl
          exact hf text List.mem_cons_self
      | _ => exact hp

/-- The tokens of a text are those of its segments and an end mark after them. -/
theorem read_tokens (text : String) : ∃ front line, (read text).tokens = front ++ [eofAt line] ∧
    ∀ t ∈ front, t.kind ≠ .eof ∧ t.Valued := by
  refine ⟨_, _, List.reverse_cons, fun t ht => ?_⟩
  refine foldl_next_valued _ ⟨1, [], []⟩ (fun text' => ?_) (by simp) t (List.mem_reverse.1 ht)
  exact segmentsWithin_ne_eof _ _ _ _ (by simp)

end Lexical
end Lox
