import Mathlib
import Lox.Script
import Lox.Proofs.Lexical.Munch

/-!
The lines of a listing of tokens. All that is listed of a token is on one line, but for its lexeme,
which stands as it is; and only the lexemes of strings have newlines in them.
-/

namespace Lox

def Text.OneLine (text : String) : Prop := '\n' ∉ text.toList

namespace Text

variable {text text' : String} {chars : List Char}

@[simp]
theorem oneLine_append : OneLine (text ++ text') ↔ OneLine text ∧ OneLine text' := by
  rw [OneLine, String.toList_append, List.mem_append, not_or]
  rfl

@[simp]
theorem oneLine_ofList : OneLine (String.ofList chars) ↔ '\n' ∉ chars := by
  rw [OneLine, String.toList_ofList]

theorem oneLine_replicate (n : Nat) {c : Char} (h : '\n' ≠ c) :
    OneLine (String.ofList (List.replicate n c)) := by
  rw [oneLine_ofList, List.mem_replicate, not_and]
  exact fun _ => h

instance (text : String) : Decidable (OneLine text) := inferInstanceAs (Decidable ('\n' ∉ _))

theorem newline_not_mem_toDigits {base : Nat} (least : 1 < base) (most : base ≤ 16) (n : Nat) :
    '\n' ∉ Nat.toDigits base n := by
  have digit : ∀ d : Fin 16, '\n' ≠ d.val.digitChar := by decide
  induction n using Nat.strong_induction_on with
  | _ n ih =>
      rw [Nat.toDigits_eq_if least]
      split
      · rename_i small
        rw [List.mem_singleton]
        exact digit ⟨n, Nat.lt_of_lt_of_le small most⟩
      · rename_i large
        have smaller : n / base < n := Nat.div_lt_self (by omega) least
        have last : n % base < 16 := Nat.lt_of_lt_of_le (Nat.mod_lt n (by omega)) most
        rw [List.mem_append, List.mem_singleton, not_or]
        exact ⟨ih _ smaller, digit ⟨n % base, last⟩⟩

theorem oneLine_toString (n : Nat) : OneLine (toString n) := by
  rw [Nat.toString_eq_ofList_toDigits, oneLine_ofList]
  exact newline_not_mem_toDigits (by decide) (by decide) n

theorem oneLine_toString_int (z : Int) : OneLine (toString z) := by
  cases z with
  | ofNat n => exact oneLine_toString n
  | negSucc n => exact oneLine_append.2 ⟨by decide +kernel, oneLine_toString (n + 1)⟩

theorem newline_not_mem_quoteChar (c : Char) : '\n' ∉ quoteChar c := by
  by_cases newline : c = '\n'
  · subst newline
    decide
  have itself : '\n' ∉ [c] := fun h => newline (List.mem_singleton.1 h).symm
  rw [quoteChar, if_neg newline]
  split_ifs
  · decide
  · decide
  · decide
  · decide
  · decide
  · exact itself
  · rw [List.mem_append, List.mem_append, not_or, not_or]
    exact ⟨⟨by decide, newline_not_mem_toDigits (by decide) (by decide) _⟩, by decide⟩
  · exact itself

/-- A quoted text is on one line, whatever the text. -/
theorem oneLine_quoted (text : String) : OneLine (quoted text) := by
  rw [quoted, oneLine_ofList, List.mem_append, List.mem_cons, List.mem_flatMap]
  rintro ((h | ⟨c, -, h⟩) | h)
  · cases h
  · exact newline_not_mem_quoteChar c h
  · cases List.mem_singleton.1 h

end Text

namespace NumberStyle

open Text

variable {digits : List Char}

theorem oneLine_zeros (n : Nat) : OneLine (zeros n) := oneLine_replicate n (by decide)

theorem oneLine_layOut (f : NumberStyle) (h : '\n' ∉ digits) (place : Int) :
    OneLine (f.layOut digits place) := by
  rw [layOut]
  dsimp only
  split
  · simp only [oneLine_append, oneLine_ofList]
    exact ⟨⟨by decide +kernel, oneLine_zeros _⟩, h⟩
  split
  · simp only [oneLine_append, oneLine_ofList]
    refine ⟨⟨h, oneLine_zeros _⟩, ?_⟩
    split <;> decide +kernel
  · simp only [oneLine_append, oneLine_ofList]
    exact ⟨⟨mt List.mem_of_mem_take h, by decide +kernel⟩, mt List.mem_of_mem_drop h⟩

theorem oneLine_scientific (h : '\n' ∉ digits) (place : Int) :
    OneLine (scientific digits place) := by
  unfold scientific
  simp only [oneLine_append]
  refine ⟨⟨?_, by decide +kernel⟩, oneLine_toString_int place⟩
  split
  · rw [oneLine_ofList]
    simpa using h
  · exact oneLine_ofList.2 h

theorem oneLine_magnitude (f : NumberStyle) (bits : UInt64) : OneLine (f.magnitude bits) := by
  have digits (n : Nat) : '\n' ∉ Nat.toDigits 10 n :=
    newline_not_mem_toDigits (by decide) (by decide) n
  rw [magnitude]
  split
  · exact oneLine_layOut f (by decide) 0
  · rw [decimal]
    split
    · exact oneLine_layOut f (digits _) _
    · exact oneLine_scientific (digits _) _

theorem oneLine_render (f : NumberStyle) (h : OneLine f.infinity) (x : Float) :
    OneLine (f.render x) := by
  rw [render]
  dsimp only
  split
  · decide +kernel
  · rw [oneLine_append]
    refine ⟨?_, ?_⟩
    · split <;> decide +kernel
    · split
      · exact h
      · exact oneLine_magnitude f _

end NumberStyle

namespace Token

open Text

/-- What is listed before the lexeme of a token. -/
def heading (t : Token) : String :=
  padLeft 4 (toString t.line) ++ " " ++ padRight 12 t.kind.name ++ " "

def value (t : Token) : String :=
  match t.literal with
  | some (.number x) => " " ++ NumberStyle.inListing.render x
  | some (.string s) => " " ++ Text.quoted s
  | _ => ""

theorem listed_eq (t : Token) : t.listed = t.heading ++ t.lexeme ++ t.value := rfl

theorem oneLine_heading (t : Token) : OneLine t.heading := by
  have name : OneLine t.kind.name := by cases t.kind <;> decide +kernel
  have space : OneLine " " := by decide +kernel
  have spaces (n : Nat) : OneLine (String.ofList (List.replicate n ' ')) :=
    oneLine_replicate n (by decide)
  simp only [heading, padLeft, padRight, oneLine_append]
  exact ⟨⟨⟨⟨spaces _, oneLine_toString _⟩, space⟩, name, spaces _⟩, space⟩

theorem oneLine_value (t : Token) : OneLine t.value := by
  have space : OneLine " " := by decide +kernel
  rw [value]
  split
  · exact oneLine_append.2 ⟨space, NumberStyle.oneLine_render _ (by decide +kernel) _⟩
  · exact oneLine_append.2 ⟨space, oneLine_quoted _⟩
  · decide +kernel

/-- A token is listed with the newlines of its lexeme. -/
theorem count_newline_listed (t : Token) :
    t.listed.toList.count '\n' = t.lexeme.toList.count '\n' := by
  rw [listed_eq, String.toList_append, String.toList_append, List.count_append, List.count_append,
    List.count_eq_zero.2 t.oneLine_heading, List.count_eq_zero.2 t.oneLine_value, Nat.zero_add,
    Nat.add_zero]

theorem oneLine_listed_iff (t : Token) : OneLine t.listed ↔ OneLine t.lexeme := by
  rw [OneLine, ← List.count_eq_zero, count_newline_listed, List.count_eq_zero, OneLine]

end Token

namespace Lexical

open Text

/-- Only strings have newlines in them. -/
theorem newline_not_mem_of_kind? {p : Pattern} {text after : List Char} {kind : Kind}
    (fits : p.Matches text after) (gives : p.kind? text = some kind) (other : kind ≠ .string) :
    '\n' ∉ text := by
  have digits {chars : List Char} (h : Digits chars) : '\n' ∉ chars := fun mem => by
    cases h.2 _ mem
  cases p with
  | mark k =>
      have free : ∀ m ∈ marks, '\n' ∉ m.1 := by decide
      exact free _ fits
  | number =>
      obtain whole | ⟨whole, fraction, hw, hf, rfl⟩ := fits
      · exact digits whole
      · rw [List.mem_append, List.mem_cons, not_or, not_or]
        exact ⟨digits hw, by decide, digits hf⟩
  | string => exact absurd (Option.some.inj gives).symm other
  | word =>
      obtain ⟨c, more, hc, hmore, rfl⟩ := fits
      intro mem
      obtain rfl | mem := List.mem_cons.1 mem
      · cases hc
      · cases hmore _ mem
  | lineComment | blockComment | openString => cases gives

theorem oneLine_lexeme {text : String} {t : Token} (h : t ∈ (read text).tokens)
    (other : t.kind ≠ .string) : OneLine t.lexeme := by
  obtain ⟨line, rfl⟩ | ⟨p, lexeme, after, line, longest, made⟩ :=
    (munches_read text).exists_piece t h
  · exact List.not_mem_nil
  · obtain ⟨kind, gives, rfl⟩ := Option.map_eq_some_iff.1 made
    exact oneLine_ofList.2 (newline_not_mem_of_kind? longest.fits gives other)

end Lexical

def Text.rows (rows : List String) : String := String.join (rows.map (· ++ "\n"))

namespace Text

theorem toList_rows_cons (row : String) (more : List String) :
    (rows (row :: more)).toList = row.toList ++ '\n' :: (rows more).toList := by
  simp [rows, String.toList_join]

theorem count_newline_rows (all : List String) :
    (rows all).toList.count '\n' = all.length + (all.map fun row => row.toList.count '\n').sum := by
  induction all with
  | nil => rfl
  | cons row more ih =>
      rw [toList_rows_cons, List.count_append, List.count_cons_self, ih, List.length_cons,
        List.map_cons, List.sum_cons]
      omega

theorem length_splitOn (c : Char) (chars : List Char) :
    (chars.splitOn c).length = chars.count c + 1 := by
  induction chars with
  | nil => rfl
  | cons d rest ih =>
      rw [List.splitOn_cons_eq_if_modifyHead, List.count_cons]
      split
      · rw [List.length_cons, ih]
      · rw [List.length_modifyHead, ih, Nat.add_zero]

/-- Rows without newlines are the lines of the whole; behind the last one is an empty line. -/
theorem splitOn_rows {all : List String} (h : ∀ row ∈ all, OneLine row) :
    (rows all).toList.splitOn '\n' = all.map String.toList ++ [[]] := by
  induction all with
  | nil => rfl
  | cons row more ih =>
      obtain ⟨first, later⟩ := List.forall_mem_cons.1 h
      rw [toList_rows_cons, List.splitOn_append_cons_self_of_not_mem first, ih later, List.map_cons,
        List.cons_append]

end Text

namespace Script

open Text

theorem tokenListing_eq (text : String) :
    (ofText text).tokenListing = rows ((Lexical.read text).tokens.map Token.listed) := by
  rw [tokenListing, rows, List.map_map]
  rfl

theorem count_newline_tokenListing (text : String) :
    (ofText text).tokenListing.toList.count '\n' = (Lexical.read text).tokens.length +
      ((Lexical.read text).tokens.map fun t => t.lexeme.toList.count '\n').sum := by
  rw [tokenListing_eq, count_newline_rows, List.length_map, List.map_map]
  simp only [Function.comp_def, Token.count_newline_listed]

/-- A listing of tokens has a newline for each token and besides only those in the texts of strings.
So it has one line for each token exactly if no string goes over several lines, and then its lines
are what is listed of the tokens. -/
theorem tokenListing_lines (text : String) :
    ((ofText text).tokenListing.toList.count '\n' = (Lexical.read text).tokens.length +
      ((Lexical.read text).tokens.map fun t => t.lexeme.toList.count '\n').sum) ∧
    (∀ t ∈ (Lexical.read text).tokens, '\n' ∈ t.lexeme.toList → t.kind = .string) ∧
    ((ofText text).tokenListing.toList.count '\n' = (Lexical.read text).tokens.length ↔
      ∀ t ∈ (Lexical.read text).tokens, t.kind = .string → '\n' ∉ t.lexeme.toList) ∧
    ((ofText text).tokenListing.toList.splitOn '\n' =
        (Lexical.read text).tokens.map (fun t => t.listed.toList) ++ [[]] ↔
      ∀ t ∈ (Lexical.read text).tokens, t.kind = .string → '\n' ∉ t.lexeme.toList) := by
  have only : ∀ t ∈ (Lexical.read text).tokens, '\n' ∈ t.lexeme.toList → t.kind = .string := by
    intro t ht newline
    by_contra other
    exact Lexical.oneLine_lexeme ht other newline
  have count : (ofText text).tokenListing.toList.count '\n' = (Lexical.read text).tokens.length ↔
      ∀ t ∈ (Lexical.read text).tokens, t.kind = .string → '\n' ∉ t.lexeme.toList := by
    rw [count_newline_tokenListing, Nat.add_eq_left, List.sum_eq_zero_iff_forall_eq_nat, List.forall_mem_map]
    refine forall₂_congr fun t ht => ?_
    rw [List.count_eq_zero]
    exact ⟨fun h _ => h, fun h newline => h (only t ht newline) newline⟩
  refine ⟨count_newline_tokenListing text, only, count, fun split => ?_, fun single => ?_⟩
  · have sizes := congrArg List.length split
    rw [length_splitOn, List.length_append, List.length_map] at sizes
    exact count.1 (Nat.succ_inj.1 sizes)
  · have each : ∀ row ∈ (Lexical.read text).tokens.map Token.listed, OneLine row := by
      rw [List.forall_mem_map]
      intro t ht
      rw [Token.oneLine_listed_iff]
      exact fun newline => single t ht (only t ht newline) newline
    rw [tokenListing_eq, splitOn_rows each, List.map_map]
    rfl

/-- A string over two lines. The listing of its two tokens has three lines, and the second is not
what is listed of the second token. -/
theorem tokenListing_of_broken_string :
    (Lexical.read "\"a\nb\"").tokens.length = 2 ∧
    (ofText "\"a\nb\"").tokenListing.toList.count '\n' = 3 ∧
    ((ofText "\"a\nb\"").tokenListing.toList.splitOn '\n')[1]? ≠
      (((Lexical.read "\"a\nb\"").tokens.map fun t => t.listed.toList) ++ [[]])[1]? := by
  decide +kernel

end Script
end Lox
