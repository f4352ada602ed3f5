import Lox.Prompt
import Lox.Proofs.Session.Reachable

/-!
What a prompt does with its input. The bytes are read line by line, as long as they are text, and
the lines run as the scripts of one session; carriage returns before the newlines make no
difference.
-/

namespace Lox
namespace Prompt

def bytes (text : String) : List UInt8 := text.toUTF8.data.toList

/-- The first line of an input and what comes after it. A line goes up to the first newline; without
one all of an input is its line, unless it is empty. -/
inductive FirstLine : List UInt8 → List UInt8 → Prop
  | ended {body : List UInt8} (h : 10 ∉ body) (rest : List UInt8) : FirstLine (body ++ [10]) rest
  | last {line : List UInt8} (h : 10 ∉ line) (some : line ≠ []) : FirstLine line []

/-- A line is spelled by a text and, after it, newlines and carriage returns, with which the text
itself does not end. -/
def Spells (line : List UInt8) (text : String) : Prop :=
  ∃ ending : String, line = bytes (text ++ ending) ∧ (∀ c ∈ ending.toList, c = '\n' ∨ c = '\r') ∧
    ∀ c ∈ text.toList.getLast?, c ≠ '\n' ∧ c ≠ '\r'

/-- Bytes read line by line: the texts of the lines, up to the first that is not text, and whether
there is no such line. -/
inductive Reads : List UInt8 → List String → Bool → Prop
  | done : Reads [] [] true
  | line {line rest : List UInt8} {text : String} {texts : List String} {readAll : Bool}
      (first : FirstLine line rest) (spelled : Spells line text) (more : Reads rest texts readAll) :
      Reads (line ++ rest) (text :: texts) readAll
  | broken {line rest : List UInt8} (first : FirstLine line rest) (h : ∀ text, bytes text ≠ line) :
      Reads (line ++ rest) [] false

theorem bytes_eq_flatMap (text : String) :
    bytes text = text.toList.flatMap String.utf8EncodeChar := by
  rw [bytes, String.toUTF8_eq_toByteArray, ← String.utf8Encode_toList, List.utf8Encode,
    List.toList_data_toByteArray]

theorem fromUTF8?_eq_some_iff {line : List UInt8} {text : String} :
    String.fromUTF8? ⟨line.toArray⟩ = some text ↔ bytes text = line := by
  rw [String.fromUTF8?, Option.dite_none_right_eq_some]
  refine ⟨?_, ?_⟩
  · rintro ⟨valid, h⟩
    cases h
    rfl
  · rintro rfl
    exact ⟨text.isValidUTF8, rfl⟩

theorem fromUTF8?_eq_none_iff {line : List UInt8} :
    String.fromUTF8? ⟨line.toArray⟩ = none ↔ ∀ text, bytes text ≠ line := by
  rw [Option.eq_none_iff_forall_ne_some]
  exact forall_congr' fun _ => not_congr fromUTF8?_eq_some_iff

/-- Where the last byte of a text is a first byte, the bytes before it are of a text too. -/
theorem exists_bytes_of_concat {line : List UInt8} {b : UInt8} (first : b.IsUTF8FirstByte)
    {text : String} (h : bytes text = line ++ [b]) : ∃ front, bytes front = line := by
  rw [bytes_eq_flatMap] at h
  obtain none | ⟨chars, c, split⟩ := List.eq_nil_or_concat text.toList
  · rw [none] at h
    simp at h
  · have some : String.utf8EncodeChar c ≠ [] := String.utf8EncodeChar_ne_nil
    rw [split, List.concat_eq_append, List.flatMap_append, List.flatMap_singleton,
      ← List.dropLast_append_getLast some, ← List.append_assoc] at h
    obtain ⟨front, last⟩ := List.append_inj' h rfl
    -- only the first byte of an encoded character is a first byte, so the last one is all of it
    have inside := Nat.sub_one_lt (mt List.length_eq_zero_iff.1 some)
    have single : (String.utf8EncodeChar c).length - 1 = 0 := by
      have last_first :
          (String.utf8EncodeChar c)[(String.utf8EncodeChar c).length - 1].IsUTF8FirstByte := by
        rw [← List.getLast_eq_getElem some]
        cases last
        exact first
      exact UInt8.isUTF8FirstByte_getElem_utf8EncodeChar.1 last_first
    rw [List.dropLast_eq_take, single, List.take_zero, List.append_nil] at front
    refine ⟨String.ofList chars, ?_⟩
    rw [bytes_eq_flatMap, String.toList_ofList, front]

def isEnding (c : Char) : Bool := c == '\n' || c == '\r'

theorem isEnding_iff {c : Char} : isEnding c ↔ c = '\n' ∨ c = '\r' := by
  rw [isEnding, Bool.or_eq_true, beq_iff_eq, beq_iff_eq]

theorem text?_eq (line : List UInt8) :
    text? line = (String.fromUTF8? ⟨line.toArray⟩).map fun text =>
      String.ofList (text.toList.rdropWhile isEnding) := rfl

theorem text?_eq_none_iff {line : List UInt8} : text? line = none ↔ ∀ text, bytes text ≠ line := by
  rw [text?_eq, Option.map_eq_none_iff, fromUTF8?_eq_none_iff]

theorem text?_eq_some_iff {line : List UInt8} {text : String} :
    text? line = some text ↔ Spells line text := by
  rw [text?_eq, Option.map_eq_some_iff]
  refine ⟨?_, ?_⟩
  · rintro ⟨whole, read, rfl⟩
    rw [fromUTF8?_eq_some_iff] at read
    refine ⟨String.ofList (whole.toList.rtakeWhile isEnding), ?_, fun c hc => ?_, fun c hc => ?_⟩
    · rw [← String.ofList_append, List.rdropWhile_append_rtakeWhile, String.ofList_toList, read]
    · rw [String.toList_ofList] at hc
      exact isEnding_iff.1 (List.mem_rtakeWhile_imp hc)
    · rw [String.toList_ofList, Option.mem_def, List.getLast?_eq_some_iff] at hc
      obtain ⟨front, hc⟩ := hc
      have kept := List.rdropWhile_last_not isEnding whole.toList (by simp [hc])
      simp only [hc, List.getLast_append_singleton] at kept
      rwa [isEnding_iff, not_or] at kept
  · rintro ⟨ending, rfl, cut, kept⟩
    refine ⟨text ++ ending, fromUTF8?_eq_some_iff.2 rfl, ?_⟩
    have all : ending.toList.reverse.dropWhile isEnding = [] :=
      List.dropWhile_eq_nil_iff.2 fun c hc => isEnding_iff.2 (cut c (List.mem_reverse.1 hc))
    have none : text.toList.rdropWhile isEnding = text.toList := by
      rw [List.rdropWhile_eq_self_iff]
      intro some ends
      obtain ⟨notNewline, notReturn⟩ := kept _ (List.getLast?_eq_some_getLast some)
      exact (isEnding_iff.1 ends).elim notNewline notReturn
    rw [String.toList_append, List.rdropWhile, List.reverse_append, List.dropWhile_append, all]
    exact (congrArg String.ofList none).trans String.ofList_toList

theorem text?_concat {c : Char} {b : UInt8} (hc : isEnding c) (hb : String.utf8EncodeChar c = [b])
    (line : List UInt8) : text? (line ++ [b]) = text? line := by
  have spelled (text : String) : bytes (text.push c) = bytes text ++ [b] := by
    rw [bytes_eq_flatMap, String.toList_push, List.flatMap_append, List.flatMap_singleton, hb,
      ← bytes_eq_flatMap]
  cases read : String.fromUTF8? ⟨line.toArray⟩ with
  | none =>
      have first : b.IsUTF8FirstByte := by
        have first' := UInt8.isUTF8FirstByte_getElem_zero_utf8EncodeChar (c := c)
        simp only [hb] at first'
        exact first'
      rw [text?_eq_none_iff.2 (fromUTF8?_eq_none_iff.1 read), text?_eq_none_iff]
      intro text h
      obtain ⟨front, hfront⟩ := exists_bytes_of_concat first h
      exact fromUTF8?_eq_none_iff.1 read front hfront
  | some text =>
      have more : String.fromUTF8? ⟨(line ++ [b]).toArray⟩ = some (text.push c) := by
        rw [fromUTF8?_eq_some_iff, spelled, fromUTF8?_eq_some_iff.1 read]
      rw [text?_eq, text?_eq, more, read, Option.map_some, Option.map_some, String.toList_push,
        List.rdropWhile_concat_pos _ _ _ hc]

theorem text?_newline (line : List UInt8) : text? (line ++ [10]) = text? line :=
  text?_concat (c := '\n') rfl rfl line

theorem text?_return (line : List UInt8) : text? (line ++ [13]) = text? line :=
  text?_concat (c := '\r') rfl rfl line

theorem FirstLine.ne_nil {line rest : List UInt8} (h : FirstLine line rest) : line ≠ [] := by
  cases h with
  | ended => exact List.append_ne_nil_of_right_ne_nil _ (List.cons_ne_nil _ _)
  | last _ some => exact some

theorem FirstLine.lines {line rest : List UInt8} (h : FirstLine line rest) :
    lines (line ++ rest) = line :: Prompt.lines rest := by
  cases h with
  | @ended body h rest =>
      induction body with
      | nil => rfl
      | cons b body ih =>
          obtain ⟨other, h⟩ := not_or.1 (mt List.mem_cons.2 h)
          rw [List.cons_append, List.cons_append, Prompt.lines, if_neg (Ne.symm other), ih h]
  | last h some =>
      rw [List.append_nil, Prompt.lines]
      induction line with
      | nil => exact absurd rfl some
      | cons b line ih =>
          obtain ⟨other, h⟩ := not_or.1 (mt List.mem_cons.2 h)
          rw [Prompt.lines, if_neg (Ne.symm other)]
          cases line with
          | nil => rfl
          | cons c line => rw [ih h (List.cons_ne_nil c line)]

def decode : List (List UInt8) → List String × Bool
  | [] => ([], true)
  | line :: rest =>
      match text? line with
      | none => ([], false)
      | some text => (text :: (decode rest).1, (decode rest).2)

theorem Reads.decode {input : List UInt8} {texts : List String} {readAll : Bool}
    (h : Reads input texts readAll) : Prompt.decode (lines input) = (texts, readAll) := by
  induction h with
  | done => rfl
  | line first spelled _ ih => rw [first.lines, Prompt.decode, text?_eq_some_iff.2 spelled, ih]
  | broken first h => rw [first.lines, Prompt.decode, text?_eq_none_iff.2 h]

def Transcript.follow (t : Transcript) (reports : List Report) (readAll : Bool) : Transcript where
  printed := t.printed ++ String.join (reports.map (mark ++ ·.printed)) ++ mark
  diagnostics := t.diagnostics ++ reports.flatMap (·.diagnostics)
  readAll := t.readAll && readAll

theorem Transcript.follow_add (t : Transcript) (r : Report) (reports : List Report)
    (readAll : Bool) :
    (t.marked.add r).follow reports readAll = t.follow (r :: reports) readAll := by
  rw [follow, follow, List.map_cons, String.join_cons, List.flatMap_cons]
  simp only [add, marked, String.append_assoc, List.append_assoc]

theorem runLines_of_text? {line : List UInt8} {text : String} (h : text? line = some text)
    (limit : Nat) (rest : List (List UInt8)) (t : Transcript) (s : Session) :
    runLines limit (line :: rest) t s =
      (s.run limit text).bind fun (report, s') => runLines limit rest (t.marked.add report) s' := by
  simp only [runLines, h]
  cases s.run limit text <;> rfl

/-- The lines run as the scripts of one session. -/
theorem Reads.runLines {input : List UInt8} {texts : List String} {readAll : Bool}
    (h : Reads input texts readAll) (limit : Nat) (t : Transcript) (s : Session) :
    runLines limit (lines input) t s = (Session.runs (texts.map (limit, ·)) s).map
      fun (reports, s') => (t.follow reports readAll, s') := by
  -- The transcript grows from line to line, and with it what the reports are added to.
  induction h generalizing t s with
  | done => simp [lines, Prompt.runLines, Session.runs, Transcript.follow, Transcript.marked]
  | broken first h =>
      rw [first.lines, Prompt.runLines, text?_eq_none_iff.2 h]
      simp [Session.runs, Transcript.follow, Transcript.marked]
  | line first spelled _ ih =>
      rw [first.lines, runLines_of_text? (text?_eq_some_iff.2 spelled), List.map_cons, Session.runs,
        Option.map_bind]
      refine Option.bind_congr fun (report, s') _ => ?_
      dsimp only [Function.comp_apply]
      rw [ih, Option.map_map]
      simp only [Transcript.follow_add]
      rfl

def returned (input : List UInt8) : List UInt8 :=
  input.flatMap fun b => if b = 10 then [13, 10] else [b]

theorem returned_append (front back : List UInt8) :
    returned (front ++ back) = returned front ++ returned back := List.flatMap_append

theorem returned_of_not_mem {line : List UInt8} (h : 10 ∉ line) : returned line = line := by
  induction line with
  | nil => rfl
  | cons b line ih =>
      obtain ⟨other, h⟩ := not_or.1 (mt List.mem_cons.2 h)
      rw [returned, List.flatMap_cons, if_neg (Ne.symm other), ← returned, ih h,
        List.singleton_append]

theorem FirstLine.returned {line rest : List UInt8} (h : FirstLine line rest) :
    FirstLine (returned line) (Prompt.returned rest) ∧
      text? (Prompt.returned line) = text? line := by
  cases h with
  | @ended body h rest =>
      have split : Prompt.returned (body ++ [10]) = body ++ [13] ++ [10] := by
        rw [returned_append, returned_of_not_mem h, List.append_assoc]
        rfl
      rw [split]
      refine ⟨.ended ?_ _, ?_⟩
      · rw [List.mem_append, not_or]
        exact ⟨h, by decide⟩
      · rw [text?_newline, text?_return, text?_newline]
  | last h some =>
      rw [returned_of_not_mem h]
      exact ⟨.last h some, rfl⟩

/-- Carriage returns before the newlines do not change what is read. -/
theorem Reads.returned {input : List UInt8} {texts : List String} {readAll : Bool}
    (h : Reads input texts readAll) : Reads (returned input) texts readAll := by
  induction h with
  | done => exact .done
  | line first spelled _ ih =>
      obtain ⟨first, same⟩ := first.returned
      rw [returned_append]
      exact .line first (text?_eq_some_iff.1 (same.trans (text?_eq_some_iff.2 spelled))) ih
  | broken first h =>
      obtain ⟨first, same⟩ := first.returned
      rw [returned_append]
      exact .broken first (text?_eq_none_iff.1 (same.trans (text?_eq_none_iff.2 h)))

theorem Reads.run {input : List UInt8} {texts : List String} {readAll : Bool}
    (h : Reads input texts readAll) (limit : Nat) (s : Session) :
    run limit input s = (Session.runs (texts.map (limit, ·)) s).map
      fun (reports, s') =>
        ({ printed := String.join (reports.map (mark ++ ·.printed)) ++ mark
           diagnostics := reports.flatMap (·.diagnostics)
           readAll }, s') := by
  rw [Prompt.run, h.runLines]
  rfl

end Prompt
end Lox
