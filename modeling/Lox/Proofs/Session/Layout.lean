import Lox.Proofs.Relabel.Reading
import Lox.Proofs.Relabel.Running
import Lox.Proofs.Session.Reachable

/-!
Layout does not matter. No token is read and no statement run by its line, so that two scripts whose
tokens and errors differ in their lines only, as those of texts with other blanks, comments and line
breaks do, print the same, end in the same way and leave the same session. What is reported of them
differs in its lines only.
-/

namespace Lox

namespace Lexical

/-- But for its line, a token of a text is given by its kind and its text. -/
theorem relabel_flat_of_mem {text : String} {t : Token} (h : t ∈ (read text).tokens) :
    t.relabel .flat = tokenOf t.kind t.lexeme.toList 0 := by
  rw [read_eq, List.mem_append, List.mem_singleton] at h
  obtain inside | rfl := h
  · obtain ⟨s, -, line, -, -, seen⟩ := exists_of_mem_scan inside
    cases s with
    | token kind w =>
        cases seen
        simp [Relabeling.flat, Token.relabel_ofLines, tokenOf_eq]
    | _ => cases seen
  · rfl

/-- Texts with the same kinds and texts of tokens have the same tokens but for their lines. -/
theorem map_relabel_flat {text text' : String}
    (h : (read text).tokens.map (fun t => (t.kind, t.lexeme)) =
      (read text').tokens.map fun t => (t.kind, t.lexeme)) :
    (read text).tokens.map (Token.relabel .flat) =
      (read text').tokens.map (Token.relabel .flat) := by
  have flat (text : String) : (read text).tokens.map (Token.relabel .flat) =
      ((read text).tokens.map fun t => (t.kind, t.lexeme)).map
        fun seen => tokenOf seen.1 seen.2.toList 0 := by
    rw [List.map_map]
    exact List.map_congr_left fun t ht => relabel_flat_of_mem ht
  rw [flat, flat, h]

end Lexical

def Diagnostic.content (d : Diagnostic) : Code × Location × String :=
  (d.code, d.location, d.message)

theorem Fault.content_diagnostic_relabel (f : Fault) (line line' : Nat) :
    ((f.relabel .flat).diagnostic line').content = (f.diagnostic line).content := by
  obtain ⟨problem, found⟩ := f
  cases found <;> rfl

/-- Tokens that differ in their lines only are read as programs that do so. -/
theorem Program.ofTokens_flat {tokens tokens' : List Token} (some : tokens ≠ [])
    (h : tokens.map (Token.relabel .flat) = tokens'.map (Token.relabel .flat)) :
    Stmt.relabelAll .flat (ofTokens tokens).statements =
        Stmt.relabelAll .flat (ofTokens tokens').statements ∧
      (ofTokens tokens).diagnostics.map Diagnostic.content =
        (ofTokens tokens').diagnostics.map Diagnostic.content := by
  have some' : tokens' ≠ [] := by
    rintro rfl
    exact some (List.map_eq_nil_iff.1 h)
  have read := ofTokens_relabel .flat tokens some
  rw [h, ofTokens_relabel .flat tokens' some', Program.mk.injEq] at read
  obtain ⟨statements, faults, -⟩ := read
  have flat (p : Program) : p.diagnostics.map Diagnostic.content =
      (p.faults.map (Fault.relabel .flat)).map fun f => (f.diagnostic 0).content := by
    rw [diagnostics, List.map_map, List.map_map]
    exact List.map_congr_left fun f _ => (f.content_diagnostic_relabel _ _).symm
  rw [Stmt.relabelAll_eq, Stmt.relabelAll_eq, flat, flat, statements, faults]
  exact ⟨rfl, rfl⟩

/-- Statements that differ in their lines only do the same to a machine and end in ways that differ
in their lines only. -/
theorem Stmt.runAll_flat {body body' : List Stmt}
    (h : relabelAll .flat body = relabelAll .flat body') (limit : Nat) (e : Environment) :
    (runAll limit body ⟨e, .empty⟩).1.relabel (fun _ => 0) =
        (runAll limit body' ⟨e, .empty⟩).1.relabel (fun _ => 0) ∧
      (runAll limit body ⟨e, .empty⟩).2 = (runAll limit body' ⟨e, .empty⟩).2 := by
  have same (m : Machine) : m.after "" = m := by
    rw [Machine.after, String.empty_append]
  have run := runAll_relabel (fun _ => 0) "" limit body ⟨e, .empty⟩
  have run' := runAll_relabel (fun _ => 0) "" limit body' ⟨e, .empty⟩
  rw [Relabeling.flat] at h
  rw [h, run', same, same, Prod.mk.injEq] at run
  exact ⟨run.1.symm, run.2.symm⟩

/-- Endings that differ in their lines only are reported in words that do so. -/
theorem Ending.report?_flat {ending ending' : Ending}
    (h : ending.relabel (fun _ => 0) = ending'.relabel fun _ => 0) (output : Output) :
    ending.report? output = none ∧ ending'.report? output = none ∨
      ∃ report report', ending.report? output = some report ∧
        ending'.report? output = some report' ∧ report'.printed = report.printed ∧
        report'.outcome = report.outcome ∧
        report'.diagnostics.map Diagnostic.content = report.diagnostics.map Diagnostic.content := by
  cases ending with
  | cutOff =>
      cases ending' with
      | cutOff => exact .inl ⟨rfl, rfl⟩
      | finished | failed => cases h
  | finished =>
      cases ending' with
      | finished => exact .inr ⟨_, _, rfl, rfl, rfl, rfl, rfl⟩
      | cutOff | failed => cases h
  | failed x =>
      cases ending' with
      | finished | cutOff => cases h
      | failed x' =>
          obtain ⟨problem, line⟩ := x
          obtain ⟨problem', line'⟩ := x'
          cases h
          exact .inr ⟨_, _, rfl, rfl, rfl, rfl, rfl⟩

namespace Session

/-- Two scripts with the same kinds and texts of tokens and the same lexical errors, on whatever
lines, do the same: both are cut off, or they print the same, end in the same way and leave the same
session, and what is reported of them differs in its lines only. -/
theorem run_ignores_layout (s : Session) {text text' : String}
    (tokens : (Lexical.read text).tokens.map (fun t => (t.kind, t.lexeme)) =
      (Lexical.read text').tokens.map fun t => (t.kind, t.lexeme))
    (errors : (Lexical.read text).errors.map LexicalError.problem =
      (Lexical.read text').errors.map LexicalError.problem) (limit : Nat) :
    s.run limit text = none ∧ s.run limit text' = none ∨
      ∃ report report' t, s.run limit text = some (report, t) ∧
        s.run limit text' = some (report', t) ∧ report'.printed = report.printed ∧
        report'.outcome = report.outcome ∧
        report'.diagnostics.map Diagnostic.content =
          report.diagnostics.map Diagnostic.content := by
  have flat := Lexical.map_relabel_flat tokens
  have some : (Lexical.read text).tokens ≠ [] := by
    rw [Lexical.read_eq]
    simp
  obtain ⟨statements, faults⟩ := Program.ofTokens_flat some flat
  have names : s.namesWith text = s.namesWith text' := by
    rw [Relabeling.flat] at flat
    rw [namesWith, ← NameTable.insertTokens_ofLines, flat, NameTable.insertTokens_ofLines, namesWith]
  have lexical (text : String) : (Script.ofText text).lexicalDiagnostics.map Diagnostic.content =
      ((Lexical.read text).errors.map LexicalError.problem).map
        fun p => (p.code, .unspecified, p.message) := by
    rw [Script.lexicalDiagnostics, List.map_map, List.map_map]
    rfl
  have diagnostics : (Script.ofText text').diagnostics.map Diagnostic.content =
      (Script.ofText text).diagnostics.map Diagnostic.content := by
    rw [Script.diagnostics, Script.diagnostics, List.map_append, List.map_append, lexical, lexical,
      errors]
    exact congrArg (_ ++ ·) faults.symm
  by_cases clean : (Script.ofText text).diagnostics = []
  · have clean' : (Script.ofText text').diagnostics = [] := by
      rwa [clean, List.map_nil, List.map_eq_nil_iff] at diagnostics
    obtain ⟨endings, machines⟩ := Stmt.runAll_flat statements limit s.environment
    rw [run_of_clean clean, run_of_clean clean', names]
    have machine : (Stmt.runAll limit (Script.ofText text).statements ⟨s.environment, .empty⟩).2 =
        (Stmt.runAll limit (Script.ofText text').statements ⟨s.environment, .empty⟩).2 := machines
    rw [machine]
    obtain ⟨cut, cut'⟩ | ⟨report, report', ends, ends', same⟩ := Ending.report?_flat endings _
    · exact .inl ⟨congrArg (Option.map _) cut, congrArg (Option.map _) cut'⟩
    · exact .inr ⟨report, report', _, congrArg (Option.map _) ends, congrArg (Option.map _) ends',
        same⟩
  · have faulty' : (Script.ofText text').diagnostics ≠ [] := by
      intro clean'
      rw [clean', List.map_nil, eq_comm, List.map_eq_nil_iff] at diagnostics
      exact clean diagnostics
    rw [run_of_faults clean, run_of_faults faulty', names]
    exact .inr ⟨_, _, _, rfl, rfl, rfl, rfl, diagnostics⟩

theorem run_ignores_layout_spread :
    let text := "var a = \"x\"; print a; b = a;"
    let text' := "var a // name\n= \"x\";\nprint/* */a; b\n=a;"
    (Lexical.read text).tokens.map (fun t => (t.kind, t.lexeme)) =
        (Lexical.read text').tokens.map (fun t => (t.kind, t.lexeme)) ∧
      (Lexical.read text).errors.map LexicalError.problem =
        (Lexical.read text').errors.map LexicalError.problem ∧
      ∃ report report' t, Session.empty.run 1 text = some (report, t) ∧
        Session.empty.run 1 text' = some (report', t) ∧ report'.printed = "x\n" ∧
        report'.outcome = report.outcome ∧ report.diagnostics.map Diagnostic.line = [1] ∧
        report'.diagnostics.map Diagnostic.line = [3] ∧
        report'.diagnostics.map Diagnostic.content =
          report.diagnostics.map Diagnostic.content := by
  intro text text'
  have tokens : (Lexical.read text).tokens.map (fun t => (t.kind, t.lexeme)) =
      (Lexical.read text').tokens.map (fun t => (t.kind, t.lexeme)) := by decide +kernel
  have errors : (Lexical.read text).errors.map LexicalError.problem =
      (Lexical.read text').errors.map LexicalError.problem := by decide +kernel
  have lines : (Session.empty.run 1 text).map (fun r => r.1.diagnostics.map Diagnostic.line) =
      some [1] := by decide +kernel
  have shown : (Session.empty.run 1 text').map
      (fun r => (r.1.printed, r.1.diagnostics.map Diagnostic.line)) = some ("x\n", [3]) := by
    decide +kernel
  -- From here on no script is to be run.
  clear_value text text'
  refine ⟨tokens, errors, ?_⟩
  obtain ⟨cut, -⟩ | ⟨report, report', t, ran, ran', -, outcome, content⟩ :=
    run_ignores_layout .empty tokens errors 1
  · rw [cut] at lines
    cases lines
  · rw [ran, Option.map_some, Option.some.injEq] at lines
    rw [ran', Option.map_some, Option.some.injEq, Prod.mk.injEq] at shown
    exact ⟨report, report', t, ran, ran', shown.1, outcome, lines, shown.2, content⟩

end Session
end Lox
