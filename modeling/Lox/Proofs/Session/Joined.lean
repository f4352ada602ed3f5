import Lox.Proofs.Execution.Visit
import Lox.Proofs.Lexical.Seam
import Lox.Proofs.Lexical.Tokens
import Lox.Proofs.Relabel.Reading
import Lox.Proofs.Relabel.Running
import Lox.Proofs.Session.Reachable

/-!
Scripts one after the other and scripts joined. A session that runs two scripts, and one that runs
the two as a single text with a newline between them, cannot be told apart, except that errors of
the second script are as many lines further down as it stands in the joined text.
-/

namespace Lox

namespace Lexical

def EndsInComment (text : List Char) : Prop :=
  ∃ body, (segments text).getLast? = some (.comment ('/' :: '*' :: body)) ∧
    ¬['*', '/'] <:+: body

theorem error?_eq_none_of_mem {line : Nat} {found : List Segment}
    (h : scan Segment.error? line found = []) {s : Segment} (hs : s ∈ found) :
    ∃ line, s.error? line = none := by
  induction found generalizing line with
  | nil => cases hs
  | cons s' rest ih =>
      rw [scan, List.append_eq_nil_iff, Option.toList_eq_nil_iff] at h
      cases hs with
      | head => exact ⟨_, h.1⟩
      | tail _ hs => exact ih h.2 hs

/-- In a text without errors, only a block comment can be open at the end. -/
theorem closed_of_clean {text : String} (clean : (read text).errors = [])
    (h : ¬EndsInComment text.toList) : ∀ s ∈ segments text.toList, s.Closed := by
  rw [read_eq] at clean
  refine closed_of_last fun s last => ?_
  obtain ⟨line, regular⟩ := error?_eq_none_of_mem clean (List.mem_of_getLast? last)
  cases s with
  | openString => cases regular
  | comment w =>
      refine Segment.closed_comment_iff.2 fun body hw => ?_
      by_contra unclosed
      exact h ⟨body, hw ▸ last, unclosed⟩
  | _ => trivial

end Lexical

namespace Program

theorem Wording.append {front back : List Token} {body body' : List Stmt} (h : Wording front body)
    (h' : Wording back body') : Wording (front ++ back) (body ++ body') := by
  obtain ⟨parts, rfl, rfl, worded⟩ := h
  obtain ⟨parts', rfl, rfl, worded'⟩ := h'
  exact ⟨parts ++ parts', List.flatMap_append.symm, List.map_append.symm,
    List.forall_mem_append.2 ⟨worded, worded'⟩⟩

/-- Tokens without a fault, put one after the other, are read one after the other. -/
theorem ofTokens_append {front back : List Token} {mark : Token}
    (regular : ∀ t ∈ front, t.kind ≠ .eof) (hm : mark.kind = .eof)
    (clean : (ofTokens (front ++ [mark])).faults = []) (clean' : (ofTokens back).faults = []) :
    (ofTokens (front ++ back)).faults = [] ∧ (ofTokens (front ++ back)).statements =
      (ofTokens (front ++ [mark])).statements ++ (ofTokens back).statements := by
  have worded := wording_of_faults_nil clean
  rw [body_append_eof regular hm] at worded
  have whole : body (front ++ back) = front ++ body back :=
    List.takeWhile_append_of_pos (by simpa using regular)
  have read := ofTokens_of_wording (whole ▸ worded.append (wording_of_faults_nil clean'))
  exact ⟨congrArg faults read, congrArg statements read⟩

end Program

/-- A script and then another one, joined by a newline, are read as their statements in a row. -/
theorem Script.ofText_append {text back : String} (clean : (ofText text).diagnostics = [])
    (clean' : (ofText back).diagnostics = []) (h : ¬Lexical.EndsInComment text.toList) :
    (ofText (text ++ "\n" ++ back)).diagnostics = [] ∧
      (ofText (text ++ "\n" ++ back)).statements = (ofText text).statements ++
        Stmt.relabelAll (.below (text.toList.count '\n' + 1)) (ofText back).statements := by
  rw [diagnostics_eq_nil_iff] at clean clean'
  have joined := Lexical.read_append (Lexical.closed_of_clean clean.1 h) back
  obtain ⟨front, line, tokens, regular⟩ := Lexical.read_tokens text
  have nonempty : (Lexical.read back).tokens ≠ [] := by
    rw [Lexical.read_eq]
    simp
  have further := Program.ofTokens_relabel (.below (text.toList.count '\n' + 1)) _ nonempty
  have read := Program.ofTokens_append (fun t ht => (regular t ht).1) rfl (tokens ▸ clean.2)
    (by rw [further, clean'.2]; rfl)
  rw [diagnostics_eq_nil_iff]
  show (_ ∧ _) ∧ (Program.ofTokens (Lexical.read _).tokens).statements =
    (Program.ofTokens (Lexical.read text).tokens).statements ++
      Stmt.relabelAll _ (Program.ofTokens (Lexical.read back).tokens).statements
  rw [joined, tokens, List.dropLast_concat]
  refine ⟨⟨?_, read.1⟩, ?_⟩
  · rw [clean.1, clean'.1]
    rfl
  · rw [read.2, further, Stmt.relabelAll_eq]

def Diagnostic.below (lines : Nat) (d : Diagnostic) : Diagnostic :=
  { d with line := d.line + lines }

def Report.after (printed : String) (lines : Nat) (r : Report) : Report where
  outcome := r.outcome
  printed := printed ++ r.printed
  diagnostics := r.diagnostics.map (Diagnostic.below lines)

theorem Ending.report?_relabel (ending : Ending) (printed : String) (output : Output)
    (lines : Nat) :
    (ending.relabel (· + lines)).report? ⟨printed ++ output.text⟩ =
      (ending.report? output).map (Report.after printed lines) := by
  cases ending <;> rfl

/-- Statements that many lines further down do what they do on a machine that has not printed
anything. -/
theorem Stmt.runAll_below (lines limit : Nat) (body : List Stmt) (m : Machine) :
    runAll limit (relabelAll (.below lines) body) m =
      ((runAll limit body ⟨m.environment, .empty⟩).1.relabel (· + lines),
        (runAll limit body ⟨m.environment, .empty⟩).2.after m.output.text) := by
  obtain ⟨environment, output⟩ := m
  have fresh : Machine.after output.text ⟨environment, .empty⟩ = ⟨environment, output⟩ :=
    congrArg (Machine.mk environment ⟨·⟩) String.append_empty
  have run := runAll_relabel (· + lines) output.text limit body ⟨environment, .empty⟩
  rwa [fresh] at run

namespace Session

/-- More scripts are registered one after the other as joined. -/
theorem Sound.namesWith_append {s : Session} (sound : s.Sound) {text : String}
    (closed : ∀ segment ∈ Lexical.segments text.toList, segment.Closed) (back : String)
    (environment : Environment) :
    s.namesWith (text ++ "\n" ++ back) = namesWith ⟨s.namesWith text, environment⟩ back := by
  obtain ⟨front, line, tokens, -⟩ := Lexical.read_tokens text
  have known : (s.names.insertTokens front).find? "" = some .empty :=
    NameTable.find?_insertTokens _ sound.emptyName
  rw [namesWith, namesWith, namesWith, Lexical.read_append closed, tokens, List.dropLast_concat,
    NameTable.insertTokens_append, NameTable.insertTokens_append, NameTable.insertTokens_below,
    NameTable.insertTokens_eofAt known]

/-- A limit that is not reached does not matter. -/
theorem run_mono {s t : Session} {limit limit' : Nat} (hl : limit ≤ limit') {text : String}
    {report : Report} (h : s.run limit text = some (report, t)) :
    s.run limit' text = some (report, t) := by
  by_cases clean : (Script.ofText text).diagnostics = []
  · rw [run_of_clean clean] at h ⊢
    rw [Stmt.runAll_mono hl]
    · exact h
    · intro cut
      rw [cut] at h
      cases h
  · rw [run_of_faults clean] at h ⊢
    exact h

/-- Two scripts without errors, of which the first does not end inside a comment, joined by a
newline. If the first one is cut off or fails, so does the joined one, with the same report and the
same bindings; otherwise the joined one goes on with what the second one does after the first, whose
report is that of the second one after the first. -/
theorem run_joined {s : Session} (reachable : s.Reachable) {text back : String}
    (clean : (Script.ofText text).diagnostics = []) (clean' : (Script.ofText back).diagnostics = [])
    (closed : ¬Lexical.EndsInComment text.toList) (limit : Nat) :
    (s.run limit text = none → s.run limit (text ++ "\n" ++ back) = none) ∧
      ∀ report t, s.run limit text = some (report, t) → ∀ limit', limit ≤ limit' →
        (report.outcome.success = true → s.run limit' (text ++ "\n" ++ back) =
          (t.run limit' back).map fun second =>
            (second.1.after report.printed (text.toList.count '\n' + 1), second.2)) ∧
        (report.outcome.success = false → ∃ t',
          s.run limit' (text ++ "\n" ++ back) = some (report, t') ∧
            t'.environment = t.environment) := by
  obtain ⟨cleanJoined, statements⟩ := Script.ofText_append clean clean' closed
  have names := reachable.sound.namesWith_append
    (Lexical.closed_of_clean (Script.diagnostics_eq_nil_iff.1 clean).1 closed) back
  have joined (limit : Nat) := run_of_clean cleanJoined limit s
  simp only [statements, Stmt.runAll_append, Stmt.runAll_below, Machine.after] at joined
  have first (limit : Nat) := run_of_clean clean limit s
  refine ⟨fun cut => ?_, fun report t ran limit' hl => ?_⟩
  · rw [first] at cut
    rw [joined]
    cases part : Stmt.runAll limit (Script.ofText text).statements ⟨s.environment, .empty⟩ with
    | mk ending m =>
        rw [part] at cut
        cases ending with
        | finished | failed => cases cut
        | cutOff => rfl
  · replace ran := run_mono hl ran
    rw [first] at ran
    rw [joined]
    cases part : Stmt.runAll limit' (Script.ofText text).statements ⟨s.environment, .empty⟩ with
    | mk ending m =>
        rw [part] at ran
        cases ending with
        | cutOff => cases ran
        | finished =>
            cases ran
            refine ⟨fun _ => ?_, fun failed => by cases failed⟩
            rw [if_pos rfl, Ending.report?_relabel, run_of_clean clean', names m.environment,
              Option.map_map, Option.map_map]
            rfl
        | failed e =>
            cases ran
            exact ⟨fun finished => (by cases finished), fun _ => ⟨_, rfl, rfl⟩⟩

theorem run_joined_both_ways :
    let s := ((Session.empty.run 1 "var a;").map Prod.snd).getD .empty
    let text := "print a;/**/"
    let back := "\nb;"
    s.Reachable ∧ (Script.ofText text).diagnostics = [] ∧ (Script.ofText back).diagnostics = [] ∧
      ¬Lexical.EndsInComment text.toList ∧ ¬Lexical.EndsInComment back.toList ∧
      ∃ report t second t' failure u u',
        s.run 1 text = some (report, t) ∧ t.run 1 back = some (second, t') ∧
        report.printed = "nil\n" ∧ second.diagnostics.map Diagnostic.line = [2] ∧
        s.run 1 (text ++ "\n" ++ back) = some (second.after "nil\n" 1, t') ∧
        s.run 1 back = some (failure, u) ∧
        s.run 1 (back ++ "\n" ++ text) = some (failure, u') ∧ u'.environment = u.environment := by
  intro s text back
  have reachable : s.Reachable := .getD .empty 1 "var a;"
  have clean : (Script.ofText text).diagnostics = [] := by decide +kernel
  have clean' : (Script.ofText back).diagnostics = [] := by decide +kernel
  have closed : ¬Lexical.EndsInComment text.toList := by
    have last : (Lexical.segments text.toList).getLast? = some (.comment ['/', '*', '*', '/']) := by
      decide +kernel
    rintro ⟨body, comment, unclosed⟩
    cases last.symm.trans comment
    exact unclosed (List.infix_refl _)
  have closed' : ¬Lexical.EndsInComment back.toList := by
    have last : (Lexical.segments back.toList).getLast? = some (.token .semicolon [';']) := by
      decide +kernel
    rintro ⟨body, comment, -⟩
    cases last.symm.trans comment
  have lines : text.toList.count '\n' = 0 := by decide +kernel
  have shown : (s.run 1 text).map (fun r => (r.1.outcome.success, r.1.printed)) =
      some (true, "nil\n") := by decide +kernel
  have shown' : ((s.run 1 text).bind fun r => r.2.run 1 back).map
      (fun r => r.1.diagnostics.map Diagnostic.line) = some [2] := by decide +kernel
  have fails : (s.run 1 back).map (fun r => r.1.outcome.success) = some false := by decide +kernel
  -- From here on no script is to be run.
  clear_value s text back
  obtain ⟨⟨report, t⟩, ran, same⟩ := Option.map_eq_some_iff.1 shown
  obtain ⟨success, printed⟩ : report.outcome.success = true ∧ report.printed = "nil\n" :=
    Prod.ext_iff.1 same
  rw [ran, Option.bind_some] at shown'
  obtain ⟨⟨second, t'⟩, ran', line⟩ := Option.map_eq_some_iff.1 shown'
  obtain ⟨⟨failure, u⟩, ranBack, failed⟩ := Option.map_eq_some_iff.1 fails
  have joined :=
    ((run_joined reachable clean clean' closed 1).2 report t ran 1 (le_refl 1)).1 success
  obtain ⟨u', joined', bindings⟩ :=
    ((run_joined reachable clean' clean closed' 1).2 failure u ranBack 1 (le_refl 1)).2 failed
  rw [ran', lines, Option.map_some, printed] at joined
  exact ⟨reachable, clean, clean', closed, closed', report, t, second, t', failure, u, u', ran,
    ran', printed, line, joined, ranBack, joined', bindings⟩

end Session
end Lox
