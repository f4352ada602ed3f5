import Lox.Session
import Lox.Proofs.Execution.Frame
import Lox.Proofs.Lexical.Scan
import Lox.Proofs.Names
import Lox.Proofs.Phrase.Program

/-!
Sessions that can come about. What a run of a script amounts to is said once for scripts with errors
and once for those without; all that holds of every session that can come about follows from it.
-/

namespace Lox

theorem Script.diagnostics_eq_nil_iff {text : String} :
    (Script.ofText text).diagnostics = [] ↔ (Lexical.read text).errors = [] ∧
      (Program.ofTokens (Lexical.read text).tokens).faults = [] := by
  rw [diagnostics, List.append_eq_nil_iff, lexicalDiagnostics, Program.diagnostics,
    List.map_eq_nil_iff, List.map_eq_nil_iff]
  rfl

def Ending.report? (output : Output) : Ending → Option Report
  | finished => some ⟨{}, output.text, []⟩
  | failed error => some ⟨{ runtimeError := true }, output.text, [error.diagnostic]⟩
  | cutOff => none

namespace Session

def namesWith (s : Session) (text : String) : NameTable :=
  s.names.insertTokens (Lexical.read text).tokens

theorem run_of_faults {text : String} (h : (Script.ofText text).diagnostics ≠ []) (limit : Nat)
    (s : Session) :
    s.run limit text = some (⟨{ syntaxError := true }, "", (Script.ofText text).diagnostics⟩,
      ⟨s.namesWith text, s.environment⟩) := by
  simp only [run]
  rfl

theorem run_of_clean {text : String} (h : (Script.ofText text).diagnostics = []) (limit : Nat)
    (s : Session) :
    s.run limit text =
      ((Stmt.runAll limit (Script.ofText text).statements ⟨s.environment, .empty⟩).1.report?
        (Stmt.runAll limit (Script.ofText text).statements ⟨s.environment, .empty⟩).2.output).map
          (·, ⟨s.namesWith text,
            (Stmt.runAll limit (Script.ofText text).statements
              ⟨s.environment, .empty⟩).2.environment⟩) := by
  simp only [run, h]
  cases Stmt.runAll limit (Script.ofText text).statements ⟨s.environment, .empty⟩ with
  | mk ending m => cases ending <;> rfl

inductive Reachable : Session → Prop
  | empty : Reachable .empty
  | run {s s' : Session} {limit : Nat} {text : String} {report : Report} (before : Reachable s)
      (h : s.run limit text = some (report, s')) : Reachable s'

/-- A session after a run, or the same one if the run is cut off. -/
theorem Reachable.getD {s : Session} (h : s.Reachable) (limit : Nat) (text : String) :
    (((s.run limit text).map Prod.snd).getD s).Reachable := by
  cases ran : s.run limit text with
  | none => exact h
  | some first => exact .run h ran

structure Sound (s : Session) : Prop where
  linked : s.environment.Linked
  emptyName : s.names.find? "" = some .empty
  numbered : ∀ x, s.environment.stack.Binds x → (s.names.find? x).isSome

theorem sound_empty : Sound .empty where
  linked := Environment.linked_empty
  emptyName := by decide +kernel
  numbered x h := absurd h (Environment.not_binds_empty x)

end Session

/-- The name of a declaration in a program without a fault is the text of a token. -/
theorem Program.exists_token_of_declared {tokens : List Token}
    (clean : (ofTokens tokens).faults = []) {x : String}
    (h : x ∈ Stmt.allDeclared (ofTokens tokens).statements) : ∃ t ∈ tokens, t.lexeme = x := by
  obtain ⟨init, line, declared⟩ := Stmt.mem_allDeclared.1 h
  obtain ⟨parts, words, statements, worded⟩ := wording_of_faults_nil clean
  rw [statements] at declared
  obtain ⟨⟨w, s, tail⟩, mem, hs⟩ := List.mem_map.1 declared
  have inside : ∀ t ∈ w, t ∈ tokens := fun t ht =>
    List.takeWhile_subset _ (words ▸ List.mem_flatMap.2 ⟨_, mem, ht⟩)
  have wording : Stmt.Wording w s tail := worded _ mem
  dsimp only at hs
  cases wording with
  | declaring h =>
      cases h with
      | bare =>
          cases hs
          exact ⟨_, inside _ (by simp), rfl⟩
      | initialized =>
          cases hs
          exact ⟨_, inside _ (by simp), rfl⟩
  | evaluating h =>
      cases h
      cases hs
  | forLoop =>
      have loop := congrArg Stmt.isDeclaration hs
      rw [Reader.isDeclaration_forLoop] at loop
      cases loop
  | _ => cases hs

namespace Session

theorem Sound.run {s s' : Session} (sound : s.Sound) {limit : Nat} {text : String} {report : Report}
    (h : s.run limit text = some (report, s')) : s'.Sound := by
  have known (x : String) (hx : (s.names.find? x).isSome) : ((s.namesWith text).find? x).isSome :=
    s.names.within_insertTokens _ x hx
  have emptyName : (s.namesWith text).find? "" = some .empty :=
    NameTable.find?_insertTokens _ sound.emptyName
  by_cases clean : (Script.ofText text).diagnostics = []
  · rw [run_of_clean clean, Option.map_eq_some_iff] at h
    obtain ⟨r, -, hs⟩ := h
    cases hs
    have grows := Stmt.grows_runAll limit (Script.ofText text).statements
      (Program.placed_ofTokens _) (m := ⟨s.environment, .empty⟩) sound.linked
    refine ⟨grows.linked, emptyName, fun x hx => ?_⟩
    obtain old | declared := grows.stack.binds_of hx
    · exact known x (sound.numbered x old)
    · obtain ⟨t, ht, rfl⟩ := Program.exists_token_of_declared
        (Script.diagnostics_eq_nil_iff.1 clean).2 declared
      exact NameTable.isSome_find?_insertTokens _ ht t.lexeme_mem_names
  · rw [run_of_faults clean] at h
    cases h
    exact ⟨sound.linked, emptyName, fun x hx => known x (sound.numbered x hx)⟩

theorem Reachable.sound {s : Session} (h : s.Reachable) : s.Sound := by
  induction h with
  | empty => exact sound_empty
  | run _ h ih => exact ih.run h

/-- Runs scripts one after the other, each with a limit of its own; none if one of them is cut
off. -/
def runs : List (Nat × String) → Session → Option (List Report × Session)
  | [], s => some ([], s)
  | (limit, text) :: rest, s =>
      (s.run limit text).bind fun first =>
        (runs rest first.2).map fun more => (first.1 :: more.1, more.2)

end Session
end Lox
