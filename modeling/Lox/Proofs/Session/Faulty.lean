import Lox.Proofs.Session.Numbering

/-!
Scripts with errors leave no trace. Such a script is reported and nothing else: no statement of it
is run, and the names that it registers cannot be told from what later scripts do, although these
names move the numbers of later ones.
-/

namespace Lox

namespace Session

structure Agrees (s s' : Session) : Prop where
  environment : s'.environment = s.environment
  names : s.names.Within s'.names

/-- A script does the same in sessions that agree, and leaves sessions that agree. -/
theorem Agrees.run {s s' : Session} (h : s.Agrees s') (limit : Nat) (text : String) :
    s.run limit text = none ∧ s'.run limit text = none ∨
      ∃ report t t', s.run limit text = some (report, t) ∧ s'.run limit text = some (report, t') ∧
        t.Agrees t' := by
  have names : (s.namesWith text).Within (s'.namesWith text) := h.names.insertTokens _
  by_cases clean : (Script.ofText text).diagnostics = []
  · rw [run_of_clean clean, run_of_clean clean, h.environment]
    cases (Stmt.runAll limit (Script.ofText text).statements ⟨s.environment, .empty⟩).1 with
    | cutOff => exact .inl ⟨rfl, rfl⟩
    | finished | failed => exact .inr ⟨_, _, _, rfl, rfl, rfl, names⟩
  · rw [run_of_faults clean, run_of_faults clean]
    exact .inr ⟨_, _, _, rfl, rfl, h.environment, names⟩

/-- Scripts one after the other do the same in sessions that agree. -/
theorem Agrees.runs {s s' : Session} (h : s.Agrees s') (later : List (Nat × String)) :
    s.runs later = none ∧ s'.runs later = none ∨
      ∃ reports t t', s.runs later = some (reports, t) ∧ s'.runs later = some (reports, t') ∧
        t.Agrees t' := by
  induction later generalizing s s' with
  | nil => exact .inr ⟨[], s, s', rfl, rfl, h⟩
  | cons script rest ih =>
      simp only [Session.runs]
      obtain ⟨cut, cut'⟩ | ⟨report, t, t', first, first', agree⟩ := h.run script.1 script.2
      · rw [cut, cut']
        exact .inl ⟨rfl, rfl⟩
      · rw [first, first', Option.bind_some, Option.bind_some]
        obtain ⟨cut, cut'⟩ | ⟨reports, u, u', more, more', agree⟩ := ih agree
        · rw [cut, cut']
          exact .inl ⟨rfl, rfl⟩
        · rw [more, more']
          exact .inr ⟨report :: reports, u, u', rfl, rfl, agree⟩

theorem Reachable.runs {s t : Session} (h : s.Reachable) {later : List (Nat × String)}
    {reports : List Report} (hr : s.runs later = some (reports, t)) : t.Reachable := by
  induction later generalizing s reports with
  | nil =>
      cases hr
      exact h
  | cons script rest ih =>
      rw [Session.runs, Option.bind_eq_some_iff] at hr
      obtain ⟨first, ran, hr⟩ := hr
      obtain ⟨more, ran', same⟩ := Option.map_eq_some_iff.1 hr
      cases same
      exact ih (h.run ran) ran'

end Session
end Lox
