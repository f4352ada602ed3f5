import Lox.Execution.Statement

/-!
A limit that is not reached does not matter: a run that is not cut off ends in the same way under
every larger limit.
-/

namespace Lox

theorem Machine.repeatWhile_mono {condition : Expr} {body body' : Machine → Ending × Machine}
    (hb : ∀ m, (body m).1 ≠ .cutOff → body' m = body m) {n n' : Nat} (hn : n ≤ n') {m : Machine}
    (h : (repeatWhile condition body n m).1 ≠ .cutOff) :
    repeatWhile condition body' n' m = repeatWhile condition body n m := by
  induction n generalizing n' m with
  | zero => exact absurd rfl h
  | succ n ih =>
      obtain ⟨n', rfl⟩ : ∃ k, n' = k + 1 := ⟨n' - 1, by omega⟩
      simp only [repeatWhile] at h ⊢
      split
      · rfl
      · rename_i v m' he
        simp only [he] at h
        split
        · rename_i hv
          simp only [hv, if_true] at h
          cases hc : body m' with
          | mk ending m'' =>
            rw [hc] at h
            cases ending with
            | finished =>
                rw [hb m' (by simp [hc]), hc]
                exact ih (by omega) h
            | failed e =>
                rw [hb m' (by simp [hc]), hc]
            | cutOff => exact absurd rfl h
        · rfl

mutual

theorem Stmt.run_mono {limit limit' : Nat} (hl : limit ≤ limit') (s : Stmt) {m : Machine}
    (h : (s.run limit m).1 ≠ .cutOff) : s.run limit' m = s.run limit m := by
  cases s with
  | expression _ | print _ => rfl
  | declare _ e _ => cases e <;> rfl
  | block body =>
      simp only [Stmt.run, Machine.inScope] at h ⊢
      rw [Stmt.runAll_mono hl body h]
  | ifThen c t =>
      simp only [Stmt.run] at h ⊢
      split
      · rename_i v m' he
        simp only [he] at h
        split
        · rename_i hv
          simp only [hv, if_true] at h
          exact Stmt.run_mono hl t h
        · rfl
      · rfl
  | ifElse c t e =>
      simp only [Stmt.run] at h ⊢
      split
      · rename_i v m' he
        simp only [he] at h
        split
        · rename_i hv
          simp only [hv, if_true] at h
          exact Stmt.run_mono hl t h
        · rename_i hv
          simp only [hv, Bool.false_eq_true, if_false] at h
          exact Stmt.run_mono hl e h
      · rfl
  | loop c b =>
      simp only [Stmt.run] at h ⊢
      exact Machine.repeatWhile_mono (fun m hm => Stmt.run_mono hl b hm) hl h

theorem Stmt.runAll_mono {limit limit' : Nat} (hl : limit ≤ limit') (body : List Stmt)
    {m : Machine} (h : (Stmt.runAll limit body m).1 ≠ .cutOff) :
    Stmt.runAll limit' body m = Stmt.runAll limit body m := by
  cases body with
  | nil => rfl
  | cons s rest =>
      simp only [Stmt.runAll] at h ⊢
      cases hc : s.run limit m with
      | mk ending m' =>
        rw [hc] at h
        cases ending with
        | finished =>
            rw [Stmt.run_mono hl s (by simp [hc]), hc]
            exact Stmt.runAll_mono hl rest h
        | failed e =>
            rw [Stmt.run_mono hl s (by simp [hc]), hc]
        | cutOff => exact absurd rfl h

end

end Lox
