import Lox.Execution.Limit
import Lox.Proofs.Execution.Evaluation

/-!
Runs on a store of linked scopes do what the rules derive over the stack that the store shows. A run
comes to an end exactly if the rules derive that end, with the same output and the same stack, and
it goes on for ever exactly if they derive none.
-/

namespace Lox

namespace Output

theorem print_empty (o : Output) : o.print "" = o :=
  congrArg Output.mk String.append_empty

theorem print_print (o : Output) (a b : String) : (o.print a).print b = o.print (a ++ b) :=
  congrArg Output.mk String.append_assoc

end Output

def Ending.of : Except RuntimeError Unit → Ending
  | .ok _ => .finished
  | .error x => .failed x

namespace Ending

variable {r : Except RuntimeError Unit} {m m' : Machine}

theorem eq_of_finished (h : (finished, m) = (of r, m')) : r = .ok () ∧ m' = m := by
  cases r <;> cases h
  exact ⟨rfl, rfl⟩

theorem eq_of_failed {x : RuntimeError} (h : (failed x, m) = (of r, m')) :
    r = .error x ∧ m' = m := by
  cases r <;> cases h
  exact ⟨rfl, rfl⟩

theorem of_ne_cutOff (r : Except RuntimeError Unit) : of r ≠ .cutOff := by
  cases r <;> simp [of]

end Ending

namespace Passage

def run (limit : Nat) : Passage → Machine → Ending × Machine
  | one s, m => s.run limit m
  | all body, m => Stmt.runAll limit body m

/-- The rules derive a result, and what a machine printed and became on the way to it. -/
def Derives (p : Passage) (m : Machine) (r : Except RuntimeError Unit) (m' : Machine) : Prop :=
  m'.environment.Linked ∧ ∃ o, m'.output = m.output.print o ∧
    p.Executes m.environment.stack r o m'.environment.stack

namespace Derives

variable {p q : Passage} {m m₁ m' : Machine} {r : Except RuntimeError Unit}

theorem of_silent (linked : m'.environment.Linked) (out : m'.output = m.output)
    (h : p.Executes m.environment.stack r "" m'.environment.stack) : p.Derives m r m' :=
  ⟨linked, "", by rw [out, Output.print_empty], h⟩

theorem of_finished (hr : (Ending.finished, m₁) = (Ending.of r, m'))
    (linked : m₁.environment.Linked) (out : m₁.output = m.output)
    (h : p.Executes m.environment.stack (.ok ()) "" m₁.environment.stack) : p.Derives m r m' := by
  obtain ⟨rfl, rfl⟩ := Ending.eq_of_finished hr
  exact of_silent linked out h

theorem of_failed {x : RuntimeError} (hr : (Ending.failed x, m₁) = (Ending.of r, m'))
    (linked : m₁.environment.Linked) (out : m₁.output = m.output)
    (h : p.Executes m.environment.stack (.error x) "" m₁.environment.stack) :
    p.Derives m r m' := by
  obtain ⟨rfl, rfl⟩ := Ending.eq_of_failed hr
  exact of_silent linked out h

theorem after_silent (h : p.Derives m₁ r m') (out : m₁.output = m.output)
    (rule : ∀ o, p.Executes m₁.environment.stack r o m'.environment.stack →
      q.Executes m.environment.stack r o m'.environment.stack) : q.Derives m r m' := by
  obtain ⟨linked, o, printed, derived⟩ := h
  exact ⟨linked, o, out ▸ printed, rule o derived⟩

end Derives
end Passage

namespace Machine

theorem eval_cases (e : Expr) {m : Machine} (h : m.environment.Linked) :
    (∃ v m', m.eval e = (.ok v, m') ∧ m'.environment.Linked ∧ m'.output = m.output ∧
      e.Evaluates m.environment.stack (.ok v) m'.environment.stack) ∨
    (∃ x m', m.eval e = (.error x, m') ∧ m'.environment.Linked ∧ m'.output = m.output ∧
      e.Evaluates m.environment.stack (.error x) m'.environment.stack) := by
  obtain ⟨linked, derived⟩ := e.evaluates_eval h
  have he : m.eval e = ((e.eval m.environment).1, ⟨(e.eval m.environment).2, m.output⟩) := rfl
  rw [he]
  cases hr : (e.eval m.environment).1 with
  | ok v => exact .inl ⟨v, _, rfl, linked, rfl, hr ▸ derived⟩
  | error x => exact .inr ⟨x, _, rfl, linked, rfl, hr ▸ derived⟩

/-- If the turns of a loop do what the rules derive, so does the loop. -/
theorem derives_repeatWhile {condition : Expr} {s : Stmt} {body : Machine → Ending × Machine}
    (sound : ∀ {m m' r}, m.environment.Linked → body m = (Ending.of r, m') →
      (Passage.one s).Derives m r m') (n : Nat) {m m' : Machine} {r : Except RuntimeError Unit}
    (h : m.environment.Linked) (hr : repeatWhile condition body n m = (Ending.of r, m')) :
    (Passage.one (.loop condition s)).Derives m r m' := by
  induction n generalizing m with
  | zero => exact absurd (Prod.mk.inj hr).1.symm (Ending.of_ne_cutOff r)
  | succ n ih =>
      obtain ⟨v, m₁, he, linked, out, derived⟩ | ⟨x, m₁, he, linked, out, derived⟩ :=
        eval_cases condition h
      · simp only [repeatWhile, he] at hr
        by_cases hv : v.truthy = true
        · simp only [hv, if_true] at hr
          have truthy := Value.truthy_iff.1 hv
          cases hb : body m₁ with
          | mk ending m₂ =>
              rw [hb] at hr
              cases ending with
              | finished =>
                  obtain ⟨linked₂, o, printed, turn⟩ := sound (r := .ok ()) linked hb
                  obtain ⟨linked', o', printed', more⟩ := ih linked₂ hr
                  refine ⟨linked', o ++ o', ?_, .loopTurn derived truthy turn more⟩
                  rw [printed', printed, out, Output.print_print]
              | failed x =>
                  obtain ⟨rfl, rfl⟩ := Ending.eq_of_failed hr
                  have turn := sound (r := .error x) linked hb
                  exact turn.after_silent out fun o => .loopBodyFails derived truthy
              | cutOff => exact absurd (Prod.mk.inj hr).1.symm (Ending.of_ne_cutOff r)
        · simp only [hv] at hr
          exact .of_finished hr linked out (.loopEnds derived (mt Value.truthy_iff.2 hv))
      · simp only [repeatWhile, he] at hr
        exact .of_failed hr linked out (.loopFails derived)

theorem derives_define {p : Passage} {m m₁ : Machine} {name : String} {v : Value}
    (linked : m₁.environment.Linked) (out : m₁.output = m.output)
    (rule : ∀ f σ, m₁.environment.stack = f :: σ →
      (m₁.define name v).environment.stack = f.insert name v :: σ →
      p.Executes m.environment.stack (.ok ()) "" (m₁.define name v).environment.stack) :
    p.Derives m (.ok ()) (m₁.define name v) := by
  obtain ⟨f, σ, hs⟩ := List.exists_cons_of_ne_nil m₁.environment.stack_ne_nil
  obtain ⟨linked', hs'⟩ := linked.define hs name v
  exact .of_silent linked' out (rule f σ hs hs')

/-- If statements do what the rules derive, so does the block that they make. -/
theorem derives_inScope {body : List Stmt} {run : Machine → Ending × Machine}
    (sound : ∀ {m m' r}, m.environment.Linked → run m = (Ending.of r, m') →
      (Passage.all body).Derives m r m') {m m' : Machine} {r : Except RuntimeError Unit}
    (h : m.environment.Linked) (hr : m.inScope run = (Ending.of r, m')) :
    (Passage.one (.block body)).Derives m r m' := by
  obtain ⟨linked, stack⟩ := h.push
  cases hb : run m.push with
  | mk ending m₁ =>
      rw [inScope, hb] at hr
      obtain ⟨rfl, rfl⟩ := Prod.mk.inj hr
      obtain ⟨linked₁, o, printed, derived⟩ := sound linked hb
      replace derived : (Passage.all body).Executes (∅ :: m.environment.stack) r o
          m₁.environment.stack := stack ▸ derived
      obtain ⟨f, σ, hs, hσ⟩ := derived.exists_cons m.environment.stack_ne_nil
      obtain ⟨linked', hs'⟩ := linked₁.pop hs hσ
      rw [hs] at derived
      replace hs' : m₁.pop.environment.stack = σ := hs'
      exact ⟨linked', o, printed, hs' ▸ .block derived⟩

end Machine

mutual

/-- What a statement comes to is what the rules derive. -/
theorem Stmt.derives_run (limit : Nat) (s : Stmt) {m m' : Machine}
    {r : Except RuntimeError Unit} (h : m.environment.Linked)
    (hr : s.run limit m = (Ending.of r, m')) : (Passage.one s).Derives m r m' := by
  -- Along the recursion of the run: blocks and loops get the fact about their parts from here.
  cases s with
  | expression e =>
      obtain ⟨v, m₁, he, linked, out, derived⟩ | ⟨x, m₁, he, linked, out, derived⟩ :=
        Machine.eval_cases e h
      · simp only [Stmt.run, he] at hr
        exact .of_finished hr linked out (.expression derived)
      · simp only [Stmt.run, he] at hr
        exact .of_failed hr linked out (.expressionFails derived)
  | print e =>
      obtain ⟨v, m₁, he, linked, out, derived⟩ | ⟨x, m₁, he, linked, out, derived⟩ :=
        Machine.eval_cases e h
      · simp only [Stmt.run, he] at hr
        obtain ⟨rfl, rfl⟩ := Ending.eq_of_finished hr
        refine ⟨linked, v.text ++ "\n", ?_, .print derived⟩
        rw [← out, ← Output.print_print]
        rfl
      · simp only [Stmt.run, he] at hr
        exact .of_failed hr linked out (.printFails derived)
  | declare name init line =>
      cases init with
      | none =>
          obtain ⟨rfl, rfl⟩ := Ending.eq_of_finished hr
          exact Machine.derives_define h rfl fun f σ hs hs' => hs ▸ hs' ▸ .declareNil name line f σ
      | some e =>
          obtain ⟨v, m₁, he, linked, out, derived⟩ | ⟨x, m₁, he, linked, out, derived⟩ :=
            Machine.eval_cases e h
          · simp only [Stmt.run, he] at hr
            obtain ⟨rfl, rfl⟩ := Ending.eq_of_finished hr
            refine Machine.derives_define linked out fun f σ hs hs' => ?_
            rw [hs] at derived
            exact hs' ▸ .declare derived
          · simp only [Stmt.run, he] at hr
            exact .of_failed hr linked out (.declareFails derived)
  | block body => exact Machine.derives_inScope (Stmt.derives_runAll limit body) h hr
  | ifThen e s =>
      obtain ⟨v, m₁, he, linked, out, derived⟩ | ⟨x, m₁, he, linked, out, derived⟩ :=
        Machine.eval_cases e h
      · simp only [Stmt.run, he] at hr
        by_cases hv : v.truthy = true
        · rw [if_pos hv] at hr
          have branch := Stmt.derives_run limit s linked hr
          exact branch.after_silent out fun o => .ifThen derived (Value.truthy_iff.1 hv)
        · rw [if_neg hv] at hr
          exact .of_finished hr linked out (.ifSkipped derived (mt Value.truthy_iff.2 hv))
      · simp only [Stmt.run, he] at hr
        exact .of_failed hr linked out (.ifFails derived)
  | ifElse e s s' =>
      obtain ⟨v, m₁, he, linked, out, derived⟩ | ⟨x, m₁, he, linked, out, derived⟩ :=
        Machine.eval_cases e h
      · simp only [Stmt.run, he] at hr
        by_cases hv : v.truthy = true
        · rw [if_pos hv] at hr
          have branch := Stmt.derives_run limit s linked hr
          exact branch.after_silent out fun o => .ifElse derived (Value.truthy_iff.1 hv)
        · rw [if_neg hv] at hr
          have branch := Stmt.derives_run limit s' linked hr
          exact branch.after_silent out fun o => .elseBranch derived (mt Value.truthy_iff.2 hv)
      · simp only [Stmt.run, he] at hr
        exact .of_failed hr linked out (.ifElseFails derived)
  | loop e s => exact Machine.derives_repeatWhile (Stmt.derives_run limit s) limit h hr

theorem Stmt.derives_runAll (limit : Nat) (body : List Stmt) {m m' : Machine}
    {r : Except RuntimeError Unit} (h : m.environment.Linked)
    (hr : Stmt.runAll limit body m = (Ending.of r, m')) : (Passage.all body).Derives m r m' := by
  cases body with
  | nil =>
      exact .of_finished hr h rfl (.nil _)
  | cons s rest =>
      rw [Stmt.runAll] at hr
      cases hb : s.run limit m with
      | mk ending m₁ =>
          rw [hb] at hr
          cases ending with
          | finished =>
              obtain ⟨linked, o, printed, first⟩ := Stmt.derives_run limit s (r := .ok ()) h hb
              obtain ⟨linked', o', printed', more⟩ := Stmt.derives_runAll limit rest linked hr
              refine ⟨linked', o ++ o', ?_, .cons first more⟩
              rw [printed', printed, Output.print_print]
          | failed x =>
              obtain ⟨rfl, rfl⟩ := Ending.eq_of_failed hr
              have first := Stmt.derives_run limit s (r := .error x) h hb
              exact first.after_silent rfl fun o => .consFails
          | cutOff => exact absurd (Prod.mk.inj hr).1.symm (Ending.of_ne_cutOff r)

end

namespace Passage

/-- From some limit on, a passage ends in the same way, after the same output and on the same
stack. -/
def Ends (p : Passage) (m : Machine) (r : Except RuntimeError Unit) (o : String) (σ : Stack) :
    Prop :=
  ∃ env limit, env.Linked ∧ env.stack = σ ∧
    ∀ n, limit ≤ n → p.run n m = (Ending.of r, ⟨env, m.output.print o⟩)

theorem Ends.of_silent {p : Passage} {m : Machine} {r : Except RuntimeError Unit} {σ : Stack}
    {env : Environment} (linked : env.Linked) (hs : env.stack = σ)
    (h : ∀ n, p.run (n + 1) m = (Ending.of r, ⟨env, m.output⟩)) : p.Ends m r "" σ := by
  refine ⟨env, 1, linked, hs, fun n hn => ?_⟩
  obtain ⟨k, rfl⟩ := Nat.exists_eq_succ_of_ne_zero (Nat.ne_of_gt hn)
  rw [h k, Output.print_empty]

theorem Ends.congr {p q : Passage} {m m₁ : Machine} {r : Except RuntimeError Unit} {o : String}
    {σ : Stack} (h : p.Ends m₁ r o σ) (out : m₁.output = m.output)
    (step : ∀ n, q.run n m = p.run n m₁) : q.Ends m r o σ := by
  obtain ⟨env, limit, linked, hs, run⟩ := h
  exact ⟨env, limit, linked, hs, fun n hn => by rw [step, run n hn, out]⟩

/-- What the rules derive is what a passage comes to if its loops may turn often enough. -/
theorem Executes.ends {p : Passage} {σ σ' : Stack} {r : Except RuntimeError Unit} {o : String}
    (h : p.Executes σ r o σ') {env : Environment} (linked : env.Linked) (hs : env.stack = σ)
    (out : Output) : p.Ends ⟨env, out⟩ r o σ' := by
  -- Along the derivation. The limit of a whole is the largest of those of its parts, and one more
  -- for each turn of a loop.
  induction h generalizing env out with
  | expression h | expressionFails h | printFails h | declareFails h | ifFails h
  | ifElseFails h =>
      obtain ⟨env', he, linked', hs'⟩ := h.eval_eq linked hs
      exact .of_silent linked' hs' fun n => by simp [run, Stmt.run, Machine.eval, he, Ending.of]
  | print h =>
      obtain ⟨env', he, linked', hs'⟩ := h.eval_eq linked hs
      refine ⟨env', 0, linked', hs', fun n _ => ?_⟩
      simp [run, Stmt.run, Machine.eval, he, Ending.of, Machine.printLine, Output.printLine,
        Output.print_print]
  | declareNil name line f σ =>
      obtain ⟨linked', hs'⟩ := linked.define hs name .nil
      exact .of_silent linked' hs' fun n => rfl
  | @declare name line e σ σ' f v h =>
      obtain ⟨env₁, he, linked₁, hs₁⟩ := h.eval_eq linked hs
      obtain ⟨linked', hs'⟩ := linked₁.define hs₁ name v
      exact .of_silent linked' hs' fun n => by
        simp [run, Stmt.run, Machine.eval, he, Ending.of, Machine.define]
  | @block body σ σ' f r o h ih =>
      obtain ⟨linked₁, hs₁⟩ := linked.push
      rw [hs] at hs₁
      obtain ⟨env₂, limit, linked₂, hs₂, inside⟩ := ih linked₁ hs₁ out
      obtain ⟨f', σ₂, h', hσ⟩ := h.exists_cons (hs ▸ env.stack_ne_nil)
      cases h'
      obtain ⟨linked', hs'⟩ := linked₂.pop hs₂ hσ
      refine ⟨env₂.pop, limit, linked', hs', fun n hn => ?_⟩
      have done : Stmt.runAll n body (Machine.push ⟨env, out⟩) = _ := inside n hn
      rw [run, Stmt.run, Machine.inScope, done]
      rfl
  | ifThen condition hv _ ih | ifElse condition hv _ ih =>
      obtain ⟨env₁, he, linked₁, hs₁⟩ := condition.eval_eq linked hs
      refine (ih linked₁ hs₁ out).congr rfl fun n => ?_
      simp [run, Stmt.run, Machine.eval, he, Value.truthy_iff.2 hv]
  | elseBranch condition hv _ ih =>
      obtain ⟨env₁, he, linked₁, hs₁⟩ := condition.eval_eq linked hs
      refine (ih linked₁ hs₁ out).congr rfl fun n => ?_
      rw [← Value.truthy_iff] at hv
      simp [run, Stmt.run, Machine.eval, he, hv]
  | ifSkipped condition hv =>
      obtain ⟨env₁, he, linked₁, hs₁⟩ := condition.eval_eq linked hs
      rw [← Value.truthy_iff] at hv
      exact .of_silent linked₁ hs₁ fun n => by
        simp [run, Stmt.run, Machine.eval, he, hv, Ending.of]
  | loopEnds condition hv =>
      obtain ⟨env₁, he, linked₁, hs₁⟩ := condition.eval_eq linked hs
      rw [← Value.truthy_iff] at hv
      exact .of_silent linked₁ hs₁ fun n => by
        simp [run, Stmt.run, Machine.repeatWhile, Machine.eval, he, hv, Ending.of]
  | loopFails condition =>
      obtain ⟨env₁, he, linked₁, hs₁⟩ := condition.eval_eq linked hs
      exact .of_silent linked₁ hs₁ fun n => by
        simp [run, Stmt.run, Machine.repeatWhile, Machine.eval, he, Ending.of]
  | @loopTurn e s σ σ₁ σ₂ σ₃ v r o o' condition hv _ _ iht ihr =>
      obtain ⟨env₁, he, linked₁, hs₁⟩ := condition.eval_eq linked hs
      obtain ⟨env₂, limit, linked₂, hs₂, turn⟩ := iht linked₁ hs₁ out
      obtain ⟨env₃, limit', linked₃, hs₃, more⟩ := ihr linked₂ hs₂ (out.print o)
      refine ⟨env₃, max limit limit' + 1, linked₃, hs₃, fun n hn => ?_⟩
      obtain ⟨k, rfl⟩ : ∃ k, n = k + 1 := ⟨n - 1, by omega⟩
      have first : s.run (k + 1) ⟨env₁, out⟩ = (.finished, ⟨env₂, out.print o⟩) :=
        turn (k + 1) (by omega)
      have rest : Machine.repeatWhile e (s.run k) k ⟨env₂, out.print o⟩ = _ := more k (by omega)
      -- The turns left over have one turn less to go, but a larger limit for the loops inside.
      have same := Machine.repeatWhile_mono (fun m => Stmt.run_mono (Nat.le_succ k) s)
        (Nat.le_refl k) (by rw [rest]; exact Ending.of_ne_cutOff r)
      simp [run, Stmt.run, Machine.repeatWhile, Machine.eval, he, Value.truthy_iff.2 hv, first,
        same, rest, Output.print_print]
  | @loopBodyFails e s σ σ₁ σ₂ v x o condition hv _ ih =>
      obtain ⟨env₁, he, linked₁, hs₁⟩ := condition.eval_eq linked hs
      obtain ⟨env₂, limit, linked₂, hs₂, turn⟩ := ih linked₁ hs₁ out
      refine ⟨env₂, limit + 1, linked₂, hs₂, fun n hn => ?_⟩
      obtain ⟨k, rfl⟩ : ∃ k, n = k + 1 := ⟨n - 1, by omega⟩
      have first : s.run (k + 1) ⟨env₁, out⟩ = (.failed x, ⟨env₂, out.print o⟩) :=
        turn (k + 1) (by omega)
      simp [run, Stmt.run, Machine.repeatWhile, Machine.eval, he, Value.truthy_iff.2 hv, first,
        Ending.of]
  | nil σ => exact .of_silent linked hs fun n => rfl
  | @cons s rest σ σ₁ σ₂ r o o' _ _ ihf ihr =>
      obtain ⟨env₁, limit, linked₁, hs₁, head⟩ := ihf linked hs out
      obtain ⟨env₂, limit', linked₂, hs₂, more⟩ := ihr linked₁ hs₁ (out.print o)
      refine ⟨env₂, max limit limit', linked₂, hs₂, fun n hn => ?_⟩
      have first : s.run n ⟨env, out⟩ = (.finished, ⟨env₁, out.print o⟩) := head n (by omega)
      have after : Stmt.runAll n rest ⟨env₁, out.print o⟩ = _ := more n (by omega)
      rw [run, Stmt.runAll, first, ← Output.print_print]
      exact after
  | @consFails s rest σ σ₁ x o _ ih =>
      obtain ⟨env₁, limit, linked₁, hs₁, head⟩ := ih linked hs out
      refine ⟨env₁, limit, linked₁, hs₁, fun n hn => ?_⟩
      have first : s.run n ⟨env, out⟩ = (.failed x, ⟨env₁, out.print o⟩) := head n hn
      rw [run, Stmt.runAll, first]
      rfl

end Passage

end Lox
