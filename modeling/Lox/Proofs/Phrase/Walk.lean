import Mathlib.Data.List.TakeWhile
import Lox.Phrase.Bound
import Lox.Proofs.Phrase.Cursor

/-!
Reading with a cursor. The rules of the readers, followed by one cursor that moves over the tokens
and by a list of the errors that are recorded on the way, find the same statements and the same
faults as the readers do. So what the cursor does at the end of the tokens, and after it has moved
there, is what the readers do with no token left.
-/

namespace Lox

/-- Where a walk over tokens has come to, and the errors recorded so far. -/
structure Trail (tokens : List Token) where
  cursor : Cursor tokens
  errors : List Diagnostic

/-- Reading with a cursor. An error that stops it is not recorded by itself. -/
abbrev Walk (tokens : List Token) (α : Type) : Type :=
  ExceptT Diagnostic (StateM (Trail tokens)) α

namespace Walk

variable {tokens : List Token} {α β : Type}

def current : Walk tokens Token := return (← get).cursor.current

def advance : Walk tokens Token :=
  modifyGet fun trail => (trail.cursor.current, { trail with cursor := trail.cursor.advance })

def record (d : Diagnostic) : Walk tokens Unit :=
  modify fun trail => { trail with errors := trail.errors ++ [d] }

def synchronize : Walk tokens Unit :=
  modify fun trail => { trail with cursor := trail.cursor.synchronize }

def stop (problem : Problem) : Walk tokens α := do
  throw ((← current).report problem)

def eat (kind : Kind) : Walk tokens (Option Token) := do
  if (← current).kind = kind then return some (← advance) else return none

def take (kind : Kind) (problem : Problem) : Walk tokens Token := do
  if (← current).kind = kind then advance else stop problem

def expect (piece : Piece) : Walk tokens Unit := do
  let _ ← take piece.kind (.missing piece)

def optionalBefore (kind : Kind) (p : Walk tokens α) : Walk tokens (Option α) := do
  if (← current).kind = kind then return none else return some (← p)

def attempt (p : Walk tokens α) : Walk tokens (Except Diagnostic α) := ExceptT.lift p.run

def primary (inner : Walk tokens Expr) : Walk tokens Expr := do
  let t ← current
  match t.kind with
  | .falseWord => let _ ← advance; return .literal (.bool false)
  | .trueWord => let _ ← advance; return .literal (.bool true)
  | .nullWord => let _ ← advance; return .literal .nil
  | .number | .string => let _ ← advance; return .literal (t.literal.getD .nil)
  | .identifier => let _ ← advance; return .var t.lexeme t.line
  | .leftParen =>
      let _ ← advance
      let e ← inner
      expect .parenAfterExpression
      return .grouping e
  | _ => stop .noExpression

def signed (unsigned : Walk tokens Expr) : Nat → Walk tokens Expr
  | 0 => unsigned
  | n + 1 => do
      match UnaryOp.ofKind? (← current).kind with
      | none => unsigned
      | some op =>
          let t ← advance
          let operand ← signed unsigned n
          return .unary op t.line operand

def chain (operand : Walk tokens Expr) (rank : Nat) : Nat → Expr → Walk tokens Expr
  | 0, left => return left
  | n + 1, left => do
      match Connective.ofKindAt? rank (← current).kind with
      | none => return left
      | some c =>
          let t ← advance
          let right ← operand
          chain operand rank n (c.join t.line left right)

def ranked (operand : Walk tokens Expr) (n : Nat) : Nat → Walk tokens Expr
  | 0 => operand
  | rank + 1 => do
      let left ← ranked operand n rank
      chain (ranked operand n rank) (rank + 1) n left

def assignment (left value : Walk tokens Expr) : Walk tokens Expr := do
  let target ← left
  match ← eat .equal with
  | none => return target
  | some equals =>
      let v ← value
      match target with
      | .var name line => return .assign name line v
      | other =>
          record (equals.report .invalidTarget)
          return other

def expressionWithin : Nat → Walk tokens Expr
  | 0 => stop .noExpression
  | n + 1 =>
      let operand := signed (primary (expressionWithin n)) (n + 1)
      assignment (ranked operand (n + 1) Connective.loosest) (expressionWithin n)

def expression : Walk tokens Expr := expressionWithin tokens.length

def initialValue : Walk tokens (Option Expr) := do
  match ← eat .equal with
  | some _ => return some (← expression)
  | none => return none

def declaredVariable : Walk tokens Stmt := do
  let name ← take .identifier .noVariableName
  let value ← initialValue
  expect .semicolonAfterDeclaration
  return .declare name.lexeme value name.line

def printed : Walk tokens Stmt := do
  let e ← expression
  expect .semicolonAfterValue
  return .print e

def expressionStatement : Walk tokens Stmt := do
  let e ← expression
  expect .semicolonAfterExpression
  return .expression e

def declaration (statement : Walk tokens Stmt) : Walk tokens Stmt := do
  match ← eat .varWord with
  | some _ => declaredVariable
  | none => statement

def declarationsWithin (one : Walk tokens Stmt) (close : Kind) :
    Nat → List Stmt → Walk tokens (List Stmt)
  | 0, found => return found.reverse
  | n + 1, found => do
      let t ← current
      if t.kind = close ∨ t.kind = .eof then return found.reverse
      else
        match ← attempt one with
        | .ok s => declarationsWithin one close n (s :: found)
        | .error d =>
            record d
            synchronize
            declarationsWithin one close n found

def declarationsUntil (one : Walk tokens Stmt) (close : Kind) : Walk tokens (List Stmt) :=
  declarationsWithin one close tokens.length []

def block (one : Walk tokens Stmt) : Walk tokens Stmt := do
  let body ← declarationsUntil one .rightBrace
  expect .braceAfterBlock
  return .block body

def conditional (statement : Walk tokens Stmt) : Walk tokens Stmt := do
  expect .parenAfterIf
  let condition ← expression
  expect .parenAfterIfCondition
  let thenBranch ← statement
  match ← eat .elseWord with
  | some _ => return .ifElse condition thenBranch (← statement)
  | none => return .ifThen condition thenBranch

def whileLoop (statement : Walk tokens Stmt) : Walk tokens Stmt := do
  expect .parenAfterWhile
  let condition ← expression
  expect .parenAfterWhileCondition
  return .loop condition (← statement)

def initializer : Walk tokens (Option Stmt) := do
  match ← eat .semicolon with
  | some _ => return none
  | none => return some (← declaration expressionStatement)

def forLoop (statement : Walk tokens Stmt) : Walk tokens Stmt := do
  expect .parenAfterFor
  let first ← initializer
  let condition ← optionalBefore .semicolon expression
  expect .semicolonAfterLoopCondition
  let increment ← optionalBefore .rightParen expression
  expect .parenAfterForClauses
  return .forLoop first condition increment (← statement)

def statementOf (part : Walk tokens Stmt) : Walk tokens Stmt := do
  match (← current).kind with
  | .printWord => let _ ← advance; printed
  | .leftBrace => let _ ← advance; block (declaration part)
  | .ifWord => let _ ← advance; conditional part
  | .whileWord => let _ ← advance; whileLoop part
  | .forWord => let _ ← advance; forLoop part
  | _ => expressionStatement

def statementWithin : Nat → Walk tokens Stmt
  | 0 => stop .noExpression
  | n + 1 => statementOf (statementWithin n)

def statement : Walk tokens Stmt := statementWithin tokens.length

def program : Walk tokens (List Stmt) := declarationsUntil (declaration statement) .eof

def go (p : Walk tokens α) (trail : Trail tokens) : Except Diagnostic α × Trail tokens :=
  p.run.run trail

theorem go_bind (p : Walk tokens α) (f : α → Walk tokens β) (trail : Trail tokens) :
    (p >>= f).go trail =
      match p.go trail with
      | (.ok a, trail') => (f a).go trail'
      | (.error d, trail') => (.error d, trail') := by
  show (ExceptT.run p >>= ExceptT.bindCont f).run trail = _
  rw [StateT.run_bind]
  show ExceptT.bindCont f (p.go trail).1 (p.go trail).2 = _
  rcases p.go trail with ⟨_ | _, trail'⟩ <;> rfl

theorem go_current_bind (f : Token → Walk tokens α) (trail : Trail tokens) :
    (current >>= f).go trail = (f trail.cursor.current).go trail := rfl

theorem go_attempt_bind (p : Walk tokens α) (f : Except Diagnostic α → Walk tokens β)
    (trail : Trail tokens) :
    (attempt p >>= f).go trail = (f (p.go trail).1).go (p.go trail).2 := rfl

open Program (body lineOfEnd)

/-- The answer of a walk is the reply of a reader: the cursor stands before the tokens that are
left, and the faults passed over are recorded. -/
inductive Answers (errors : List Diagnostic) :
    Reply α → Except Diagnostic α × Trail tokens → Prop
  | done (a : α) (passed : List Fault) (c : Cursor tokens) :
      Answers errors (.done a passed c.ahead)
        (.ok a, ⟨c, errors ++ passed.map (Fault.diagnostic (lineOfEnd tokens))⟩)
  | failed (fault : Fault) (passed : List Fault) (c : Cursor tokens) :
      Answers errors (.failed fault passed c.ahead)
        (.error (fault.diagnostic (lineOfEnd tokens)),
          ⟨c, errors ++ passed.map (Fault.diagnostic (lineOfEnd tokens))⟩)

def Simulates (p : Walk tokens α) (r : Reader α) : Prop :=
  ∀ (c : Cursor tokens) (errors : List Diagnostic),
    Answers errors (r c.ahead) (p.go ⟨c, errors⟩)

section primitives

variable {p : Walk tokens α} {r : Reader α}

theorem Answers.clean (errors : List Diagnostic) (a : α) (c : Cursor tokens) :
    Answers errors (.done a [] c.ahead) (.ok a, ⟨c, errors⟩) := by
  have answer : Answers errors (.done a [] c.ahead) _ := .done a [] c
  simpa using answer

theorem Answers.eq_of_done {errors : List Diagnostic} {a : α} {passed : List Fault}
    {rest : List Token} {answer : Except Diagnostic α × Trail tokens}
    (h : Answers errors (.done a passed rest) answer) : ∃ c : Cursor tokens,
      answer = (.ok a, ⟨c, errors ++ passed.map (Fault.diagnostic (lineOfEnd tokens))⟩) := by
  cases h with
  | done _ _ c => exact ⟨c, rfl⟩

theorem Answers.after {errors : List Diagnostic} {passed : List Fault} {reply : Reply α}
    {answer : Except Diagnostic α × Trail tokens}
    (h : Answers (errors ++ passed.map (Fault.diagnostic (lineOfEnd tokens))) reply answer) :
    Answers errors (reply.after passed) answer := by
  cases h with
  | done a more c =>
      rw [List.append_assoc, ← List.map_append]
      exact .done a (passed ++ more) c
  | failed fault more c =>
      rw [List.append_assoc, ← List.map_append]
      exact .failed fault (passed ++ more) c

theorem simulates_pure (a : α) : Simulates (Pure.pure a : Walk tokens α) (Pure.pure a) :=
  fun c errors => .clean errors a c

theorem simulates_bind_of {f : α → Walk tokens β} {g : α → Reader β} (h : Simulates p r)
    (hf : ∀ a front passed rest, r front = .done a passed rest → Simulates (f a) (g a)) :
    Simulates (p >>= f) (r >>= g) := by
  intro c errors
  rw [Reader.bind_apply, go_bind]
  have first := h c errors
  generalize hr : r c.ahead = reply at first
  generalize p.go ⟨c, errors⟩ = answer at first
  cases first with
  | done a passed c' => exact (hf a _ _ _ hr c' _).after
  | failed fault passed c' => exact .failed fault passed c'

theorem simulates_bind {f : α → Walk tokens β} {g : α → Reader β} (h : Simulates p r)
    (hf : ∀ a, Simulates (f a) (g a)) : Simulates (p >>= f) (r >>= g) :=
  simulates_bind_of h fun a _ _ _ _ => hf a

theorem simulates_stop (problem : Problem) :
    Simulates (stop problem : Walk tokens α) (Reader.fail problem) := by
  intro c errors
  have failed : Answers errors (.failed ⟨problem, c.ahead.head?⟩ [] c.ahead : Reply α) _ :=
    .failed ⟨problem, c.ahead.head?⟩ [] c
  rw [c.diagnostic_ahead, List.map_nil, List.append_nil] at failed
  exact failed

theorem simulates_record (t : Token) (problem : Problem) (ht : t.kind ≠ .eof) :
    Simulates (record (t.report problem) : Walk tokens Unit) (Reader.pass ⟨problem, some t⟩) := by
  intro c errors
  have report : Fault.diagnostic (lineOfEnd tokens) ⟨problem, some t⟩ = t.report problem := by
    simp [Fault.diagnostic, Token.report, Token.location, ht]
  rw [← report]
  exact .done () [⟨problem, some t⟩] c

/-- A walk that looks at the token where its cursor stands simulates a reader that looks at the
first token. -/
theorem simulates_of_next {p : Walk tokens α} {r : Reader α}
    (ending : ∀ (c : Cursor tokens) (errors : List Diagnostic), c.current.kind = .eof →
      c.ahead = [] → Answers errors (r []) (p.go ⟨c, errors⟩))
    (going : ∀ (c : Cursor tokens) (errors : List Diagnostic), c.current.kind ≠ .eof →
      c.ahead = c.current :: c.advance.ahead →
        Answers errors (r (c.current :: c.advance.ahead)) (p.go ⟨c, errors⟩)) : Simulates p r := by
  intro c errors
  obtain ⟨atEnd, nothing⟩ | ⟨open', next⟩ := c.ahead_cases
  · rw [nothing]
    exact ending c errors (by simpa [Cursor.isAtEnd] using atEnd) nothing
  · rw [next]
    exact going c errors (Cursor.kind_ne_eof open') next

theorem simulates_eat {kind : Kind} (hk : kind ≠ .eof) :
    Simulates (eat kind : Walk tokens (Option Token)) (Reader.take? kind) := by
  refine simulates_of_next (fun c errors atEnd nothing => ?_) fun c errors _ next => ?_
  · rw [eat, go_current_bind, if_neg (by rw [atEnd]; exact hk.symm), Reader.take?, ← nothing]
    exact .clean errors none c
  · rw [eat, go_current_bind, Reader.take?]
    by_cases same : c.current.kind = kind
    · rw [if_pos same, if_pos same]
      exact .clean errors (some c.current) c.advance
    · rw [if_neg same, if_neg same, ← next]
      exact .clean errors none c

theorem simulates_take {kind : Kind} (hk : kind ≠ .eof) (problem : Problem) :
    Simulates (take kind problem : Walk tokens Token) (Reader.take kind problem) := by
  refine simulates_of_next (fun c errors atEnd nothing => ?_) fun c errors _ next => ?_
  · rw [take, go_current_bind, if_neg (by rw [atEnd]; exact hk.symm), Reader.take, ← nothing]
    exact simulates_stop problem c errors
  · rw [take, go_current_bind, Reader.take]
    by_cases same : c.current.kind = kind
    · rw [if_pos same, if_pos same]
      exact .clean errors c.current c.advance
    · rw [if_neg same, if_neg same, ← next]
      exact simulates_stop problem c errors

theorem simulates_expect (piece : Piece) :
    Simulates (expect piece : Walk tokens Unit) (Reader.expect piece) := by
  have same : Reader.expect piece = do
      let _ ← Reader.take piece.kind (.missing piece)
      return () := by
    funext front
    rw [Reader.expect, Reader.bind_apply]
    cases Reader.take piece.kind (.missing piece) front <;> simp [Reader.pure_apply, Reply.after]
  rw [same]
  exact simulates_bind (simulates_take (by cases piece <;> decide) _) fun _ => simulates_pure ()

theorem peek_bind (f : Option Kind → Reader α) (front : List Token) :
    (Reader.peek >>= f) front = f (front.head?.map Token.kind) front :=
  Reader.bind_of_clean rfl f

theorem simulates_optionalBefore {kind : Kind} (hk : kind ≠ .eof) (h : Simulates p r) :
    Simulates (optionalBefore kind p) (Reader.optionalBefore kind r) := by
  have some' : Simulates (do return some (← p)) (do return some (← r) : Reader (Option α)) :=
    simulates_bind h fun a => simulates_pure (some a)
  refine simulates_of_next (fun c errors atEnd nothing => ?_) fun c errors _ next => ?_
  · rw [optionalBefore, go_current_bind, if_neg (by rw [atEnd]; exact hk.symm),
      Reader.optionalBefore, peek_bind, if_neg (by simp), ← nothing]
    exact some' c errors
  · rw [optionalBefore, go_current_bind, Reader.optionalBefore, peek_bind, ← next]
    by_cases same : c.current.kind = kind
    · rw [if_pos same, if_pos (by simp [next, same])]
      exact .clean errors none c
    · rw [if_neg same, if_neg (by simp [next, same])]
      exact some' c errors

end primitives

theorem simulates_primary {inner : Walk tokens Expr} {inner' : Reader Expr}
    (h : Simulates inner inner') : Simulates (primary inner) (Reader.primary inner') := by
  have grouped : Simulates
      (do
        let e ← inner
        expect .parenAfterExpression
        return .grouping e)
      (do
        let e ← inner'
        Reader.expect .parenAfterExpression
        return .grouping e : Reader Expr) :=
    simulates_bind h fun _ => simulates_bind (simulates_expect _) fun _ => simulates_pure _
  refine simulates_of_next (fun c errors atEnd nothing => ?_) fun c errors _ next => ?_
  · rw [primary, go_current_bind, atEnd, Reader.primary, ← nothing]
    exact simulates_stop .noExpression c errors
  · rw [primary, go_current_bind, Reader.primary]
    cases hk : c.current.kind
    case leftParen => exact grouped c.advance errors
    case falseWord | trueWord | nullWord | number | string | identifier =>
      exact .clean errors _ c.advance
    all_goals
      rw [← next]
      exact simulates_stop .noExpression c errors

theorem simulates_signed {p : Walk tokens Expr} {r : Reader Expr} (h : Simulates p r) (n : Nat) :
    Simulates (signed p n) (Reader.signed r n) := by
  induction n with
  | zero => exact h
  | succ n ih =>
      refine simulates_of_next (fun c errors atEnd nothing => ?_) fun c errors _ next => ?_
      · rw [signed, go_current_bind, atEnd]
        show Answers errors (r []) (p.go ⟨c, errors⟩)
        rw [← nothing]
        exact h c errors
      · rw [signed, go_current_bind]
        simp only [Reader.signed]
        cases UnaryOp.ofKind? c.current.kind with
        | none =>
            simp only [← next]
            exact h c errors
        | some op => exact simulates_bind ih (fun _ => simulates_pure _) c.advance errors

theorem simulates_chain {p : Walk tokens Expr} {r : Reader Expr} (h : Simulates p r)
    (rank n : Nat) (left : Expr) :
    Simulates (chain p rank n left) (Reader.chain r rank n left) := by
  induction n generalizing left with
  | zero => exact simulates_pure left
  | succ n ih =>
      refine simulates_of_next (fun c errors atEnd nothing => ?_) fun c errors _ next => ?_
      · have none : Connective.ofKindAt? rank .eof = none := by
          simp [Connective.ofKindAt?, Connective.ofKind?]
        rw [chain, go_current_bind, atEnd, none]
        show Answers errors (.done left [] []) (.ok left, ⟨c, errors⟩)
        rw [← nothing]
        exact .clean errors left c
      · rw [chain, go_current_bind]
        simp only [Reader.chain]
        cases Connective.ofKindAt? rank c.current.kind with
        | none =>
            simp only [← next]
            exact .clean errors left c
        | some op => exact simulates_bind h (fun _ => ih _) c.advance errors

theorem simulates_ranked {p : Walk tokens Expr} {r : Reader Expr} (h : Simulates p r)
    (n rank : Nat) : Simulates (ranked p n rank) (Reader.ranked r n rank) := by
  induction rank with
  | zero => exact h
  | succ rank ih => exact simulates_bind ih fun left => simulates_chain ih (rank + 1) n left

theorem simulates_assignment {p v : Walk tokens Expr} {r w : Reader Expr} (h : Simulates p r)
    (hv : Simulates v w) : Simulates (assignment p v) (Reader.assignment r w) := by
  refine simulates_bind h fun target =>
    simulates_bind_of (simulates_eat (by decide)) fun equals front passed rest taken => ?_
  cases equals with
  | none => exact simulates_pure target
  | some t =>
      have regular : t.kind ≠ .eof := by
        rw [(Reader.take?_some taken).2]
        decide
      refine simulates_bind hv fun v => ?_
      cases target with
      | var name line => exact simulates_pure _
      | _ => exact simulates_bind (simulates_record t _ regular) fun _ => simulates_pure _

theorem simulates_expressionWithin (n : Nat) :
    Simulates (expressionWithin n : Walk tokens Expr) (Reader.expressionWithin n) := by
  induction n with
  | zero => exact simulates_stop .noExpression
  | succ n ih =>
      exact simulates_assignment
        (simulates_ranked (simulates_signed (simulates_primary ih) _) _ _) ih

theorem simulates_expression :
    Simulates (expression : Walk tokens Expr) Reader.expression := by
  intro c errors
  rw [← Reader.expressionWithin_eq c.length_ahead_le]
  exact simulates_expressionWithin tokens.length c errors

theorem simulates_initialValue :
    Simulates (initialValue : Walk tokens (Option Expr)) Reader.initialValue := by
  refine simulates_bind (simulates_eat (by decide)) fun equals => ?_
  cases equals with
  | none => exact simulates_pure none
  | some _ => exact simulates_bind simulates_expression fun e => simulates_pure (some e)

theorem simulates_declaredVariable :
    Simulates (declaredVariable : Walk tokens Stmt) Reader.declaredVariable :=
  simulates_bind (simulates_take (by decide) _) fun _ => simulates_bind simulates_initialValue
    fun _ => simulates_bind (simulates_expect _) fun _ => simulates_pure _

theorem simulates_printed : Simulates (printed : Walk tokens Stmt) Reader.printed :=
  simulates_bind simulates_expression fun _ => simulates_bind (simulates_expect _)
    fun _ => simulates_pure _

theorem simulates_expressionStatement :
    Simulates (expressionStatement : Walk tokens Stmt) Reader.expressionStatement :=
  simulates_bind simulates_expression fun _ => simulates_bind (simulates_expect _)
    fun _ => simulates_pure _

section statements

variable {p : Walk tokens Stmt} {r : Reader Stmt} (h : Simulates p r)

include h

theorem simulates_declaration : Simulates (declaration p) (Reader.declaration r) := by
  refine simulates_bind (simulates_eat (by decide)) fun word => ?_
  cases word with
  | none => exact h
  | some _ => exact simulates_declaredVariable

/-- One turn of the loop over declarations leaves the cursor where the reader goes on, and has
recorded the faults that the reader has passed over. -/
theorem answers_declarationsWithin (close : Kind) (n : Nat) (found : List Stmt)
    (passed : List Fault) (c : Cursor tokens) (errors : List Diagnostic) :
    let all := Reader.declarationsWithin r close n found passed c.ahead
    Answers errors (.done all.statements all.passed all.rest)
      ((declarationsWithin p close n found).go
        ⟨c, errors ++ passed.reverse.map (Fault.diagnostic (lineOfEnd tokens))⟩) := by
  induction n generalizing found passed c errors with
  | zero => exact .done found.reverse passed.reverse c
  | succ n ih =>
      rw [declarationsWithin, go_current_bind]
      obtain ⟨atEnd, nothing⟩ | ⟨open', next⟩ := c.ahead_cases
      · have ending : c.current.kind = .eof := by simpa [Cursor.isAtEnd] using atEnd
        rw [if_pos (.inr ending), nothing]
        simp only [Reader.declarationsWithin, ← nothing]
        exact .done found.reverse passed.reverse c
      · have going : c.current.kind ≠ .eof := Cursor.kind_ne_eof open'
        simp only [next, Reader.declarationsWithin]
        simp only [← next]
        by_cases closing : c.current.kind = close
        · rw [if_pos closing, if_pos (Or.inl closing)]
          exact .done found.reverse passed.reverse c
        · rw [if_neg closing, if_neg (not_or.2 ⟨closing, going⟩), go_attempt_bind]
          have first := h c (errors ++ passed.reverse.map (Fault.diagnostic (lineOfEnd tokens)))
          generalize r c.ahead = reply at first
          generalize p.go _ = answer at first
          cases first with
          | done s more c' =>
              have rest := ih (s :: found) (more.reverse ++ passed) c' errors
              simpa using rest
          | failed fault more c' =>
              have rest := ih found (fault :: more.reverse ++ passed) c'.synchronize errors
              have recorded : errors ++ (fault :: more.reverse ++ passed).reverse.map
                  (Fault.diagnostic (lineOfEnd tokens)) =
                errors ++ passed.reverse.map (Fault.diagnostic (lineOfEnd tokens)) ++
                  more.map (Fault.diagnostic (lineOfEnd tokens)) ++
                    [fault.diagnostic (lineOfEnd tokens)] := by simp
              rw [Cursor.ahead_synchronize, recorded] at rest
              exact rest

variable (takes : Reader.Takes r) (advances : Reader.Advances r)

include takes advances

theorem simulates_declarationsUntil (close : Kind) : Simulates (declarationsUntil p close)
    (fun front =>
      let all := Reader.declarations r close front
      .done all.statements all.passed all.rest) := by
  intro c errors
  have all := answers_declarationsWithin h close tokens.length [] [] c errors
  rw [Reader.declarationsWithin_bound takes advances close [] [] c.length_ahead_le
    (Nat.le_refl _)] at all
  simpa [declarationsUntil, Reader.declarations] using all

theorem simulates_block : Simulates (block p) (Reader.block r) :=
  simulates_bind (simulates_declarationsUntil h takes advances .rightBrace)
    fun _ => simulates_bind (simulates_expect _) fun _ => simulates_pure _

omit takes advances

theorem simulates_conditional : Simulates (conditional p) (Reader.conditional r) := by
  refine simulates_bind (simulates_expect _) fun _ => simulates_bind simulates_expression
    fun _ => simulates_bind (simulates_expect _) fun _ => simulates_bind h
      fun _ => simulates_bind (simulates_eat (by decide)) fun word => ?_
  cases word with
  | none => exact simulates_pure _
  | some _ => exact simulates_bind h fun _ => simulates_pure _

theorem simulates_whileLoop : Simulates (whileLoop p) (Reader.whileLoop r) :=
  simulates_bind (simulates_expect _) fun _ => simulates_bind simulates_expression
    fun _ => simulates_bind (simulates_expect _) fun _ => simulates_bind h
      fun _ => simulates_pure _

omit h in
theorem simulates_initializer :
    Simulates (initializer : Walk tokens (Option Stmt)) Reader.initializer := by
  refine simulates_bind (simulates_eat (by decide)) fun semicolon => ?_
  cases semicolon with
  | none =>
      exact simulates_bind (simulates_declaration simulates_expressionStatement)
        fun s => simulates_pure (some s)
  | some _ => exact simulates_pure none

theorem simulates_forLoop : Simulates (forLoop p) (Reader.forLoop r) :=
  simulates_bind (simulates_expect _) fun _ => simulates_bind simulates_initializer
    fun _ => simulates_bind (simulates_optionalBefore (by decide) simulates_expression)
      fun _ => simulates_bind (simulates_expect _)
        fun _ => simulates_bind (simulates_optionalBefore (by decide) simulates_expression)
          fun _ => simulates_bind (simulates_expect _) fun _ => simulates_bind h
            fun _ => simulates_pure _

include takes advances

theorem simulates_statementOf : Simulates (statementOf p) (Reader.statementOf r) := by
  refine simulates_of_next (fun c errors atEnd nothing => ?_) fun c errors _ next => ?_
  · rw [statementOf, go_current_bind, atEnd]
    show Answers errors (Reader.expressionStatement []) (expressionStatement.go ⟨c, errors⟩)
    rw [← nothing]
    exact simulates_expressionStatement c errors
  · rw [statementOf, go_current_bind]
    simp only [Reader.statementOf]
    cases hk : c.current.kind
    case printWord => exact simulates_printed c.advance errors
    case leftBrace =>
      exact simulates_block (simulates_declaration h) (Reader.takes_declaration takes)
        (Reader.advances_declaration advances) c.advance errors
    case ifWord => exact simulates_conditional h c.advance errors
    case whileWord => exact simulates_whileLoop h c.advance errors
    case forWord => exact simulates_forLoop h c.advance errors
    all_goals
      simp only [← next]
      exact simulates_expressionStatement c errors

end statements

theorem simulates_statementWithin (n : Nat) :
    Simulates (statementWithin n : Walk tokens Stmt) (Reader.statementWithin n) := by
  induction n with
  | zero => exact simulates_stop .noExpression
  | succ n ih =>
      exact simulates_statementOf ih (Reader.takes_statementWithin n)
        (Reader.advances_statementWithin n)

theorem simulates_statement : Simulates (statement : Walk tokens Stmt) Reader.statement := by
  intro c errors
  rw [← Reader.statementWithin_eq c.length_ahead_le]
  exact simulates_statementWithin tokens.length c errors

/-- What is found by walking over tokens from the first one to the end: the statements, and the
errors in the order in which they were recorded. -/
def read (tokens : List Token) : Except Diagnostic (List Stmt) × List Diagnostic :=
  let answer := program.go ⟨.start tokens, []⟩
  (answer.1, answer.2.errors)

/-- A cursor that moves over the tokens finds what the readers do, which see none from the first end
mark on, and no error stops it. -/
theorem read_eq (tokens : List Token) :
    read tokens =
      (.ok (Program.ofTokens tokens).statements, (Program.ofTokens tokens).diagnostics) := by
  have one : Simulates (declaration statement : Walk tokens Stmt) _ :=
    simulates_declaration simulates_statement
  have answers := simulates_declarationsUntil one
    (Reader.takes_declaration Reader.takes_statement)
    (Reader.advances_declaration Reader.advances_statement) .eof (.start tokens) []
  obtain ⟨c, answer⟩ := answers.eq_of_done
  have walked : program.go ⟨.start tokens, []⟩ = _ := answer
  rw [read, walked, Cursor.ahead_start]
  rfl

end Walk

namespace Program

structure ReadAlike (tokens tokens' : List Token) : Prop where
  program : ofTokens tokens = ofTokens tokens'
  walk : Walk.read tokens = Walk.read tokens'

theorem ReadAlike.of_body {tokens tokens' : List Token} (h : body tokens = body tokens')
    (hl : lineOfEnd tokens = lineOfEnd tokens') : ReadAlike tokens tokens' := by
  have program : ofTokens tokens = ofTokens tokens' := by rw [ofTokens, ofTokens, h, hl]
  exact ⟨program, by rw [Walk.read_eq, Walk.read_eq, program]⟩

/-- Only the tokens up to the first end mark count, whatever comes after it, and where there is no
end mark, tokens are read as if there were one behind them. -/
theorem read_up_to_end (tokens : List Token) :
    (∀ front mark back, tokens = front ++ mark :: back → (∀ t ∈ front, t.kind ≠ .eof) →
      mark.kind = .eof → ReadAlike tokens (front ++ [mark])) ∧
    ((∀ t ∈ tokens, t.kind ≠ .eof) → ReadAlike tokens (tokens ++ [Cursor.mark tokens])) := by
  refine ⟨fun front mark back split regular hm => ?_, fun regular => ?_⟩
  · have absent : front.find? (·.kind == .eof) = none := by simpa using regular
    have first : ∀ t ∈ front, (t.kind != .eof) = true := by simpa using regular
    refine .of_body ?_ ?_
    · rw [body_append_eof regular hm, split, body, List.takeWhile_append_of_pos first]
      simp [hm]
    · rw [lineOfEnd_append_eof regular hm, split]
      simp [lineOfEnd, List.find?_append, absent, hm]
  · have absent : tokens.find? (·.kind == .eof) = none := by simpa using regular
    have all : ∀ t ∈ tokens, (t.kind != .eof) = true := by simpa using regular
    refine .of_body ?_ ?_
    · rw [body_append_eof regular rfl, body, List.takeWhile_eq_self_iff.2 all]
    · rw [lineOfEnd_append_eof regular rfl, lineOfEnd, absent]
      rfl

/-- A block in a condition, neither of them closed, with tokens after the end mark and without
one. -/
theorem read_up_to_end_of_unclosed :
    let front := (body (Lexical.read "if (a) \x7b print (b\n").tokens)
    let mark := Lexical.eofAt 2
    let back := (Lexical.read "); \x7d else c;").tokens
    (∀ t ∈ front, t.kind ≠ .eof) ∧ mark.kind = .eof ∧
      ReadAlike (front ++ mark :: back) (front ++ [mark]) ∧
      ReadAlike front (front ++ [Cursor.mark front]) ∧
      (ofTokens (front ++ [mark])).diagnostics =
        [⟨.expectedToken, 2, .atEnd, "Expect ')' after expression."⟩,
          ⟨.expectedToken, 2, .atEnd, "Expect '\x7d' after block."⟩] ∧
      (ofTokens front).diagnostics =
        [⟨.expectedToken, 1, .atEnd, "Expect ')' after expression."⟩,
          ⟨.expectedToken, 1, .atEnd, "Expect '\x7d' after block."⟩] := by
  intro front mark back
  have regular : ∀ t ∈ front, t.kind ≠ .eof := fun t ht => not_eof_of_mem_body ht
  have cut := (read_up_to_end (front ++ mark :: back)).1 front mark back rfl regular rfl
  have closed := (read_up_to_end front).2 regular
  exact ⟨regular, rfl, cut, closed, by decide +kernel, by decide +kernel⟩

end Program

end Lox
