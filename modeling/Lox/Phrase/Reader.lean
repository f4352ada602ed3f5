import Lox.Phrase.Fault

/-!
Readers of tokens. A reader takes tokens from the front of a list and answers with what they stand
for, or with the fault that stopped it; either way it says which tokens are left and which faults it
passed over.
-/

namespace Lox

inductive Reply (α : Type)
  | done (value : α) (passed : List Fault) (rest : List Token)
  | failed (fault : Fault) (passed : List Fault) (rest : List Token)

namespace Reply

/-- The same reply after faults that were passed over earlier. -/
def after {α : Type} (earlier : List Fault) : Reply α → Reply α
  | done value passed rest => done value (earlier ++ passed) rest
  | failed fault passed rest => failed fault (earlier ++ passed) rest

/-- The tokens that are left. -/
def rest {α : Type} : Reply α → List Token
  | done _ _ rest | failed _ _ rest => rest

end Reply

/-- A reader of tokens. -/
def Reader (α : Type) := List Token → Reply α

namespace Reader

variable {α β : Type}

@[always_inline, inline]
def pure (value : α) : Reader α := fun tokens => .done value [] tokens

/-- One reader after the other. A failure of the first is the failure of both. -/
@[always_inline, inline]
def bind (first : Reader α) (next : α → Reader β) : Reader β := fun tokens =>
  match first tokens with
  | .done value passed rest => (next value rest).after passed
  | .failed fault passed rest => .failed fault passed rest

instance : Monad Reader where
  pure := pure
  bind := bind

theorem pure_apply (value : α) (tokens : List Token) :
    (Pure.pure value : Reader α) tokens = .done value [] tokens := rfl

theorem bind_apply (first : Reader α) (next : α → Reader β) (tokens : List Token) :
    (first >>= next) tokens =
      match first tokens with
      | .done value passed rest => (next value rest).after passed
      | .failed fault passed rest => .failed fault passed rest := rfl

/-- Fails at the next token and leaves it. -/
def fail (problem : Problem) : Reader α := fun tokens =>
  .failed ⟨problem, tokens.head?⟩ [] tokens

/-- Passes over a fault. -/
def pass (fault : Fault) : Reader Unit := fun tokens => .done () [fault] tokens

/-- The kind of the next token, which is left. -/
def peek : Reader (Option Kind) := fun tokens => .done (tokens.head?.map Token.kind) [] tokens

/-- Takes the next token if it is of a kind. -/
def take? (kind : Kind) : Reader (Option Token) := fun
  | [] => .done none [] []
  | t :: rest => if t.kind = kind then .done (some t) [] rest else .done none [] (t :: rest)

/-- Takes a token of a kind, or fails. -/
def take (kind : Kind) (problem : Problem) : Reader Token := fun
  | [] => fail problem []
  | t :: rest => if t.kind = kind then .done t [] rest else fail problem (t :: rest)

/-- Takes a piece of punctuation. -/
def expect (piece : Piece) : Reader Unit := fun tokens =>
  match take piece.kind (.missing piece) tokens with
  | .done _ passed rest => .done () passed rest
  | .failed fault passed rest => .failed fault passed rest

/-- What stands before a token of a kind; nothing if that token is next. -/
def optionalBefore (kind : Kind) (reader : Reader α) : Reader (Option α) := do
  if (← peek) = some kind then return none
  else return some (← reader)

end Reader
end Lox
