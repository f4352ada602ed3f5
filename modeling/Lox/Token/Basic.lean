import Lox.Names
import Lox.Token.KindSet
import Lox.Value

/-!
Tokens: a kind, the text it was read from, the value that the text denotes if it denotes one, and
the line on which the text ends.
-/

namespace Lox

structure Token where
  kind : Kind
  lexeme : String
  literal : Option Value := none
  line : Nat
  deriving DecidableEq, Repr, Inhabited

namespace Token

/-- The names that a token registers: its text, then the string that it denotes. -/
def names (t : Token) : List String :=
  match t.literal with
  | some (.string s) => [t.lexeme, s]
  | _ => [t.lexeme]

/-- How the value of a token is listed; a string by its number in the table. -/
def describeLiteral (table : NameTable) : Value → String
  | .nil => "Nil"
  | .bool b => "Bool(" ++ (if b then "true" else "false") ++ ")"
  | .number x => "Number(" ++ NumberStyle.inListing.render x ++ ")"
  | .string s => "String(" ++ ((table.find? s).getD .empty).describe ++ ")"

/-- A token on one line: its kind, its value and its line. -/
def describe (table : NameTable) (t : Token) : String :=
  let value :=
    match t.literal with
    | some v => "(" ++ describeLiteral table v ++ ")"
    | none => ""
  t.kind.name ++ value ++ " @ " ++ toString t.line

end Token

namespace NameTable

/-- Registers the names of tokens, in order. -/
def insertTokens (table : NameTable) (tokens : List Token) : NameTable :=
  (tokens.flatMap Token.names).foldl (fun t text => (t.insert text).2) table

end NameTable
end Lox
