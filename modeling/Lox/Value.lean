import Lox.Number.Style

/-!
The values of the language.
-/

namespace Lox

inductive Value
  | nil
  | bool (b : Bool)
  | number (x : Float)
  | string (s : String)
  deriving DecidableEq, Repr, Inhabited

namespace Value

/-- Nil and false count as false, every other value as true. -/
def truthy : Value → Bool
  | nil => false
  | bool b => b
  | number _ | string _ => true

/-- Equality as programs see it: values of different sorts differ, and numbers are compared as
numbers, so that the two zeros are equal and what is not a number differs from itself. -/
def equals : Value → Value → Bool
  | nil, nil => true
  | bool a, bool b => a == b
  | number x, number y => x == y
  | string s, string t => s == t
  | _, _ => false

/-- How a value is printed. -/
def text : Value → String
  | nil => "nil"
  | bool b => if b then "true" else "false"
  | number x => NumberStyle.plain.render x
  | string s => s

end Value
end Lox
