/-!
Tables that number the names of a session in the order of their first appearance.
-/

namespace Lox

/-- The number of a name in a table. -/
structure Name where
  index : Nat
  deriving DecidableEq, Repr, Inhabited

namespace Name

/-- The empty name has the first place in every table. -/
def empty : Name := ⟨0⟩

def describe (n : Name) : String := "Name(" ++ toString n.index ++ ")"

end Name

/-- The distinct names registered so far, the empty one first. -/
structure NameTable where
  names : Array String := #[""]
  deriving DecidableEq, Repr, Inhabited

namespace NameTable

/-- The largest number a name can have. -/
def largest : Nat := 0xFFFFFFFF

/-- What is reported when there is no number left. -/
def overflow (count : Nat) : String :=
  "interner exceeded capacity: " ++ toString count ++ " strings, max is " ++ toString largest

def empty : NameTable := {}

/-- How many names there are, the empty one included. -/
def size (t : NameTable) : Nat := t.names.size

/-- No name but the empty one is registered. -/
def isEmpty (t : NameTable) : Bool := t.size ≤ 1

def find? (t : NameTable) (text : String) : Option Name := (t.names.idxOf? text).map Name.mk

/-- Registers a name. A name that is there keeps its number, a new one gets the next. -/
def insert (t : NameTable) (text : String) : Name × NameTable :=
  match t.find? text with
  | some n => (n, t)
  | none => (⟨t.size⟩, ⟨t.names.push text⟩)

/-- Registers a name, unless that would take a number above the largest. -/
def insert? (t : NameTable) (text : String) : Except String (Name × NameTable) :=
  match t.find? text with
  | some n => .ok (n, t)
  | none => if t.size ≤ largest then .ok (t.insert text) else .error (overflow t.size)

/-- The text of a name, empty for a number that the table has not given out. -/
def text (t : NameTable) (n : Name) : String := t.names.getD n.index ""

end NameTable
end Lox
