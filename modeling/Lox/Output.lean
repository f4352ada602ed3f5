/-!
What a program prints.
-/

namespace Lox

/-- Text printed so far. -/
structure Output where
  text : String := ""
  deriving DecidableEq, Repr, Inhabited

namespace Output

def empty : Output := {}

def print (o : Output) (s : String) : Output := ⟨o.text ++ s⟩

def printLine (o : Output) (s : String) : Output := (o.print s).print "\n"

def clear (_ : Output) : Output := empty

end Output
end Lox
