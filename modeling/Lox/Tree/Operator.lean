import Lox.Token.Kind

/-!
The operators of expressions, the tokens that stand for them, and how tightly they bind.
-/

namespace Lox

inductive UnaryOp
  | negate
  | not
  deriving DecidableEq, Repr, Inhabited

inductive BinaryOp
  | add | subtract | multiply | divide
  | equal | notEqual
  | less | lessEqual | greater | greaterEqual
  deriving DecidableEq, Repr, Inhabited

inductive LogicalOp
  | and
  | or
  deriving DecidableEq, Repr, Inhabited

namespace UnaryOp

def symbol : UnaryOp → String
  | negate => "-"
  | not => "!"

def ofKind? : Kind → Option UnaryOp
  | .minus => some negate
  | .bang => some not
  | _ => none

end UnaryOp

namespace BinaryOp

def symbol : BinaryOp → String
  | add => "+"
  | subtract => "-"
  | multiply => "*"
  | divide => "/"
  | equal => "=="
  | notEqual => "!="
  | less => "<"
  | lessEqual => "<="
  | greater => ">"
  | greaterEqual => ">="

def all : List BinaryOp :=
  [add, subtract, multiply, divide, equal, notEqual, less, lessEqual, greater, greaterEqual]

/-- The operators that compare magnitudes. -/
def isOrdering : BinaryOp → Bool
  | less | lessEqual | greater | greaterEqual => true
  | _ => false

end BinaryOp

namespace LogicalOp

def symbol : LogicalOp → String
  | and => "and"
  | or => "or"

end LogicalOp

/-- An operator that stands between two operands. -/
inductive Connective
  | binary (op : BinaryOp)
  | logical (op : LogicalOp)
  deriving DecidableEq, Repr, Inhabited

namespace Connective

def ofKind? : Kind → Option Connective
  | .plus => some (binary .add)
  | .minus => some (binary .subtract)
  | .star => some (binary .multiply)
  | .slash => some (binary .divide)
  | .equalEqual => some (binary .equal)
  | .bangEqual => some (binary .notEqual)
  | .less => some (binary .less)
  | .lessEqual => some (binary .lessEqual)
  | .greater => some (binary .greater)
  | .greaterEqual => some (binary .greaterEqual)
  | .andWord => some (logical .and)
  | .orWord => some (logical .or)
  | _ => none

/-- How loosely a connective binds, from 1 for products to 6 for disjunctions. The operands of a
connective of some rank hold, outside parentheses, only connectives of lower ranks, except that the
left one may hold further ones of the same rank. -/
def rank : Connective → Nat
  | binary .multiply | binary .divide => 1
  | binary .add | binary .subtract => 2
  | binary .less | binary .lessEqual | binary .greater | binary .greaterEqual => 3
  | binary .equal | binary .notEqual => 4
  | logical .and => 5
  | logical .or => 6

/-- The rank of the loosest connectives. -/
def loosest : Nat := 6

/-- The connective of a given rank that a kind of token stands for. -/
def ofKindAt? (rank : Nat) (k : Kind) : Option Connective :=
  (ofKind? k).filter (·.rank == rank)

end Connective
end Lox
