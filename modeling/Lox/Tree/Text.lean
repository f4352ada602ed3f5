import Lox.Tree.Basic

/-!
The text of a tree: every node in parentheses, its operator or its word first.
-/

namespace Lox

/-- Parts in parentheses, separated by spaces. -/
def parenthesized (parts : List String) : String := "(" ++ " ".intercalate parts ++ ")"

/-- A value as it stands in the text of a tree; strings in quotes, just as they are. -/
def Value.treeText : Value → String
  | nil => "nil"
  | bool b => if b then "true" else "false"
  | number x => NumberStyle.inTree.render x
  | string s => "\"" ++ s ++ "\""

def Expr.text : Expr → String
  | literal value => value.treeText
  | grouping inner => parenthesized ["group", inner.text]
  | unary op _ operand => parenthesized [op.symbol, operand.text]
  | binary op _ left right => parenthesized [op.symbol, left.text, right.text]
  | logical op left right => parenthesized [op.symbol, left.text, right.text]
  | var name _ => name
  | assign name _ value => parenthesized ["=", name, value.text]

mutual

def Stmt.text : Stmt → String
  | .expression e => parenthesized [";", e.text]
  | .print e => parenthesized ["print", e.text]
  | .declare name none _ => parenthesized ["var", name]
  | .declare name (some e) _ => parenthesized ["var", name, e.text]
  | .block body => parenthesized ("block" :: Stmt.texts body)
  | .ifThen condition thenBranch => parenthesized ["if", condition.text, thenBranch.text]
  | .ifElse condition thenBranch elseBranch =>
      parenthesized ["if-else", condition.text, thenBranch.text, elseBranch.text]
  | .loop condition body => parenthesized ["while", condition.text, body.text]

def Stmt.texts : List Stmt → List String
  | [] => []
  | s :: rest => s.text :: Stmt.texts rest

end

/-- The text of a program, each statement on a line of its own. -/
def programText (program : List Stmt) : String :=
  String.join ((Stmt.texts program).map (· ++ "\n"))

end Lox
