import Lox.Token.Kind

/-!
The grammar of programs: a rule for each phrase of the language, and the sequences of kinds that can
be derived from the rules.
-/

namespace Lox
namespace Grammar

inductive Nonterminal
  | program | declaration | varDecl | statement
  | expression | assignment | logicOr | logicAnd | equality | comparison | term | factor | unary
  | primary
  deriving DecidableEq, Repr

inductive Form
  | kind (k : Kind)
  | rule (n : Nonterminal)
  | seq (first second : Form)
  | alt (left right : Form)
  | optional (form : Form)
  | many (form : Form)
  deriving DecidableEq, Repr

instance : Append Form := ⟨.seq⟩

instance : OrOp Form := ⟨.alt⟩

open Form

def separated (operand : Nonterminal) (operator : Form) : Form :=
  rule operand ++ many (operator ++ rule operand)

def forStart : Form :=
  rule .varDecl ||| rule .expression ++ kind .semicolon ||| kind .semicolon

def production : Nonterminal → Form
  | .program => many (rule .declaration)
  | .declaration => rule .varDecl ||| rule .statement
  | .varDecl =>
      kind .varWord ++ kind .identifier ++ optional (kind .equal ++ rule .expression) ++
        kind .semicolon
  | .statement =>
      rule .expression ++ kind .semicolon
      ||| kind .printWord ++ rule .expression ++ kind .semicolon
      ||| kind .leftBrace ++ many (rule .declaration) ++ kind .rightBrace
      ||| kind .ifWord ++ kind .leftParen ++ rule .expression ++ kind .rightParen ++
        rule .statement ++ optional (kind .elseWord ++ rule .statement)
      ||| kind .whileWord ++ kind .leftParen ++ rule .expression ++ kind .rightParen ++
        rule .statement
      ||| kind .forWord ++ kind .leftParen ++ forStart ++ optional (rule .expression) ++
        kind .semicolon ++ optional (rule .expression) ++ kind .rightParen ++ rule .statement
  | .expression => rule .assignment
  | .assignment => kind .identifier ++ kind .equal ++ rule .assignment ||| rule .logicOr
  | .logicOr => separated .logicAnd (kind .orWord)
  | .logicAnd => separated .equality (kind .andWord)
  | .equality => separated .comparison (kind .bangEqual ||| kind .equalEqual)
  | .comparison =>
      separated .term
        (kind .greater ||| kind .greaterEqual ||| kind .less ||| kind .lessEqual)
  | .term => separated .factor (kind .minus ||| kind .plus)
  | .factor => separated .unary (kind .slash ||| kind .star)
  | .unary => (kind .bang ||| kind .minus) ++ rule .unary ||| rule .primary
  | .primary =>
      kind .number ||| kind .string ||| kind .trueWord ||| kind .falseWord ||| kind .nullWord
      ||| kind .leftParen ++ rule .expression ++ kind .rightParen ||| kind .identifier

/-- The sequences of kinds that a form derives. -/
inductive Derives : Form → List Kind → Prop
  | kind (k : Kind) : Derives (.kind k) [k]
  | rule {n : Nonterminal} {w : List Kind} (h : Derives (production n) w) : Derives (.rule n) w
  | seq {a b : Form} {u v : List Kind} (ha : Derives a u) (hb : Derives b v) :
      Derives (.seq a b) (u ++ v)
  | left {a b : Form} {w : List Kind} (h : Derives a w) : Derives (.alt a b) w
  | right {a b : Form} {w : List Kind} (h : Derives b w) : Derives (.alt a b) w
  | absent {a : Form} : Derives (.optional a) []
  | present {a : Form} {w : List Kind} (h : Derives a w) : Derives (.optional a) w
  | stop {a : Form} : Derives (.many a) []
  | again {a : Form} {u v : List Kind} (h : Derives a u) (rest : Derives (.many a) v) :
      Derives (.many a) (u ++ v)

end Grammar
end Lox
