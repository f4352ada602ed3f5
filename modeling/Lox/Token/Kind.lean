/-!
The kinds of token, in the order in which they are numbered, and the words that are reserved.
-/

namespace Lox

/-- What a token is. `eof` marks the end of a token list and has no text of its own. -/
inductive Kind
  | leftParen | rightParen | leftBrace | rightBrace
  | comma | dot | minus | plus | semicolon | slash | star
  | bang | bangEqual | equal | equalEqual
  | greater | greaterEqual | less | lessEqual
  | identifier | string | number
  | andWord | classWord | elseWord | falseWord | funWord | forWord | ifWord | nullWord
  | orWord | printWord | returnWord | superWord | thisWord | trueWord | varWord | whileWord
  | eof
  deriving DecidableEq, Repr, Inhabited

namespace Kind

/-- Every kind, in order. -/
def all : List Kind :=
  [leftParen, rightParen, leftBrace, rightBrace,
    comma, dot, minus, plus, semicolon, slash, star,
    bang, bangEqual, equal, equalEqual,
    greater, greaterEqual, less, lessEqual,
    identifier, string, number,
    andWord, classWord, elseWord, falseWord, funWord, forWord, ifWord, nullWord,
    orWord, printWord, returnWord, superWord, thisWord, trueWord, varWord, whileWord,
    eof]

/-- The place of a kind in `all`. -/
def index (k : Kind) : Nat := k.ctorIdx

theorem all_getElem?_index (k : Kind) : all[k.index]? = some k := by
  cases k <;> rfl

theorem mem_all (k : Kind) : k ∈ all :=
  List.mem_of_getElem? (all_getElem?_index k)

theorem index_lt (k : Kind) : k.index < all.length :=
  (List.getElem?_eq_some_iff.1 (all_getElem?_index k)).1

theorem index_inj {j k : Kind} : j.index = k.index ↔ j = k := by
  refine ⟨fun h => ?_, congrArg index⟩
  have found := all_getElem?_index j
  rw [h, all_getElem?_index] at found
  exact (Option.some_inj.1 found).symm

/-- How a kind is called in listings. -/
def name : Kind → String
  | leftParen => "LeftParen"
  | rightParen => "RightParen"
  | leftBrace => "LeftBrace"
  | rightBrace => "RightBrace"
  | comma => "Comma"
  | dot => "Dot"
  | minus => "Minus"
  | plus => "Plus"
  | semicolon => "Semicolon"
  | slash => "Slash"
  | star => "Star"
  | bang => "Bang"
  | bangEqual => "BangEqual"
  | equal => "Equal"
  | equalEqual => "EqualEqual"
  | greater => "Greater"
  | greaterEqual => "GreaterEqual"
  | less => "Less"
  | lessEqual => "LessEqual"
  | identifier => "Identifier"
  | string => "String"
  | number => "Number"
  | andWord => "And"
  | classWord => "Class"
  | elseWord => "Else"
  | falseWord => "False"
  | funWord => "Fun"
  | forWord => "For"
  | ifWord => "If"
  | nullWord => "Null"
  | orWord => "Or"
  | printWord => "Print"
  | returnWord => "Return"
  | superWord => "Super"
  | thisWord => "This"
  | trueWord => "True"
  | varWord => "Var"
  | whileWord => "While"
  | eof => "Eof"

/-- The kind with a given name in listings. -/
def ofName? (text : String) : Option Kind := all.find? (·.name == text)

/-- The reserved words and their kinds. -/
def reserved : List (String × Kind) :=
  [("and", andWord), ("class", classWord), ("else", elseWord), ("false", falseWord),
    ("for", forWord), ("fun", funWord), ("if", ifWord), ("null", nullWord), ("or", orWord),
    ("print", printWord), ("return", returnWord), ("super", superWord), ("this", thisWord),
    ("true", trueWord), ("var", varWord), ("while", whileWord)]

/-- The kind of a word: its own if the word is reserved, an identifier otherwise. -/
def ofWord (word : String) : Kind := (reserved.lookup word).getD identifier

/-- Keywords are the kinds of the reserved words. -/
def isKeyword (k : Kind) : Bool := reserved.any (·.2 == k)

end Kind
end Lox
