import Lox.Diagnostic.Code

/-!
The manual: a page of explanation for every code.
-/

namespace Lox
namespace Code

def page : Code → String
  | unexpectedCharacter =>
      "# E0001: unexpected character\n" ++
      "\n" ++
      "The scanner found a character that does not begin any token, such as\n" ++
      "`@`, `$`, `^` or a backtick. Each such character is reported once and\n" ++
      "scanning continues with the next one.\n" ++
      "\n" ++
      "    var a = 1 @ 2;   // Error: Unexpected character.\n"
  | unterminatedString =>
      "# E0002: unterminated string\n" ++
      "\n" ++
      "A string literal was opened with `\"` but the input ended before the\n" ++
      "closing quote. Strings may span lines, so the error is reported on the\n" ++
      "last line of the input.\n" ++
      "\n" ++
      "    print \"hello;   // Error: Unterminated String.\n"
  | expectedExpression =>
      "# E1001: expected expression\n" ++
      "\n" ++
      "The parser needed an expression (a literal, a variable, a grouping or an\n" ++
      "operator application) but found a token that cannot start one.\n" ++
      "\n" ++
      "    ;            // Error at ';': Expect expression.\n" ++
      "    print 1 +;   // Error at ';': Expect expression.\n"
  | expectedToken =>
      "# E1002: expected token\n" ++
      "\n" ++
      "A required piece of punctuation is missing: the `;` ending a statement,\n" ++
      "the `)` closing a grouping or condition, or the `\x7d` closing a block.\n" ++
      "\n" ++
      "    print 10\n" ++
      "    var a = 20;   // Error at 'var': Expect ';' after value.\n"
  | expectedIdentifier =>
      "# E1003: expected identifier\n" ++
      "\n" ++
      "`var` must be followed by the name of the variable being declared.\n" ++
      "\n" ++
      "    var = 20;   // Error at '=': Expect variable name.\n"
  | invalidTarget =>
      "# E1004: invalid assignment target\n" ++
      "\n" ++
      "Only a variable can appear on the left of `=`. Parsing continues after\n" ++
      "this error, so later mistakes are still reported.\n" ++
      "\n" ++
      "    1 = 2;       // Error at '=': Invalid assignment target.\n" ++
      "    (a) = 3;     // Error at '=': Invalid assignment target.\n"
  | operandNotNumber =>
      "# E6001: operand must be a number\n" ++
      "\n" ++
      "Unary `-` only applies to numbers.\n" ++
      "\n" ++
      "    print -\"abc\";   // Operand must be a number.\n"
  | operandMismatch =>
      "# E6002: operand type mismatch\n" ++
      "\n" ++
      "`-`, `*`, `/`, `<`, `<=`, `>` and `>=` need two numbers. `+` needs two\n" ++
      "numbers or two strings; there is no implicit conversion between them.\n" ++
      "\n" ++
      "    print 1 - \"a\";   // Operands must be numbers.\n" ++
      "    print 1 + \"a\";   // Operands must be two numbers or two strings.\n"
  | undefinedVariable =>
      "# E6003: undefined variable\n" ++
      "\n" ++
      "A variable was read or assigned before any `var` declaration of that\n" ++
      "name is visible. Assignment never creates a variable.\n" ++
      "\n" ++
      "    print undef;   // Undefined Variable 'undef'.\n" ++
      "    b = 1;         // Undefined Variable 'b'.\n"

/-- The page for a code given by its text, or what is said of a text that is no code. -/
def explain (text : String) : Except String String :=
  match ofText? text with
  | some c => .ok c.page
  | none => .error ("Unknown error code: " ++ text)

end Code
end Lox
