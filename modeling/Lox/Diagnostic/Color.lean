/-!
When reports are coloured, and how the environment decides it.
-/

namespace Lox

inductive ColorMode
  | auto
  | always
  | never
  deriving DecidableEq, Repr, Inhabited

namespace ColorMode

/-- Whether to use colours; `auto` does on a terminal only. -/
def useColors (mode : ColorMode) (terminal : Bool) : Bool :=
  match mode with
  | auto => terminal
  | always => true
  | never => false

/-- The mode that environment variables ask for. A `NO_COLOR` that is not empty turns colours off;
otherwise `LOX_COLOR` may be `always` or `never`, and anything else leaves it to the terminal. -/
def ofVariables (value? : String → Option String) : ColorMode :=
  if (value? "NO_COLOR").any (· != "") then never
  else
    match value? "LOX_COLOR" with
    | some "always" => always
    | some "never" => never
    | _ => auto

end ColorMode
end Lox
