import Mathlib.Logic.Function.Basic
import Lox.Lexical.Reading
import Lox.Phrase.Program

/-!
Other texts and other lines for the tokens and trees of a program. What a program is made of stays
as it is; only the texts of tokens, the names of variables, what strings contain and the lines on
which all this stands change.
-/

namespace Lox

/-- What to put in the place of names, of what strings contain, and of lines. -/
structure Relabeling where
  name : String → String := id
  contents : String → String := id
  line : Nat → Nat := id

namespace Relabeling

def ofLines (line : Nat → Nat) : Relabeling where
  line := line

def below (lines : Nat) : Relabeling := ofLines (· + lines)

def flat : Relabeling := ofLines fun _ => 0

end Relabeling

variable (ρ : Relabeling)

def Value.relabel : Value → Value
  | string s => string (ρ.contents s)
  | v => v

@[simp]
theorem Value.relabel_ofLines (line : Nat → Nat) (v : Value) : v.relabel (.ofLines line) = v := by
  cases v <;> rfl

def Token.relabel (t : Token) : Token where
  kind := t.kind
  lexeme := ρ.name t.lexeme
  literal := t.literal.map (Value.relabel ρ)
  line := ρ.line t.line

@[simp]
theorem Token.kind_relabel (t : Token) : (t.relabel ρ).kind = t.kind := rfl

theorem Token.relabel_ofLines (line : Nat → Nat) (t : Token) :
    t.relabel (.ofLines line) = { t with line := line t.line } := by
  have literal : t.literal.map (Value.relabel (.ofLines line)) = t.literal := by
    cases t.literal <;> simp
  rw [relabel, literal]
  rfl

def LexicalError.relabel (e : LexicalError) : LexicalError where
  problem := e.problem
  line := ρ.line e.line

def Fault.relabel (f : Fault) : Fault where
  problem := f.problem
  found := f.found.map (Token.relabel ρ)

def Expr.relabel : Expr → Expr
  | literal v => literal (v.relabel ρ)
  | grouping e => grouping e.relabel
  | unary op line e => unary op (ρ.line line) e.relabel
  | binary op line l r => binary op (ρ.line line) l.relabel r.relabel
  | logical op l r => logical op l.relabel r.relabel
  | var name line => var (ρ.name name) (ρ.line line)
  | assign name line e => assign (ρ.name name) (ρ.line line) e.relabel

namespace Stmt

mutual

def relabel : Stmt → Stmt
  | .expression e => .expression (e.relabel ρ)
  | .print e => .print (e.relabel ρ)
  | .declare name init line =>
      .declare (ρ.name name) (init.map (Expr.relabel ρ)) (ρ.line line)
  | .block body => .block (relabelAll body)
  | .ifThen e s => .ifThen (e.relabel ρ) s.relabel
  | .ifElse e s s' => .ifElse (e.relabel ρ) s.relabel s'.relabel
  | .loop e s => .loop (e.relabel ρ) s.relabel

def relabelAll : List Stmt → List Stmt
  | [] => []
  | s :: rest => s.relabel :: relabelAll rest

end

theorem relabelAll_eq (body : List Stmt) : relabelAll ρ body = body.map (relabel ρ) := by
  induction body with
  | nil => rfl
  | cons s rest ih => rw [relabelAll, ih, List.map_cons]

theorem relabel_forLoop (first : Option Stmt) (condition increment : Option Expr) (s : Stmt) :
    (forLoop first condition increment s).relabel ρ =
      forLoop (first.map (relabel ρ)) (condition.map (Expr.relabel ρ))
        (increment.map (Expr.relabel ρ)) (s.relabel ρ) := by
  cases first <;> cases condition <;> cases increment <;>
    simp [forLoop, relabel, relabelAll, Expr.relabel, Value.relabel]

end Stmt

theorem Connective.relabel_join (c : Connective) (line : Nat) (l r : Expr) :
    (c.join line l r).relabel ρ = c.join (ρ.line line) (l.relabel ρ) (r.relabel ρ) := by
  cases c <;> rfl

end Lox
