import Lox.Phrase.Program
import Lox.Proofs.Relabel.Tree

/-!
Tokens and trees that hold numbers where others hold texts: the number of a name, and that of what a
string contains. Texts can be numbered in any way.
-/

namespace Lox

namespace Numbered

inductive Literal
  | nil
  | bool (b : Bool)
  | number (x : Float)
  | string (contents : Name)
  deriving DecidableEq, Repr, Inhabited

structure Token where
  kind : Kind
  lexeme : Name
  literal : Option Literal := none
  line : Nat
  deriving DecidableEq, Repr, Inhabited

inductive Expr
  | literal (value : Literal)
  | grouping (inner : Expr)
  | unary (op : UnaryOp) (line : Nat) (operand : Expr)
  | binary (op : BinaryOp) (line : Nat) (left right : Expr)
  | logical (op : LogicalOp) (left right : Expr)
  | var (name : Name) (line : Nat)
  | assign (name : Name) (line : Nat) (value : Expr)
  deriving DecidableEq, Repr, Inhabited

inductive Stmt
  | expression (e : Expr)
  | print (e : Expr)
  | declare (name : Name) (initializer : Option Expr) (line : Nat)
  | block (body : List Stmt)
  | ifThen (condition : Expr) (thenBranch : Stmt)
  | ifElse (condition : Expr) (thenBranch elseBranch : Stmt)
  | loop (condition : Expr) (body : Stmt)
  deriving Repr, Inhabited

end Numbered

section

variable (ν : String → Name)

def Value.numbered : Value → Numbered.Literal
  | nil => .nil
  | bool b => .bool b
  | number x => .number x
  | string s => .string (ν s)

def Token.numbered (t : Token) : Numbered.Token where
  kind := t.kind
  lexeme := ν t.lexeme
  literal := t.literal.map (Value.numbered ν)
  line := t.line

def Expr.numbered : Expr → Numbered.Expr
  | literal v => .literal (v.numbered ν)
  | grouping e => .grouping e.numbered
  | unary op line e => .unary op line e.numbered
  | binary op line l r => .binary op line l.numbered r.numbered
  | logical op l r => .logical op l.numbered r.numbered
  | var name line => .var (ν name) line
  | assign name line e => .assign (ν name) line e.numbered

namespace Stmt

mutual

def numbered : Stmt → Numbered.Stmt
  | .expression e => .expression (e.numbered ν)
  | .print e => .print (e.numbered ν)
  | .declare name init line => .declare (ν name) (init.map (Expr.numbered ν)) line
  | .block body => .block (allNumbered body)
  | .ifThen e s => .ifThen (e.numbered ν) s.numbered
  | .ifElse e s s' => .ifElse (e.numbered ν) s.numbered s'.numbered
  | .loop e s => .loop (e.numbered ν) s.numbered

def allNumbered : List Stmt → List Numbered.Stmt
  | [] => []
  | s :: rest => s.numbered :: allNumbered rest

end

end Stmt

end

section

variable (t : NameTable)

def Value.Known : Value → Prop
  | string s => (t.find? s).isSome
  | _ => True

/-- A table has numbers for all names and strings of an expression. -/
def Expr.Known : Expr → Prop
  | literal v => v.Known t
  | grouping e | unary _ _ e => e.Known
  | binary _ _ l r | logical _ l r => l.Known ∧ r.Known
  | var name _ => (t.find? name).isSome
  | assign name _ e => (t.find? name).isSome ∧ e.Known

namespace Stmt

mutual

def Known : Stmt → Prop
  | .expression e | .print e => e.Known t
  | .declare name init _ => (t.find? name).isSome ∧ ∀ e ∈ init, e.Known t
  | .block body => AllKnown body
  | .ifThen e s | .loop e s => e.Known t ∧ s.Known
  | .ifElse e s s' => e.Known t ∧ s.Known ∧ s'.Known

def AllKnown : List Stmt → Prop
  | [] => True
  | s :: rest => s.Known ∧ AllKnown rest

end

end Stmt

end

section

variable {ρ : Relabeling} {ν ν' : String → Name}

/-- With other texts in the place of the texts, which another numbering gives the same numbers, what
is numbered is the same. -/
structure Relabeling.Carries (ρ : Relabeling) (ν ν' : String → Name) : Prop where
  name : ∀ x, ν' (ρ.name x) = ν x
  contents : ∀ s, ν' (ρ.contents s) = ν s
  line : ρ.line = id

namespace Relabeling.Carries

theorem value (h : ρ.Carries ν ν') (v : Value) : (v.relabel ρ).numbered ν' = v.numbered ν := by
  cases v with
  | string s => exact congrArg Numbered.Literal.string (h.contents s)
  | _ => rfl

theorem expr (h : ρ.Carries ν ν') (e : Expr) : (e.relabel ρ).numbered ν' = e.numbered ν := by
  induction e with
  | literal v => exact congrArg Numbered.Expr.literal (h.value v)
  | grouping _ ih | unary _ _ _ ih => simp [Expr.relabel, Expr.numbered, h.line, ih]
  | binary _ _ _ _ ihl ihr | logical _ _ _ ihl ihr =>
      simp [Expr.relabel, Expr.numbered, h.line, ihl, ihr]
  | var name line => simp [Expr.relabel, Expr.numbered, h.name, h.line]
  | assign name line e ih => simp [Expr.relabel, Expr.numbered, h.name, h.line, ih]

mutual

theorem stmt (h : ρ.Carries ν ν') (s : Stmt) : (s.relabel ρ).numbered ν' = s.numbered ν := by
  cases s with
  | expression e | print e => simp [Stmt.relabel, Stmt.numbered, h.expr]
  | declare name init line =>
      cases init <;> simp [Stmt.relabel, Stmt.numbered, h.name, h.line, h.expr]
  | block body => exact congrArg Numbered.Stmt.block (h.all body)
  | ifThen e s | loop e s => simp [Stmt.relabel, Stmt.numbered, h.expr, h.stmt s]
  | ifElse e s s' => simp [Stmt.relabel, Stmt.numbered, h.expr, h.stmt s, h.stmt s']

theorem all (h : ρ.Carries ν ν') (body : List Stmt) :
    Stmt.allNumbered ν' (Stmt.relabelAll ρ body) = Stmt.allNumbered ν body := by
  cases body with
  | nil => rfl
  | cons s rest => simp [Stmt.relabelAll, Stmt.allNumbered, h.stmt s, h.all rest]

end

end Relabeling.Carries

end

end Lox
