import Lox.Proofs.Names
import Lox.Proofs.Numbered.Tree
import Lox.Proofs.Relabel.Reading

/-!
Reading tokens that hold numbers. No text of a token is looked at, so that tokens with numbers are
read as statements with the same numbers, whatever texts the numbers stand for. All that such
statements hold comes from the tokens.
-/

namespace Lox

namespace Name

def spelled (n : Name) : String := String.ofList (List.replicate n.index '|')

def told (text : String) : Name := ⟨text.length⟩

end Name

namespace Numbered

def Literal.spelled : Literal → Value
  | nil => .nil
  | bool b => .bool b
  | number x => .number x
  | string n => .string n.spelled

def Token.spelled (t : Token) : Lox.Token where
  kind := t.kind
  lexeme := t.lexeme.spelled
  literal := t.literal.map Literal.spelled
  line := t.line

/-- The statements that tokens with numbers are read as. The texts that tell the numbers only carry
them through the reader. -/
def statements (tokens : List Token) : List Stmt :=
  Stmt.allNumbered Name.told (Program.ofTokens (tokens.map Token.spelled)).statements

end Numbered

/-- Marks the texts for which a table has no number. -/
def Relabeling.marking (t : NameTable) : Relabeling where
  name x := if (t.find? x).isSome then x else x ++ "?"
  contents s := if (t.find? s).isSome then s else s ++ "?"

section marking

variable {t : NameTable}

theorem Relabeling.name_marking {x : String} :
    (marking t).name x = x ↔ (t.find? x).isSome := by
  by_cases h : (t.find? x).isSome <;> simp [marking, h]

theorem Relabeling.contents_marking {s : String} :
    (marking t).contents s = s ↔ (t.find? s).isSome :=
  name_marking

theorem Value.relabel_marking {v : Value} : v.relabel (.marking t) = v ↔ v.Known t := by
  cases v with
  | string s => rw [relabel, Value.string.injEq, Relabeling.contents_marking, Known]
  | _ => exact iff_of_true rfl trivial

theorem Token.relabel_marking {token : Token} (known : ∀ x ∈ token.names, (t.find? x).isSome) :
    token.relabel (.marking t) = token := by
  have name : (Relabeling.marking t).name token.lexeme = token.lexeme :=
    Relabeling.name_marking.2 (known _ token.lexeme_mem_names)
  have literal : token.literal.map (Value.relabel (.marking t)) = token.literal := by
    cases h : token.literal with
    | none => rfl
    | some v =>
        refine congrArg some (Value.relabel_marking.2 ?_)
        cases v with
        | string s => exact known s (by simp [names, h])
        | _ => trivial
  rw [relabel, name, literal]
  rfl

/-- Marking changes nothing where all texts are known. -/
theorem Expr.relabel_marking {e : Expr} : e.relabel (.marking t) = e ↔ e.Known t := by
  have line (n : Nat) : (Relabeling.marking t).line n = n := rfl
  induction e with
  | literal v => rw [relabel, Expr.literal.injEq, Value.relabel_marking, Known]
  | grouping _ ih | unary _ _ _ ih => simp [relabel, Known, line, ih]
  | binary _ _ _ _ ihl ihr | logical _ _ _ ihl ihr => simp [relabel, Known, line, ihl, ihr]
  | var => simp [relabel, Known, line, Relabeling.name_marking]
  | assign _ _ _ ih => simp [relabel, Known, line, Relabeling.name_marking, ih]

namespace Stmt

mutual

theorem relabel_marking (s : Stmt) : s.relabel (.marking t) = s ↔ s.Known t := by
  cases s with
  | expression e | print e => simp [relabel, Known, Expr.relabel_marking]
  | declare name init line =>
      have same : (Relabeling.marking t).line line = line := rfl
      cases init <;> simp [relabel, Known, same, Relabeling.name_marking, Expr.relabel_marking]
  | block body => simp [relabel, Known, relabelAll_marking body]
  | ifThen e s | loop e s => simp [relabel, Known, Expr.relabel_marking, relabel_marking s]
  | ifElse e s s' =>
      simp [relabel, Known, Expr.relabel_marking, relabel_marking s, relabel_marking s']

theorem relabelAll_marking (body : List Stmt) :
    relabelAll (.marking t) body = body ↔ AllKnown t body := by
  cases body with
  | nil => simp [relabelAll, AllKnown]
  | cons s rest => simp [relabelAll, AllKnown, relabel_marking s, relabelAll_marking rest]

end

end Stmt

end marking

end Lox
