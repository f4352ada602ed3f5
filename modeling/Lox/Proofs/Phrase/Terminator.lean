import Lox.Proofs.Phrase.Cursor
import Lox.Proofs.Phrase.Recovery

/-!
Where a missing semicolon is reported. If the semicolon of a plain statement is left out of tokens
that are read without a fault, the first fault is that it is missing, found at the token after it,
whatever is around the statement; only a minus there is taken for a part of the statement.
-/

namespace Lox

namespace Stmt

/-- The wording of a statement stands among the tokens of another one that it is or is part of,
behind some of them and in front of others. The clauses of a `for` loop are no such parts. -/
inductive Holds (p : Stmt) (x : List Token) : List Token → List Token → Stmt → Bool → Prop
  | here {tail : Bool} (h : Wording x p tail) : Holds p x [] [] p tail
  | block {l r : Token} {u v : List Token} {s : Stmt} {tail : Bool}
      {before after : List (List Token × Stmt × Bool)} (hl : l.kind = .leftBrace)
      (hb : ∀ q ∈ before, Wording q.1 q.2.1 q.2.2) (inside : Holds p x u v s tail)
      (ha : ∀ q ∈ after, Wording q.1 q.2.1 q.2.2) (hr : r.kind = .rightBrace) :
      Holds p x (l :: before.flatMap (·.1) ++ u) (v ++ after.flatMap (·.1) ++ [r])
        (.block (before.map (·.2.1) ++ s :: after.map (·.2.1))) false
  | ifThen {f l r : Token} {w u v : List Token} {e : Expr} {s : Stmt} {tail : Bool}
      (hf : f.kind = .ifWord) (hl : l.kind = .leftParen) (condition : Expr.Wording w e)
      (hr : r.kind = .rightParen) (hs : s.isDeclaration = false) (inside : Holds p x u v s tail) :
      Holds p x (f :: l :: w ++ r :: u) v (.ifThen e s) true
  | thenBranch {f l r o : Token} {w u v z : List Token} {e : Expr} {s s' : Stmt} {tail : Bool}
      (hf : f.kind = .ifWord) (hl : l.kind = .leftParen) (condition : Expr.Wording w e)
      (hr : r.kind = .rightParen) (hs : s.isDeclaration = false) (inside : Holds p x u v s false)
      (ho : o.kind = .elseWord) (hs' : s'.isDeclaration = false) (elseBranch : Wording z s' tail) :
      Holds p x (f :: l :: w ++ r :: u) (v ++ o :: z) (.ifElse e s s') tail
  | elseBranch {f l r o : Token} {w u v z : List Token} {e : Expr} {s s' : Stmt} {tail : Bool}
      (hf : f.kind = .ifWord) (hl : l.kind = .leftParen) (condition : Expr.Wording w e)
      (hr : r.kind = .rightParen) (hs : s.isDeclaration = false) (thenBranch : Wording z s false)
      (ho : o.kind = .elseWord) (hs' : s'.isDeclaration = false) (inside : Holds p x u v s' tail) :
      Holds p x (f :: l :: w ++ r :: z ++ o :: u) v (.ifElse e s s') tail
  | loop {f l r : Token} {w u v : List Token} {e : Expr} {s : Stmt} {tail : Bool}
      (hf : f.kind = .whileWord) (hl : l.kind = .leftParen) (condition : Expr.Wording w e)
      (hr : r.kind = .rightParen) (hs : s.isDeclaration = false) (inside : Holds p x u v s tail) :
      Holds p x (f :: l :: w ++ r :: u) v (.loop e s) tail
  | forLoop {f l c r : Token} {w₁ w₂ w₃ u v : List Token} {first : Option Stmt}
      {condition increment : Option Expr} {s : Stmt} {tail : Bool}
      (hf : f.kind = .forWord) (hl : l.kind = .leftParen) (start : Starting w₁ first)
      (test : Clause w₂ condition) (hc : c.kind = .semicolon) (step : Clause w₃ increment)
      (hr : r.kind = .rightParen) (hs : s.isDeclaration = false) (inside : Holds p x u v s tail) :
      Holds p x (f :: l :: w₁ ++ w₂ ++ c :: w₃ ++ r :: u) v
        (.forLoop first condition increment s) tail

end Stmt

def Kind.followsStatement : Kind → Bool
  | .rightBrace | .elseWord | .varWord => true
  | k => k.beginsStatement

theorem Kind.followsStatement_of_begins {k : Kind}
    (h : k.beginsStatement = true ∨ k = .varWord) : k.followsStatement = true := by
  obtain h | rfl := h
  · cases k <;> simp_all [followsStatement, beginsStatement, beginsExpression]
  · rfl

theorem head?_append_of_forall {P : Token → Prop} {u v : List Token} (hu : ∀ n ∈ u.head?, P n)
    (hv : ∀ n ∈ v.head?, P n) : ∀ n ∈ (u ++ v).head?, P n := by
  cases u with
  | nil => exact hv
  | cons t u => exact hu

namespace Stmt

theorem follows_of_parts {parts : List (List Token × Stmt × Bool)}
    (h : ∀ q ∈ parts, Wording q.1 q.2.1 q.2.2) :
    ∀ n ∈ (parts.flatMap (·.1)).head?, n.kind.followsStatement = true := by
  cases parts with
  | nil => simp
  | cons q parts =>
      obtain ⟨n, more, hq, hn⟩ := (h q List.mem_cons_self).head
      rw [List.flatMap_cons, hq]
      simpa using Kind.followsStatement_of_begins (hn.imp_right And.left)

section

variable {p s : Stmt} {x u v y : List Token} {t : Token} {tail : Bool}

/-- What comes after a statement inside another one begins or closes a statement. -/
theorem Holds.follows (h : Holds p x u v s tail) :
    ∀ n ∈ v.head?, n.kind.followsStatement = true := by
  induction h with
  | here => simp
  | block hl hb inside ha hr ih =>
      exact head?_append_of_forall (head?_append_of_forall ih (follows_of_parts ha))
        (by simp [hr, Kind.followsStatement])
  | thenBranch hf hl condition hr hs inside ho hs' elseBranch ih =>
      exact head?_append_of_forall ih (by simp [ho, Kind.followsStatement])
  | ifThen _ _ _ _ _ _ ih | elseBranch _ _ _ _ _ _ _ _ _ ih | loop _ _ _ _ _ _ ih
  | forLoop _ _ _ _ _ _ _ _ _ ih => exact ih

/-- The semicolon at the end of a plain statement cuts the tokens around it. -/
theorem Holds.cut (h : Holds p (y ++ [t]) u v s tail) (plain : p.Plain) :
    Cut (u ++ y) t v s tail := by
  induction h with
  | here h => exact .here h plain
  | block hl hb inside ha hr ih => simpa using Cut.block hl hb (ih) ha hr
  | ifThen hf hl condition hr hs inside ih => simpa using Cut.ifThen hf hl condition hr hs ih
  | thenBranch hf hl condition hr hs inside ho hs' elseBranch ih =>
      simpa using Cut.thenBranch hf hl condition hr hs ih ho hs' elseBranch
  | elseBranch hf hl condition hr hs thenBranch ho hs' inside ih =>
      simpa using Cut.elseBranch hf hl condition hr hs thenBranch ho hs' ih
  | loop hf hl condition hr hs inside ih => simpa using Cut.loop hf hl condition hr hs ih
  | forLoop hf hl start test hc step hr hs inside ih =>
      simpa using Cut.forLoop hf hl start test hc step hr hs ih

end

end Stmt

namespace Reply

variable {α : Type}

/-- The faults of a reply in order, last the one that stopped the reader. -/
def faults : Reply α → List Fault
  | done _ passed _ => passed
  | failed fault passed _ => passed ++ [fault]

end Reply

namespace Reader

variable {α β : Type}

section

variable {p q : Reader α} {tokens tokens' : List Token} {fault : Fault}

end

variable {p s : Stmt} {piece : Piece} {u v y back : List Token} {t : Token} {tail : Bool}

end Reader

namespace Program

/-- The semicolon at a place among tokens ends a plain statement, which is one of the statements
that the tokens are read as, or part of one. -/
inductive EndsAt (tokens : List Token) (i : Nat) (p : Stmt) : Prop
  | intro {u y v : List Token} {t : Token} {s : Stmt} {tail : Bool}
      {before after : List (List Token × Stmt × Bool)} (plain : p.Plain)
      (split : body tokens =
        before.flatMap (·.1) ++ (u ++ (y ++ t :: (v ++ after.flatMap (·.1)))))
      (place : i = (before.flatMap (·.1) ++ (u ++ y)).length)
      (hb : ∀ q ∈ before, Stmt.Wording q.1 q.2.1 q.2.2)
      (inside : Stmt.Holds p (y ++ [t]) u v s tail)
      (ha : ∀ q ∈ after, Stmt.Wording q.1 q.2.1 q.2.2)

theorem EndsAt.plain {tokens : List Token} {i : Nat} {p : Stmt} (h : EndsAt tokens i p) :
    p.Plain := by
  cases h
  assumption

end Program

end Lox
