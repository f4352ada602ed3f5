import Lox.Proofs.Phrase.Ladder

/-!
How trees are worded: which tokens stand for an expression or a statement. Trees of every shape have
their constructor here, a `for` loop included. Conditions on levels make an operand bind as tightly
as its place demands, and the mark of an open `if` keeps an `else` from being taken for another one.
-/

namespace Lox

/-- The level of an expression, from the tightest to the loosest: primary, unary, factor, term,
comparison, equality, conjunction, disjunction, assignment. -/
def Expr.level : Expr → Nat
  | literal _ | grouping _ | var _ _ => 0
  | unary _ _ _ => 1
  | binary .multiply _ _ _ | binary .divide _ _ _ => 2
  | binary .add _ _ _ | binary .subtract _ _ _ => 3
  | binary .less _ _ _ | binary .lessEqual _ _ _
  | binary .greater _ _ _ | binary .greaterEqual _ _ _ => 4
  | binary .equal _ _ _ | binary .notEqual _ _ _ => 5
  | logical .and _ _ => 6
  | logical .or _ _ => 7
  | assign _ _ _ => 8

inductive Expr.Wording : List Token → Expr → Prop
  | literal {t : Token} {v : Value} (h : t.value? = some v) : Wording [t] (.literal v)
  | var {t : Token} (h : t.kind = .identifier) : Wording [t] (.var t.lexeme t.line)
  | grouping {l r : Token} {w : List Token} {e : Expr} (hl : l.kind = .leftParen)
      (inner : Wording w e) (hr : r.kind = .rightParen) : Wording (l :: w ++ [r]) (.grouping e)
  | unary {t : Token} {op : UnaryOp} {w : List Token} {e : Expr}
      (ht : UnaryOp.ofKind? t.kind = some op) (level : e.level ≤ 1) (operand : Wording w e) :
      Wording (t :: w) (.unary op t.line e)
  | joined {t : Token} {c : Connective} {u v : List Token} {l r : Expr}
      (ht : Connective.ofKind? t.kind = some c) (hl : l.level ≤ c.rank + 1)
      (hr : r.level ≤ c.rank) (left : Wording u l) (right : Wording v r) :
      Wording (u ++ t :: v) (c.join t.line l r)
  | assign {n q : Token} {w : List Token} {e : Expr} (hn : n.kind = .identifier)
      (hq : q.kind = .equal) (value : Wording w e) :
      Wording (n :: q :: w) (.assign n.lexeme n.line e)

namespace Stmt

def isDeclaration : Stmt → Bool
  | .declare _ _ _ => true
  | _ => false

def Plain : Stmt → Prop
  | .expression _ | .print _ | .declare _ _ _ => True
  | .block _ | .ifThen _ _ | .ifElse _ _ _ | .loop _ _ => False

inductive Declaring : List Token → Stmt → Prop
  | bare {v n t : Token} (hv : v.kind = .varWord) (hn : n.kind = .identifier)
      (ht : t.kind = .semicolon) : Declaring [v, n, t] (.declare n.lexeme none n.line)
  | initialized {v n q t : Token} {w : List Token} {e : Expr} (hv : v.kind = .varWord)
      (hn : n.kind = .identifier) (hq : q.kind = .equal) (value : Expr.Wording w e)
      (ht : t.kind = .semicolon) :
      Declaring (v :: n :: q :: w ++ [t]) (.declare n.lexeme (some e) n.line)

inductive Evaluating : List Token → Stmt → Prop
  | intro {t : Token} {w : List Token} {e : Expr} (value : Expr.Wording w e)
      (ht : t.kind = .semicolon) : Evaluating (w ++ [t]) (.expression e)

inductive Starting : List Token → Option Stmt → Prop
  | absent {t : Token} (ht : t.kind = .semicolon) : Starting [t] none
  | declaring {w : List Token} {s : Stmt} (h : Declaring w s) : Starting w (some s)
  | evaluating {w : List Token} {s : Stmt} (h : Evaluating w s) : Starting w (some s)

inductive Clause : List Token → Option Expr → Prop
  | absent : Clause [] none
  | present {w : List Token} {e : Expr} (h : Expr.Wording w e) : Clause w (some e)

/-- The tokens that stand for a statement or a declaration, and whether they end in an `if` to which
an `else` could be added. -/
inductive Wording : List Token → Stmt → Bool → Prop
  | declaring {w : List Token} {s : Stmt} (h : Declaring w s) : Wording w s false
  | evaluating {w : List Token} {s : Stmt} (h : Evaluating w s) : Wording w s false
  | print {p t : Token} {w : List Token} {e : Expr} (hp : p.kind = .printWord)
      (value : Expr.Wording w e) (ht : t.kind = .semicolon) :
      Wording (p :: w ++ [t]) (.print e) false
  | block {l r : Token} {parts : List (List Token × Stmt × Bool)} (hl : l.kind = .leftBrace)
      (body : ∀ p ∈ parts, Wording p.1 p.2.1 p.2.2) (hr : r.kind = .rightBrace) :
      Wording (l :: parts.flatMap (·.1) ++ [r]) (.block (parts.map (·.2.1))) false
  | ifThen {f l r : Token} {w u : List Token} {e : Expr} {s : Stmt} {tail : Bool}
      (hf : f.kind = .ifWord) (hl : l.kind = .leftParen) (condition : Expr.Wording w e)
      (hr : r.kind = .rightParen) (hs : s.isDeclaration = false) (thenBranch : Wording u s tail) :
      Wording (f :: l :: w ++ r :: u) (.ifThen e s) true
  | ifElse {f l r o : Token} {w u v : List Token} {e : Expr} {s s' : Stmt} {tail : Bool}
      (hf : f.kind = .ifWord) (hl : l.kind = .leftParen) (condition : Expr.Wording w e)
      (hr : r.kind = .rightParen) (hs : s.isDeclaration = false) (thenBranch : Wording u s false)
      (ho : o.kind = .elseWord) (hs' : s'.isDeclaration = false) (elseBranch : Wording v s' tail) :
      Wording (f :: l :: w ++ r :: u ++ o :: v) (.ifElse e s s') tail
  | loop {f l r : Token} {w u : List Token} {e : Expr} {s : Stmt} {tail : Bool}
      (hf : f.kind = .whileWord) (hl : l.kind = .leftParen) (condition : Expr.Wording w e)
      (hr : r.kind = .rightParen) (hs : s.isDeclaration = false) (body : Wording u s tail) :
      Wording (f :: l :: w ++ r :: u) (.loop e s) tail
  | forLoop {f l t r : Token} {w₁ w₂ w₃ u : List Token} {first : Option Stmt}
      {condition increment : Option Expr} {s : Stmt} {tail : Bool}
      (hf : f.kind = .forWord) (hl : l.kind = .leftParen) (start : Starting w₁ first)
      (test : Clause w₂ condition) (ht : t.kind = .semicolon) (step : Clause w₃ increment)
      (hr : r.kind = .rightParen) (hs : s.isDeclaration = false) (body : Wording u s tail) :
      Wording (f :: l :: w₁ ++ w₂ ++ t :: w₃ ++ r :: u) (.forLoop first condition increment s) tail

end Stmt

theorem Connective.level_join (c : Connective) (line : Nat) (l r : Expr) :
    (c.join line l r).level = c.rank + 1 := by
  cases c with
  | binary op => cases op <;> rfl
  | logical op => cases op <;> rfl

theorem Expr.level_le (e : Expr) : e.level ≤ 8 := by
  cases e with
  | binary op _ _ _ => cases op <;> simp [level]
  | logical op _ _ => cases op <;> simp [level]
  | _ => simp [level]

theorem Connective.rank_pos (c : Connective) : 0 < c.rank := by
  cases c with
  | binary op => cases op <;> decide
  | logical op => cases op <;> decide

theorem Connective.rank_le_loosest (c : Connective) : c.rank ≤ loosest := by
  cases c with
  | binary op => cases op <;> decide
  | logical op => cases op <;> decide

theorem Connective.join_ne_var (c : Connective) (line : Nat) (l r : Expr) (name : String)
    (at' : Nat) : c.join line l r ≠ .var name at' := by
  cases c <;> simp [join]

theorem Expr.Wording.of_var {w : List Token} {name : String} {line : Nat}
    (h : Wording w (.var name line)) :
    ∃ t : Token, w = [t] ∧ t.kind = .identifier ∧ t.lexeme = name ∧ t.line = line := by
  generalize he : Expr.var name line = e at h
  cases h with
  | var ht =>
      cases he
      exact ⟨_, rfl, ht, rfl, rfl⟩
  | joined => exact absurd he.symm (Connective.join_ne_var _ _ _ _ _ _)
  | _ => cases he

def Kind.beginsExpression : Kind → Bool
  | .falseWord | .trueWord | .nullWord | .number | .string | .identifier
  | .leftParen | .bang | .minus => true
  | _ => false

theorem Expr.Wording.head {w : List Token} {e : Expr} (h : Wording w e) :
    ∃ t rest, w = t :: rest ∧ t.kind.beginsExpression = true := by
  induction h with
  | @literal t v ht =>
      refine ⟨t, [], rfl, ?_⟩
      unfold Token.value? at ht
      split at ht <;> simp_all [Kind.beginsExpression]
  | var ht => exact ⟨_, [], rfl, by simp [ht, Kind.beginsExpression]⟩
  | grouping hl => exact ⟨_, _, rfl, by simp [hl, Kind.beginsExpression]⟩
  | @unary t op w e ht =>
      refine ⟨t, w, rfl, ?_⟩
      unfold UnaryOp.ofKind? at ht
      split at ht <;> simp_all [Kind.beginsExpression]
  | joined _ _ _ _ _ ih =>
      obtain ⟨t, rest, rfl, ht⟩ := ih
      exact ⟨t, _, rfl, ht⟩
  | assign hn => exact ⟨_, _, rfl, by simp [hn, Kind.beginsExpression]⟩

theorem Kind.ne_of_beginsExpression {j k : Kind} (hj : j.beginsExpression = true)
    (hk : k.beginsExpression = false) : j ≠ k := by
  rintro rfl
  rw [hj] at hk
  cases hk

namespace Stmt

theorem Declaring.head {w : List Token} {s : Stmt} (h : Declaring w s) :
    ∃ t rest, w = t :: rest ∧ t.kind = .varWord := by
  cases h with
  | bare hv | initialized hv => exact ⟨_, _, rfl, hv⟩

theorem Evaluating.head {w : List Token} {s : Stmt} (h : Evaluating w s) :
    ∃ t rest, w = t :: rest ∧ t.kind.beginsExpression = true := by
  obtain ⟨value, _⟩ := h
  obtain ⟨t, rest, rfl, ht⟩ := value.head
  exact ⟨t, _, rfl, ht⟩

theorem Declaring.plain {w : List Token} {s : Stmt} (h : Declaring w s) : s.Plain := by
  cases h with
  | bare | initialized => trivial

theorem Evaluating.plain {w : List Token} {s : Stmt} (h : Evaluating w s) : s.Plain := by
  obtain ⟨_, _⟩ := h
  trivial

end Stmt

def Kind.beginsStatement : Kind → Bool
  | .printWord | .leftBrace | .ifWord | .whileWord | .forWord => true
  | k => k.beginsExpression

theorem Stmt.Wording.head {w : List Token} {s : Stmt} {tail : Bool} (h : Wording w s tail) :
    ∃ t rest, w = t :: rest ∧
      (t.kind.beginsStatement = true ∨ t.kind = .varWord ∧ s.isDeclaration = true) := by
  cases h with
  | declaring h =>
      obtain ⟨t, rest, rfl, ht⟩ := h.head
      exact ⟨t, rest, rfl, .inr ⟨ht, by cases h <;> rfl⟩⟩
  | evaluating h =>
      obtain ⟨t, rest, rfl, ht⟩ := h.head
      refine ⟨t, rest, rfl, .inl ?_⟩
      cases hk : t.kind <;> simp_all [Kind.beginsStatement, Kind.beginsExpression]
  | print hp => exact ⟨_, _, rfl, .inl (by rw [hp]; rfl)⟩
  | block hl => exact ⟨_, _, rfl, .inl (by rw [hl]; rfl)⟩
  | ifThen hf | ifElse hf | loop hf | forLoop hf => exact ⟨_, _, rfl, .inl (by rw [hf]; rfl)⟩

end Lox
