import Lox.Tree.Text
import Lox.Proofs.Lexical.Pattern
import Lox.Proofs.Number.Spelling
import Lox.Proofs.Relabel.Tree
import Lox.Proofs.Tree.Sexpr

/-!
The S-expressions that trees are written as. The text of a tree is that of its S-expression, and
that tells which tree it is, but for its lines: which sort of node has some operator or word and as
many parts, and whether a word is a value or a name. For this no name may be the word for a value,
no string may hold a quote, and no number may have a sign.
-/

namespace Lox

def Value.sexpr : Value → Sexpr
  | nil => .word "nil".toList
  | bool b => .word (if b then "true" else "false").toList
  | number x => .word (NumberStyle.inTree.render x).toList
  | string s => .quoted s.toList

def Expr.sexpr : Expr → Sexpr
  | literal value => value.sexpr
  | grouping inner => .node "group".toList [inner.sexpr]
  | unary op _ operand => .node op.symbol.toList [operand.sexpr]
  | binary op _ left right => .node op.symbol.toList [left.sexpr, right.sexpr]
  | logical op left right => .node op.symbol.toList [left.sexpr, right.sexpr]
  | var name _ => .word name.toList
  | assign name _ value => .node "=".toList [.word name.toList, value.sexpr]

namespace Stmt

mutual

def sexpr : Stmt → Sexpr
  | .expression e => .node ";".toList [e.sexpr]
  | .print e => .node "print".toList [e.sexpr]
  | .declare name init _ => .node "var".toList (.word name.toList :: (init.map Expr.sexpr).toList)
  | .block body => .node "block".toList (sexprs body)
  | .ifThen condition thenBranch => .node "if".toList [condition.sexpr, thenBranch.sexpr]
  | .ifElse condition thenBranch elseBranch =>
      .node "if-else".toList [condition.sexpr, thenBranch.sexpr, elseBranch.sexpr]
  | .loop condition body => .node "while".toList [condition.sexpr, body.sexpr]

def sexprs : List Stmt → List Sexpr
  | [] => []
  | s :: rest => s.sexpr :: sexprs rest

end

theorem sexprs_eq (body : List Stmt) : sexprs body = body.map sexpr := by
  induction body with
  | nil => rfl
  | cons s rest ih => rw [sexprs, ih, List.map_cons]

end Stmt

@[grind .]
theorem Value.sexpr_ne_node (v : Value) (head : List Char) (parts : List Sexpr) :
    v.sexpr ≠ .node head parts := by
  cases v <;> exact Sexpr.noConfusion

theorem UnaryOp.symbol_inj {op op' : UnaryOp} (h : op.symbol = op'.symbol) : op = op' := by
  cases op <;> cases op' <;> first | rfl | simp [symbol] at h

theorem BinaryOp.symbol_inj {op op' : BinaryOp} (h : op.symbol = op'.symbol) : op = op' := by
  cases op <;> cases op' <;> first | rfl | simp [symbol] at h

theorem LogicalOp.symbol_inj {op op' : LogicalOp} (h : op.symbol = op'.symbol) : op = op' := by
  cases op <;> cases op' <;> first | rfl | simp [symbol] at h

@[grind .]
theorem UnaryOp.symbol_ne_group (op : UnaryOp) : op.symbol.toList ≠ "group".toList := by
  cases op <;> decide

@[grind .]
theorem BinaryOp.symbol_ne_equal (op : BinaryOp) : op.symbol.toList ≠ "=".toList := by
  cases op <;> decide

@[grind .]
theorem LogicalOp.symbol_ne_equal (op : LogicalOp) : op.symbol.toList ≠ "=".toList := by
  cases op <;> decide

@[grind .]
theorem BinaryOp.symbol_ne_symbol (op : BinaryOp) (op' : LogicalOp) :
    op.symbol.toList ≠ op'.symbol.toList := by
  cases op <;> cases op' <;> decide

theorem spaced_eq_intercalate (head : List Char) (parts : List Sexpr) :
    List.intercalate [' '] (head :: parts.map Sexpr.chars) = head ++ Sexpr.spaced parts := by
  induction parts generalizing head with
  | nil => simp [Sexpr.spaced]
  | cons f parts ih =>
      rw [List.map_cons, List.intercalate_cons_cons, ih, Sexpr.spaced, List.append_assoc]
      rfl

/-- What is put in parentheses has the text of a node. -/
theorem toList_parenthesized (head : String) {parts : List String} {sexprs : List Sexpr}
    (h : parts.map String.toList = sexprs.map Sexpr.chars) :
    (parenthesized (head :: parts)).toList = (Sexpr.node head.toList sexprs).chars := by
  rw [parenthesized, String.toList_append, String.toList_append, String.toList_intercalate,
    List.map_cons, h]
  show '(' :: List.intercalate [' '] _ ++ [')'] = _
  rw [spaced_eq_intercalate, Sexpr.chars]
  rfl

theorem Value.toList_treeText (v : Value) : v.treeText.toList = v.sexpr.chars := by
  cases v with
  | nil | bool | number => rfl
  | string s => simp [treeText, sexpr, Sexpr.chars]

theorem Expr.toList_text (e : Expr) : e.text.toList = e.sexpr.chars := by
  induction e with
  | literal v => exact v.toList_treeText
  | grouping e ih | unary op line e ih => exact toList_parenthesized _ (by simp [ih])
  | binary op line l r ihl ihr | logical op l r ihl ihr =>
      exact toList_parenthesized _ (by simp [ihl, ihr])
  | var => rfl
  | assign name line e ih => exact toList_parenthesized _ (by simp [ih, Sexpr.chars])

namespace Stmt

mutual

theorem toList_text : ∀ s : Stmt, s.text.toList = s.sexpr.chars
  | .expression e | .print e => toList_parenthesized _ (by simp [e.toList_text])
  | .declare name none _ => toList_parenthesized _ (by simp [Sexpr.chars])
  | .declare name (some e) _ => toList_parenthesized _ (by simp [e.toList_text, Sexpr.chars])
  | .block body => toList_parenthesized _ (toList_texts body)
  | .ifThen e s | .loop e s => toList_parenthesized _ (by simp [e.toList_text, s.toList_text])
  | .ifElse e s s' =>
      toList_parenthesized _ (by simp [e.toList_text, s.toList_text, s'.toList_text])

theorem toList_texts : ∀ body : List Stmt,
    (texts body).map String.toList = (sexprs body).map Sexpr.chars
  | [] => rfl
  | s :: rest => by
      rw [texts, sexprs, List.map_cons, List.map_cons, s.toList_text, toList_texts rest]

end

end Stmt

/-- The text of a program is made of the lines of its S-expressions. -/
theorem toList_programText (body : List Stmt) :
    (programText body).toList = Sexpr.lines (body.map Stmt.sexpr) := by
  have lines : (programText body).toList =
      ((Stmt.texts body).map String.toList).flatMap (· ++ ['\n']) := by
    rw [programText, String.toList_join, List.flatMap_map, List.flatMap_map]
    simp
  rw [lines, Stmt.toList_texts, List.flatMap_map, Sexpr.lines, Stmt.sexprs_eq]

open Lexical (isWordStart isWordPart)

/-- A name that is none of the words for values. -/
structure IsName (name : String) : Prop where
  begins : name.toList.head?.any isWordStart = true
  plain : ∀ c ∈ name.toList, isWordPart c = true
  free : name ≠ "nil" ∧ name ≠ "true" ∧ name ≠ "false" ∧ name ≠ "inf"

def Value.Legible : Value → Prop
  | nil | bool _ => True
  | number x => Unsigned x
  | string s => '"' ∉ s.toList

inductive Expr.Legible : Expr → Prop
  | literal {v : Value} (value : v.Legible) : Legible (.literal v)
  | grouping {e : Expr} (inner : Legible e) : Legible (.grouping e)
  | unary {op : UnaryOp} {line : Nat} {e : Expr} (operand : Legible e) :
      Legible (.unary op line e)
  | binary {op : BinaryOp} {line : Nat} {l r : Expr} (left : Legible l) (right : Legible r) :
      Legible (.binary op line l r)
  | logical {op : LogicalOp} {l r : Expr} (left : Legible l) (right : Legible r) :
      Legible (.logical op l r)
  | var {name : String} {line : Nat} (named : IsName name) : Legible (.var name line)
  | assign {name : String} {line : Nat} {e : Expr} (named : IsName name) (value : Legible e) :
      Legible (.assign name line e)

inductive Stmt.Legible : Stmt → Prop
  | expression {e : Expr} (value : e.Legible) : Legible (.expression e)
  | print {e : Expr} (value : e.Legible) : Legible (.print e)
  | declare {name : String} {init : Option Expr} {line : Nat} (named : IsName name)
      (value : ∀ e ∈ init, e.Legible) : Legible (.declare name init line)
  | block {body : List Stmt} (inside : ∀ s ∈ body, Legible s) : Legible (.block body)
  | ifThen {e : Expr} {s : Stmt} (condition : e.Legible) (thenBranch : Legible s) :
      Legible (.ifThen e s)
  | ifElse {e : Expr} {s s' : Stmt} (condition : e.Legible) (thenBranch : Legible s)
      (elseBranch : Legible s') : Legible (.ifElse e s s')
  | loop {e : Expr} {s : Stmt} (condition : e.Legible) (body : Legible s) : Legible (.loop e s)

open Sexpr (isMark)

theorem isMark_eq_false_of_isWordPart {c : Char} (h : isWordPart c = true) : isMark c = false := by
  rw [Bool.eq_false_iff]
  intro mark
  simp only [isMark, Bool.or_eq_true, beq_iff_eq] at mark
  obtain (((rfl | rfl) | rfl) | rfl) | rfl := mark <;> cases h

theorem legible_word {text : List Char} (some : text ≠ [])
    (plain : ∀ c ∈ text, isWordPart c = true ∨ c = '.') : (Sexpr.word text).Legible := by
  refine .word some ?_
  rw [List.any_eq_false]
  intro c hc
  obtain part | rfl := plain c hc
  · simpa using isMark_eq_false_of_isWordPart part
  · decide

theorem IsName.legible {name : String} (h : IsName name) : (Sexpr.word name.toList).Legible := by
  refine legible_word (fun none => ?_) fun c hc => .inl (h.plain c hc)
  have begins := h.begins
  rw [none] at begins
  cases begins

namespace Value.Legible

variable {v w : Value} {x : Float} {name : String}

theorem sexpr (h : v.Legible) : v.sexpr.Legible := by
  cases v with
  | nil => exact .word (by decide) rfl
  | bool b => cases b <;> exact .word (by decide) rfl
  | string s => exact .quoted h
  | number x =>
      obtain infinite | positional := NumberStyle.render_inTree_shape h
      · rw [Value.sexpr, infinite]
        exact .word (by decide) rfl
      · refine legible_word positional.ne_nil fun c hc => ?_
        refine (positional.plain c hc).imp_left fun digit => ?_
        simp [isWordPart, Char.isAlphanum, digit]

/-- No number is written as another word than that for infinity. -/
theorem sexpr_number_ne (h : (number x).Legible)
    (begins : name.toList.head?.any Char.isDigit = false) (other : name ≠ "inf") :
    (number x).sexpr ≠ .word name.toList := by
  rw [Value.sexpr, Ne, Sexpr.word.injEq, String.toList_inj]
  rintro rfl
  obtain infinite | positional := NumberStyle.render_inTree_shape h
  · exact other infinite
  · cases begins.symm.trans positional.begins

/-- No value is written as a name. -/
theorem sexpr_ne (h : v.Legible) (hn : IsName name) : v.sexpr ≠ .word name.toList := by
  obtain ⟨nil, true', false', inf⟩ := hn.free
  cases v with
  | number x =>
      have begins := hn.begins
      refine sexpr_number_ne h ?_ inf
      cases first : name.toList.head? with
      | none => rfl
      | some c =>
          rw [first] at begins
          exact Lexical.isDigit_eq_false_of_isWordStart begins
  | string s => exact Sexpr.noConfusion
  | nil =>
      rw [Value.sexpr, Ne, Sexpr.word.injEq, String.toList_inj]
      exact nil.symm
  | bool b =>
      rw [Value.sexpr, Ne, Sexpr.word.injEq, String.toList_inj]
      cases b
      · exact false'.symm
      · exact true'.symm

theorem eq_of_sexpr_eq (hv : v.Legible) (hw : w.Legible) (h : v.sexpr = w.sexpr) : v = w := by
  cases v with
  | string s =>
      cases w with
      | string t =>
          rw [Value.sexpr, Value.sexpr, Sexpr.quoted.injEq, String.toList_inj] at h
          rw [h]
      | _ => cases h
  | number x =>
      cases w with
      | number y =>
          rw [Value.sexpr, Value.sexpr, Sexpr.word.injEq, String.toList_inj] at h
          rw [NumberStyle.render_inTree_inj hv hw h]
      | string => cases h
      | nil => exact absurd h (sexpr_number_ne hv rfl (by decide))
      | bool b => cases b <;> exact absurd h (sexpr_number_ne hv rfl (by decide))
  | nil =>
      cases w with
      | nil => rfl
      | number y => exact absurd h.symm (sexpr_number_ne hw rfl (by decide))
      | string => cases h
      | bool b => cases b <;> cases h
  | bool b =>
      cases w with
      | number y => cases b <;> exact absurd h.symm (sexpr_number_ne hw rfl (by decide))
      | string => cases h
      | nil => cases b <;> cases h
      | bool b' => cases b <;> cases b' <;> first | rfl | cases h

end Value.Legible

namespace Expr.Legible

theorem sexpr {e : Expr} (h : e.Legible) : e.sexpr.Legible := by
  induction h with
  | literal value => exact value.sexpr
  | grouping _ ih => exact .node rfl (by simpa using ih)
  | @unary op _ _ _ ih => exact .node (by cases op <;> rfl) (by simpa using ih)
  | @binary op _ _ _ _ _ ihl ihr =>
      exact .node (by cases op <;> rfl) (by simpa using ⟨ihl, ihr⟩)
  | @logical op _ _ _ _ ihl ihr =>
      exact .node (by cases op <;> rfl) (by simpa using ⟨ihl, ihr⟩)
  | var named => exact named.legible
  | assign named _ ih => exact .node rfl (by simpa using ⟨named.legible, ih⟩)

/-- Legible expressions with the same sexpr differ in their lines only. -/
theorem relabel_eq {e : Expr} (h : e.Legible) : ∀ {e' : Expr}, e'.Legible → e.sexpr = e'.sexpr →
    e.relabel .flat = e'.relabel .flat := by
  induction h with
  | @literal v value =>
      intro e' h' same
      cases h' with
      | literal value' => rw [value.eq_of_sexpr_eq value' same]
      | var named => exact absurd same (value.sexpr_ne named)
      | _ => exact absurd same (v.sexpr_ne_node _ _)
  | @var name line named =>
      intro e' h' same
      cases h' with
      | literal value' => exact absurd same.symm (value'.sexpr_ne named)
      | var =>
          rw [Expr.sexpr, Expr.sexpr, Sexpr.word.injEq, String.toList_inj] at same
          rw [same]
          rfl
      | _ => cases same
  | grouping inner ih =>
      intro e' h' same
      cases h' with
      | grouping inner' =>
          simp only [Expr.sexpr, Sexpr.node.injEq, List.cons.injEq] at same
          simp only [relabel, ih inner' same.2.1]
      | _ => grind [Expr.sexpr]
  | @unary op line e operand ih =>
      intro e' h' same
      cases h' with
      | unary operand' =>
          simp only [Expr.sexpr, Sexpr.node.injEq, List.cons.injEq, String.toList_inj] at same
          simp only [relabel, ih operand' same.2.1, UnaryOp.symbol_inj same.1]
          rfl
      | _ => grind [Expr.sexpr]
  | @binary op line l r left right ihl ihr =>
      intro e' h' same
      cases h' with
      | binary left' right' =>
          simp only [Expr.sexpr, Sexpr.node.injEq, List.cons.injEq, String.toList_inj] at same
          obtain ⟨symbol, l', r', -⟩ := same
          simp only [relabel, ihl left' l', ihr right' r', BinaryOp.symbol_inj symbol]
          rfl
      | _ => grind [Expr.sexpr]
  | @logical op l r left right ihl ihr =>
      intro e' h' same
      cases h' with
      | logical left' right' =>
          simp only [Expr.sexpr, Sexpr.node.injEq, List.cons.injEq, String.toList_inj] at same
          obtain ⟨symbol, l', r', -⟩ := same
          simp only [relabel, ihl left' l', ihr right' r', LogicalOp.symbol_inj symbol]
      | _ => grind [Expr.sexpr]
  | @assign name line e named value ih =>
      intro e' h' same
      cases h' with
      | assign named' value' =>
          simp only [Expr.sexpr, Sexpr.node.injEq, List.cons.injEq, Sexpr.word.injEq,
            String.toList_inj] at same
          obtain ⟨-, names, values, -⟩ := same
          simp only [relabel, names, ih value' values]
          rfl
      | _ => grind [Expr.sexpr]

/-- The same for expressions that may be absent. -/
theorem relabel_option {init init' : Option Expr} (h : ∀ e ∈ init, e.Legible)
    (h' : ∀ e ∈ init', e.Legible)
    (same : (init.map Expr.sexpr).toList = (init'.map Expr.sexpr).toList) :
    init.map (relabel .flat) = init'.map (relabel .flat) := by
  cases init with
  | none =>
      cases init' with
      | none => rfl
      | some e' => cases same
  | some e =>
      cases init' with
      | none => cases same
      | some e' => exact congrArg some ((h e rfl).relabel_eq (h' e' rfl) (List.cons.inj same).1)

end Expr.Legible

namespace Stmt

theorem Legible.sexpr {s : Stmt} (h : s.Legible) : s.sexpr.Legible := by
  induction h with
  | expression value | print value => exact .node rfl (by simpa using value.sexpr)
  | @declare name init line named value =>
      cases init with
      | none => exact .node rfl (by simpa using named.legible)
      | some e => exact .node rfl (by simpa using ⟨named.legible, (value e rfl).sexpr⟩)
  | @block body inside ih =>
      refine .node rfl fun f hf => ?_
      rw [sexprs_eq] at hf
      obtain ⟨s, hs, rfl⟩ := List.mem_map.1 hf
      exact ih s hs
  | ifThen condition _ ih | loop condition _ ih =>
      exact .node rfl (by simpa using ⟨condition.sexpr, ih⟩)
  | ifElse condition _ _ ih ih' =>
      exact .node rfl (by simpa using ⟨condition.sexpr, ih, ih'⟩)

/-- Statements with the same S-expressions differ in their lines only, if each of one list does from
those that have its own. -/
theorem relabelAll_eq_of_sexprs {body body' : List Stmt}
    (each : ∀ s ∈ body, ∀ {s' : Stmt}, s'.Legible → s.sexpr = s'.sexpr →
      s.relabel .flat = s'.relabel .flat)
    (legible : ∀ s ∈ body', s.Legible) (same : body.map sexpr = body'.map sexpr) :
    relabelAll .flat body = relabelAll .flat body' := by
  induction body generalizing body' with
  | nil => rw [List.map_eq_nil_iff.1 same.symm]
  | cons s body ih =>
      cases body' with
      | nil => cases same
      | cons s' body' =>
          obtain ⟨first, later⟩ := List.forall_mem_cons.1 each
          obtain ⟨hs', hbody'⟩ := List.forall_mem_cons.1 legible
          obtain ⟨here, rest⟩ := List.cons.inj same
          rw [relabelAll, relabelAll, first hs' here, ih later hbody' rest]

/-- Legible statements with the same sexpr differ in their lines only. -/
theorem Legible.relabel_eq {s : Stmt} (h : s.Legible) : ∀ {s' : Stmt}, s'.Legible →
    s.sexpr = s'.sexpr → s.relabel .flat = s'.relabel .flat := by
  induction h with
  | expression value =>
      intro s' h' same
      cases h' with
      | expression value' =>
          simp only [Stmt.sexpr, Sexpr.node.injEq, List.cons.injEq] at same
          simp only [relabel, value.relabel_eq value' same.2.1]
      | _ => simp [Stmt.sexpr] at same
  | print value =>
      intro s' h' same
      cases h' with
      | print value' =>
          simp only [Stmt.sexpr, Sexpr.node.injEq, List.cons.injEq] at same
          simp only [relabel, value.relabel_eq value' same.2.1]
      | _ => simp [Stmt.sexpr] at same
  | @declare name init line named value =>
      intro s' h' same
      cases h' with
      | @declare name' init' line' named' value' =>
          simp only [Stmt.sexpr, Sexpr.node.injEq, List.cons.injEq, Sexpr.word.injEq,
            String.toList_inj] at same
          obtain ⟨-, names, values⟩ := same
          simp only [relabel, names, Expr.Legible.relabel_option value value' values]
          rfl
      | _ => simp [Stmt.sexpr] at same
  | @block body inside ih =>
      intro s' h' same
      cases h' with
      | block inside' =>
          simp only [Stmt.sexpr, Sexpr.node.injEq, sexprs_eq] at same
          simp only [relabel, relabelAll_eq_of_sexprs ih inside' same.2]
      | _ => simp [Stmt.sexpr] at same
  | ifThen condition thenBranch ih =>
      intro s' h' same
      cases h' with
      | ifThen condition' thenBranch' =>
          simp only [Stmt.sexpr, Sexpr.node.injEq, List.cons.injEq] at same
          obtain ⟨-, conditions, branches, -⟩ := same
          simp only [relabel, condition.relabel_eq condition' conditions, ih thenBranch' branches]
      | _ => simp [Stmt.sexpr] at same
  | ifElse condition thenBranch elseBranch ih ih' =>
      intro s' h' same
      cases h' with
      | ifElse condition' thenBranch' elseBranch' =>
          simp only [Stmt.sexpr, Sexpr.node.injEq, List.cons.injEq] at same
          obtain ⟨-, conditions, branches, others, -⟩ := same
          simp only [relabel, condition.relabel_eq condition' conditions, ih thenBranch' branches,
            ih' elseBranch' others]
      | _ => simp [Stmt.sexpr] at same
  | loop condition body ih =>
      intro s' h' same
      cases h' with
      | loop condition' body' =>
          simp only [Stmt.sexpr, Sexpr.node.injEq, List.cons.injEq] at same
          obtain ⟨-, conditions, bodies, -⟩ := same
          simp only [relabel, condition.relabel_eq condition' conditions, ih body' bodies]
      | _ => simp [Stmt.sexpr] at same

end Stmt

end Lox
