import Lox.Script
import Lox.Proofs.Lexical.Munch
import Lox.Proofs.Phrase.Program
import Lox.Proofs.Session.Reachable
import Lox.Proofs.Tree.Shape

/-!
The listing of the statements of a script tells which statements they are, but for their lines. What
the lexical grammar lets into names, strings and numerals makes every tree legible that is read
without a fault, unless a variable has the name of a value.
-/

namespace Lox

open Lexical

structure Token.Legible (t : Token) : Prop where
  name : t.kind = .identifier → IsName t.lexeme
  value : ∀ v, t.value? = some v → v.Legible

namespace Lexical

/-- Identifiers are words that are not reserved. -/
theorem named_of_kind? {p : Pattern} {text after : List Char} (fits : p.Matches text after)
    (gives : p.kind? text = some .identifier) (nil : String.ofList text ≠ "nil")
    (inf : String.ofList text ≠ "inf") : IsName (String.ofList text) := by
  have free : String.ofList text ∉ Kind.reserved.map Prod.fst := by
    intro mem
    cases (rightlyReserved_of_kind? fits gives).1.2 mem
  have true' : String.ofList text ≠ "true" := fun same => free (same ▸ by decide)
  have false' : String.ofList text ≠ "false" := fun same => free (same ▸ by decide)
  cases p with
  | word =>
      obtain ⟨c, more, start, parts, rfl⟩ := fits
      have first : isWordPart c = true := by
        simp only [isWordStart, isWordPart, Char.isAlphanum, Bool.or_eq_true] at start ⊢
        tauto
      constructor
      · rwa [String.toList_ofList]
      · rw [String.toList_ofList]
        exact List.forall_mem_cons.2 ⟨first, parts⟩
      · exact ⟨nil, true', false', inf⟩
  | mark k =>
      have others : ∀ m ∈ marks, m.2 ≠ .identifier := by decide
      exact absurd (Option.some.inj gives) (others _ fits)
  | number | string | lineComment | blockComment | openString => cases gives

/-- A token is legible if it is not a variable with the name of a value. -/
theorem legible_of_kind? {p : Pattern} {text after : List Char} {kind : Kind} (line : Nat)
    (fits : p.Matches text after) (gives : p.kind? text = some kind)
    (free : kind = .identifier → String.ofList text ≠ "nil" ∧ String.ofList text ≠ "inf") :
    (tokenOf kind text line).Legible := by
  constructor
  · rintro rfl
    obtain ⟨nil, inf⟩ := free rfl
    exact named_of_kind? fits gives nil inf
  · intro v hv
    unfold Token.value? at hv
    cases kind
    case number =>
      cases hv
      exact unsigned_numeralValue text
    case string =>
      cases hv
      obtain ⟨body, closed, rfl⟩ := quoted_of_kind? fits gives
      have content : contents ('"' :: body ++ ['"']) = String.ofList body := by simp [contents]
      show '"' ∉ (contents _).toList
      rwa [content, String.toList_ofList]
    all_goals
      cases hv
      try trivial

theorem legible_of_mem_read {text : String}
    (free : ∀ t ∈ (read text).tokens, t.kind = .identifier → t.lexeme ≠ "nil" ∧ t.lexeme ≠ "inf") :
    ∀ t ∈ (read text).tokens, t.Legible := by
  intro t ht
  obtain ⟨last, rfl⟩ | ⟨p, lexeme, after, last, longest, made⟩ :=
    (munches_read text).exists_piece t ht
  · exact ⟨nofun, nofun⟩
  · obtain ⟨kind, gives, rfl⟩ := Pattern.exists_kind_of_token? made
    exact legible_of_kind? last longest.fits gives (free _ ht)

end Lexical

theorem Expr.Wording.legible {w : List Token} {e : Expr} (h : Wording w e)
    (tokens : ∀ t ∈ w, t.Legible) : e.Legible := by
  induction h with
  | literal ht => exact .literal ((tokens _ List.mem_cons_self).value _ ht)
  | var ht => exact .var ((tokens _ List.mem_cons_self).name ht)
  | grouping _ _ _ ih => exact .grouping (ih fun t ht => tokens t (by simp [ht]))
  | unary _ _ _ ih => exact .unary (ih fun t ht => tokens t (by simp [ht]))
  | @joined t c _ _ _ _ _ _ _ _ _ ihl ihr =>
      have left := ihl fun t ht => tokens t (by simp [ht])
      have right := ihr fun t ht => tokens t (by simp [ht])
      cases c with
      | binary op => exact .binary left right
      | logical op => exact .logical left right
  | assign hn _ _ ih =>
      exact .assign ((tokens _ List.mem_cons_self).name hn) (ih fun t ht => tokens t (by simp [ht]))

namespace Stmt

theorem Declaring.legible {w : List Token} {s : Stmt} (h : Declaring w s)
    (tokens : ∀ t ∈ w, t.Legible) : s.Legible := by
  cases h with
  | bare _ hn => exact .declare ((tokens _ (by simp)).name hn) nofun
  | initialized _ hn _ value _ =>
      have init := value.legible fun t ht => tokens t (by simp [ht])
      exact .declare ((tokens _ (by simp)).name hn) (by simpa using init)

theorem Evaluating.legible {w : List Token} {s : Stmt} (h : Evaluating w s)
    (tokens : ∀ t ∈ w, t.Legible) : s.Legible := by
  obtain ⟨value, -⟩ := h
  exact .expression (value.legible fun t ht => tokens t (by simp [ht]))

theorem Starting.legible {w : List Token} {first : Option Stmt} (h : Starting w first)
    (tokens : ∀ t ∈ w, t.Legible) : ∀ s ∈ first, s.Legible := by
  rintro s rfl
  cases h with
  | declaring h => exact h.legible tokens
  | evaluating h => exact h.legible tokens

theorem Clause.legible {w : List Token} {clause : Option Expr} (h : Clause w clause)
    (tokens : ∀ t ∈ w, t.Legible) : ∀ e ∈ clause, e.Legible := by
  rintro e rfl
  cases h with
  | present h => exact h.legible tokens

theorem legible_forLoop {first : Option Stmt} {condition increment : Option Expr} {s : Stmt}
    (start : ∀ s ∈ first, s.Legible) (test : ∀ e ∈ condition, e.Legible)
    (step : ∀ e ∈ increment, e.Legible) (body : s.Legible) :
    (forLoop first condition increment s).Legible := by
  have value : (condition.getD (.literal (.bool true))).Legible := by
    cases condition with
    | none => exact .literal trivial
    | some e => exact test e rfl
  have whole {s : Stmt} (body : s.Legible) : (forLoop first condition none s).Legible := by
    cases first with
    | none => exact .loop value body
    | some s' => exact .block (by simpa using ⟨start s' rfl, .loop value body⟩)
  cases increment with
  | none => exact whole body
  | some e => exact whole (.block (by simpa using ⟨body, .expression (step e rfl)⟩))

theorem Wording.legible {w : List Token} {s : Stmt} {tail : Bool} (h : Wording w s tail)
    (tokens : ∀ t ∈ w, t.Legible) : s.Legible := by
  induction h with
  | declaring h => exact h.legible tokens
  | evaluating h => exact h.legible tokens
  | print _ value _ => exact .print (value.legible fun t ht => tokens t (by simp [ht]))
  | @block l r parts _ _ _ ih =>
      refine .block fun s hs => ?_
      obtain ⟨part, mem, rfl⟩ := List.mem_map.1 hs
      refine ih part mem fun t ht => tokens t ?_
      have inside : t ∈ parts.flatMap (·.1) := List.mem_flatMap.2 ⟨part, mem, ht⟩
      simp [inside]
  | ifThen _ _ condition _ _ _ ih =>
      exact .ifThen (condition.legible fun t ht => tokens t (by simp [ht]))
        (ih fun t ht => tokens t (by simp [ht]))
  | ifElse _ _ condition _ _ _ _ _ _ ih ih' =>
      exact .ifElse (condition.legible fun t ht => tokens t (by simp [ht]))
        (ih fun t ht => tokens t (by simp [ht])) (ih' fun t ht => tokens t (by simp [ht]))
  | loop _ _ condition _ _ _ ih =>
      exact .loop (condition.legible fun t ht => tokens t (by simp [ht]))
        (ih fun t ht => tokens t (by simp [ht]))
  | forLoop _ _ start test _ step _ _ _ ih =>
      exact legible_forLoop (start.legible fun t ht => tokens t (by simp [ht]))
        (test.legible fun t ht => tokens t (by simp [ht]))
        (step.legible fun t ht => tokens t (by simp [ht]))
        (ih fun t ht => tokens t (by simp [ht]))

end Stmt

namespace Script

/-- The statements of a script without errors are legible if no variable has the name of a value. -/
theorem legible_of_clean {text : String} (clean : (ofText text).diagnostics = [])
    (names : ∀ t ∈ (ofText text).reading.tokens,
      t.kind = .identifier → t.lexeme ≠ "nil" ∧ t.lexeme ≠ "inf") :
    ∀ s ∈ (ofText text).statements, s.Legible := by
  obtain ⟨parts, tokens, statements, worded⟩ :=
    Program.wording_of_faults_nil (diagnostics_eq_nil_iff.1 clean).2
  intro s hs
  rw [Script.statements, show (ofText text).program.statements = _ from statements] at hs
  obtain ⟨part, mem, rfl⟩ := List.mem_map.1 hs
  refine (worded part mem).legible fun t ht => legible_of_mem_read names t ?_
  have inside : t ∈ Program.body (read text).tokens := by
    rw [tokens]
    exact List.mem_flatMap.2 ⟨part, mem, ht⟩
  exact (List.takeWhile_subset _) inside

/-- Scripts without errors whose statements are listed alike have the same statements, but for the
lines on which they stand. Only variables called `nil` or `inf` could be taken for values. -/
theorem statements_of_treeListing {text text' : String} (clean : (ofText text).diagnostics = [])
    (clean' : (ofText text').diagnostics = [])
    (names : ∀ t ∈ (ofText text).reading.tokens,
      t.kind = .identifier → t.lexeme ≠ "nil" ∧ t.lexeme ≠ "inf")
    (names' : ∀ t ∈ (ofText text').reading.tokens,
      t.kind = .identifier → t.lexeme ≠ "nil" ∧ t.lexeme ≠ "inf")
    (same : (ofText text).treeListing = (ofText text').treeListing) :
    Stmt.relabelAll .flat (ofText text).statements =
      Stmt.relabelAll .flat (ofText text').statements := by
  have legible := legible_of_clean clean names
  have legible' := legible_of_clean clean' names'
  have lines : Sexpr.lines ((ofText text).statements.map Stmt.sexpr) =
      Sexpr.lines ((ofText text').statements.map Stmt.sexpr) := by
    rw [← toList_programText, ← toList_programText]
    exact congrArg String.toList same
  have sexprs : (ofText text).statements.map Stmt.sexpr =
      (ofText text').statements.map Stmt.sexpr := by
    refine Sexpr.lines_inj ?_ ?_ lines <;> rw [List.forall_mem_map]
    · exact fun s hs => (legible s hs).sexpr
    · exact fun s hs => (legible' s hs).sexpr
  exact Stmt.relabelAll_eq_of_sexprs (fun s hs => (legible s hs).relabel_eq) legible' sexprs

theorem statements_of_treeListing_respelled :
    let text := "var a = -0.50;\nif (a == 1 - -a) print \"(x\n y)\";"
    let text' := "var a // half\n  = -00.5; if (a == 1 - - a) /* yes */\nprint \"(x\n y)\";"
    (ofText text).treeListing = "(var a (- 0.5))\n(if (== a (- 1 (- a))) (print \"(x\n y)\"))\n" ∧
      (ofText text).reading.tokens.map Token.lexeme ≠
        (ofText text').reading.tokens.map Token.lexeme ∧
      Stmt.relabelAll .flat (ofText text).statements =
        Stmt.relabelAll .flat (ofText text').statements := by
  intro text text'
  have clean : (ofText text).diagnostics = [] := by decide +kernel
  have clean' : (ofText text').diagnostics = [] := by decide +kernel
  have listing : (ofText text).treeListing =
      "(var a (- 0.5))\n(if (== a (- 1 (- a))) (print \"(x\n y)\"))\n" := by
    decide +kernel
  have same : (ofText text).treeListing = (ofText text').treeListing := by decide +kernel
  have names : ∀ t ∈ (ofText text).reading.tokens,
      t.kind = .identifier → t.lexeme ≠ "nil" ∧ t.lexeme ≠ "inf" := by decide +kernel
  have names' : ∀ t ∈ (ofText text').reading.tokens,
      t.kind = .identifier → t.lexeme ≠ "nil" ∧ t.lexeme ≠ "inf" := by decide +kernel
  exact ⟨listing, by decide +kernel, statements_of_treeListing clean clean' names names' same⟩

end Script

end Lox
