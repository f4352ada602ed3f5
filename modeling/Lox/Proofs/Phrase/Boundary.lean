import Lox.Lexical.Reading
import Lox.Proofs.Phrase.Program
import Lox.Proofs.Phrase.Sight

/-!
Programs one after the other. Tokens that end at the boundary of a statement are read as they are
alone, whatever comes after them, and so is what comes after them: a fault before the boundary does
not reach beyond it.
-/

namespace Lox

namespace Reader

variable {α β : Type} {back : List Token}

theorem settled_pure (value : α) : Settled back (Pure.pure value) := by
  intro front value passed rest h
  cases h
  rfl

theorem settled_bind {p : Reader α} {f : α → Reader β} (hp : Settled back p)
    (hf : ∀ a, Settled back (f a)) : Settled back (p >>= f) := by
  intro front value passed rest h
  obtain ⟨a, before, left, after, hl, hr, rfl⟩ := done_of_bind h
  rw [bind_apply, hp _ _ _ _ hl]
  simp only [hf _ _ _ _ _ hr, Reply.after]

theorem settled_take? {kind : Kind} (h : NotNext kind back) : Settled back (take? kind) := by
  intro front value passed rest hd
  cases front with
  | nil =>
      cases hd
      exact take?_of_notNext h
  | cons t more =>
      by_cases hk : t.kind = kind
      · rw [take?_of_eq hk] at hd
        cases hd
        exact take?_of_eq hk _
      · rw [take?_of_notNext (notNext_cons.2 hk)] at hd
        cases hd
        exact take?_of_notNext (notNext_cons.2 hk)

/-- A reader that takes a token when it succeeds, and whose answer then is not undone by more tokens
after the last one. -/
structure Closes (back : List Token) (p : Reader α) : Prop where
  /-- It does not succeed without a token. -/
  needs : ∀ value passed rest, p [] ≠ .done value passed rest
  settled : Settled back p

theorem closes_bind {p : Reader α} {f : α → Reader β} (hp : Closes back p)
    (hf : ∀ a, Settled back (f a)) : Closes back (p >>= f) where
  needs value passed rest h := by
    obtain ⟨a, before, left, after, hl, -⟩ := done_of_bind h
    exact hp.needs _ _ _ hl
  settled := settled_bind hp.settled hf

/-- What closes needs a token that is left, and so decides for the readers before it, too. -/
theorem closes_bind_of_local {p : Reader α} {f : α → Reader β} (hp : Local p)
    (hf : ∀ a, Closes back (f a)) : Closes back (p >>= f) where
  needs value passed rest h := by
    obtain ⟨a, before, left, after, hl, hr, -⟩ := done_of_bind h
    have nothing := hp.nothing
    rw [hl] at nothing
    obtain rfl : left = [] := nothing
    exact (hf a).needs _ _ _ hr
  settled front value passed rest h := by
    obtain ⟨a, before, left, after, hl, hr, rfl⟩ := done_of_bind h
    have leaves : left ≠ [] := by
      rintro rfl
      exact (hf a).needs _ _ _ hr
    have same := hp.sees front back
    rw [hl] at same
    rw [bind_apply, same leaves]
    simp only [Reply.before, (hf a).settled _ _ _ _ hr, Reply.after]

theorem closes_fail (problem : Problem) : Closes back (fail problem : Reader α) where
  needs _ _ _ h := by cases h
  settled _ _ _ _ h := by cases h

theorem closes_expect (piece : Piece) : Closes back (expect piece) where
  needs _ _ _ h := by cases h
  settled front value passed rest h := by
    cases front with
    | nil => cases h
    | cons t more =>
        by_cases hk : t.kind = piece.kind
        · rw [expect_of_eq hk] at h
          cases h
          exact expect_of_eq hk _
        · simp [expect, take, hk, fail] at h

theorem closes_of_cons {p : Reader α} (nil : ∃ q, Closes back q ∧ p [] = q [])
    (cons : ∀ t, ∃ q, Closes back q ∧
      ((∀ rest, p (t :: rest) = q rest) ∨ ∀ rest, p (t :: rest) = q (t :: rest))) :
    Closes back p where
  needs value passed rest h := by
    obtain ⟨q, hq, same⟩ := nil
    exact hq.needs _ _ _ (same ▸ h)
  settled front value passed rest h := by
    cases front with
    | nil =>
        obtain ⟨q, hq, same⟩ := nil
        exact absurd (same ▸ h) (hq.needs _ _ _)
    | cons t more =>
        obtain ⟨q, hq, same | same⟩ := cons t
        · rw [same] at h
          exact (same _).trans (hq.settled _ _ _ _ h)
        · rw [same] at h
          exact (same _).trans (hq.settled _ _ _ _ h)

theorem closes_of_within {within : Nat → Reader α} {p : Reader α} (h : ∀ n, Closes back (within n))
    (same : ∀ {n : Nat} {tokens : List Token}, tokens.length ≤ n → within n tokens = p tokens) :
    Closes back p where
  needs value passed rest hd := by
    have nil : within 0 [] = p [] := same (Nat.le_refl _)
    exact (h 0).needs _ _ _ (nil ▸ hd)
  settled front value passed rest hd := by
    have whole : within (front ++ back).length (front ++ back) = p (front ++ back) :=
      same (Nat.le_refl _)
    have part : within (front ++ back).length front = p front := same (by simp)
    rw [← part] at hd
    exact whole ▸ (h _).settled _ _ _ _ hd

theorem closes_finishing :
    Finishing (fun p => Local p) (fun p => Settled back p) (fun p => Closes back p) where
  pervasive := local_pervasive
  blockBody sight takes advances := local_blockBody takes advances sight
  pure := settled_pure
  bind := settled_bind
  weaken h := h.settled
  fail := closes_fail _
  expect := closes_expect
  first := closes_bind
  last := closes_bind_of_local
  branch := closes_of_cons
  within := closes_of_within

theorem closes_declaration {p : Reader Stmt} (h : Closes back p) : Closes back (declaration p) :=
  closes_finishing.declaration h

theorem closes_statement (hn : NotNext .elseWord back) : Closes back statement :=
  closes_finishing.statement (settled_take? hn)

end Reader

namespace Program

def append (first second : Program) : Program :=
  ⟨first.statements ++ second.statements, first.faults ++ second.faults, second.endLine⟩

theorem diagnostics_append {first : Program} (h : ∀ f ∈ first.faults, f.found ≠ none)
    (second : Program) :
    (first.append second).diagnostics = first.diagnostics ++ second.diagnostics := by
  simp only [append, diagnostics, List.map_append, List.append_cancel_right_eq]
  -- only a fault at the end is reported on the line of the end
  refine List.map_congr_left fun f hf => ?_
  cases found : f.found with
  | none => exact absurd found (h f hf)
  | some t => simp [Fault.diagnostic, found]

variable {front back : List Token} {mark last : Token}

/-- Two programs one after the other are read as they are read alone, if the second does not go on
with an `else`, and the first is without a fault, or ends with a semicolon and has no fault at its
end. -/
theorem ofTokens_across_boundary
    (hf : ∀ t ∈ front, t.kind ≠ .eof) (hb : ∀ t ∈ back, t.kind ≠ .eof)
    (hm : mark.kind = .eof) (hl : last.kind = .eof)
    (noElse : ∀ t ∈ back.head?, t.kind ≠ .elseWord)
    (boundary : (ofTokens (front ++ [mark])).faults = [] ∨
      (∃ t ∈ front.getLast?, t.kind = .semicolon) ∧
        ∀ f ∈ (ofTokens (front ++ [mark])).faults, f.found ≠ none) :
    ofTokens (front ++ back ++ [last]) =
      (ofTokens (front ++ [mark])).append (ofTokens (back ++ [last])) ∧
    (ofTokens (front ++ back ++ [last])).diagnostics =
      (ofTokens (front ++ [mark])).diagnostics ++ (ofTokens (back ++ [last])).diagnostics := by
  have regular : ∀ t ∈ front ++ back, t.kind ≠ .eof :=
    fun t ht => (List.mem_append.1 ht).elim (hf t) (hb t)
  have blamed : ∀ f ∈ (ofTokens (front ++ [mark])).faults, f.found ≠ none := by
    obtain clean | ⟨-, blamed⟩ := boundary
    · simp [clean]
    · exact blamed
  have ends : (ofTokens (front ++ [mark])).faults = [] ∨
      ∀ t ∈ front.getLast?, t.kind = .semicolon := by
    refine boundary.imp_right fun ⟨⟨t, ht, semicolon⟩, _⟩ u hu => ?_
    rwa [Option.mem_unique hu ht]
  have read : ofTokens (front ++ back ++ [last]) =
      (ofTokens (front ++ [mark])).append (ofTokens (back ++ [last])) := by
    have rest := rest_nil (front ++ [mark])
    simp only [ofTokens, append, body_append_eof hf hm, body_append_eof hb hl,
      body_append_eof regular hl, lineOfEnd_append_eof hb hl,
      lineOfEnd_append_eof regular hl] at blamed ends rest ⊢
    have settled := (Reader.closes_declaration (Reader.closes_statement noElse)).settled
    have shut : Reader.Shut back (Reader.declaration Reader.statement) .eof front :=
      .inr ⟨settled, blamed, ends⟩
    rw [Reader.declarations_append (Reader.takes_declaration Reader.takes_statement)
      (Reader.advances_declaration Reader.advances_statement)
      (Reader.local_declaration Reader.local_statement) front shut, rest]
    rfl
  exact ⟨read, by rw [read, diagnostics_append blamed]⟩

theorem ofTokens_across_boundary_faulty :
    let front := (Lexical.read "print ; \x7b a b; \x7d c;").tokens.dropLast
    let back := (Lexical.read "print 1; var").tokens.dropLast
    (∀ t ∈ front, t.kind ≠ .eof) ∧ (∀ t ∈ back, t.kind ≠ .eof) ∧
      (∀ t ∈ back.head?, t.kind ≠ .elseWord) ∧ (∃ t ∈ front.getLast?, t.kind = .semicolon) ∧
      (∀ f ∈ (ofTokens (front ++ [Lexical.eofAt 1])).faults, f.found ≠ none) ∧
      (ofTokens (front ++ back ++ [Lexical.eofAt 2])).faults.map Fault.problem =
        [.noExpression, .missing .semicolonAfterExpression, .noVariableName] := by
  intro front back
  have hf : ∀ t ∈ front, t.kind ≠ .eof := by decide +kernel
  have hb : ∀ t ∈ back, t.kind ≠ .eof := by decide +kernel
  have noElse : ∀ t ∈ back.head?, t.kind ≠ .elseWord := by decide +kernel
  have semicolon : ∃ t ∈ front.getLast?, t.kind = .semicolon := by decide +kernel
  have blamed : ∀ f ∈ (ofTokens (front ++ [Lexical.eofAt 1])).faults, f.found ≠ none := by
    decide +kernel
  have hm : (Lexical.eofAt 1).kind = .eof := rfl
  have hl : (Lexical.eofAt 2).kind = .eof := rfl
  have both := (ofTokens_across_boundary hf hb hm hl noElse (.inr ⟨semicolon, blamed⟩)).1
  refine ⟨hf, hb, noElse, semicolon, blamed, ?_⟩
  rw [both, append, List.map_append]
  decide +kernel

end Program
end Lox
