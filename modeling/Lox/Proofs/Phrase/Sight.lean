import Lox.Proofs.Phrase.Composition

/-!
How far readers see. A reader looks at most one token past those that it takes, so that as long as a
token is left, more tokens after the last one change nothing. A statement or a declaration that was
read in full is not changed by more tokens at all, unless they go on with an `else`.
-/

namespace Lox

namespace Reply

variable {α : Type}

def before (back : List Token) : Reply α → Reply α
  | done value passed rest => done value passed (rest ++ back)
  | failed fault passed rest => failed fault passed (rest ++ back)

theorem before_after (earlier : List Fault) (back : List Token) (r : Reply α) :
    (r.after earlier).before back = (r.before back).after earlier := by
  cases r <;> rfl

end Reply

namespace Reader

variable {α β : Type}

/-- A reader that looks at most one token past those that it takes. -/
structure Local (p : Reader α) : Prop where
  /-- Of no tokens none is left. -/
  nothing : (p []).rest = []
  /-- As long as a token is left, more tokens after the last one change nothing. -/
  sees : ∀ front back, (p front).rest ≠ [] → p (front ++ back) = (p front).before back
  /-- A failure is one at the next token. -/
  blames : ∀ tokens fault passed rest, p tokens = .failed fault passed rest →
    fault.found = rest.head?

theorem local_pure (value : α) : Local (Pure.pure value) :=
  ⟨rfl, fun _ _ _ => rfl, fun _ _ _ _ h => by cases h⟩

theorem local_fail (problem : Problem) : Local (fail problem : Reader α) where
  nothing := rfl
  sees front back h := by
    obtain ⟨t, rest, rfl⟩ := List.exists_cons_of_ne_nil h
    rfl
  blames tokens fault passed rest h := by
    cases h
    rfl

theorem local_pass (fault : Fault) : Local (pass fault) :=
  ⟨rfl, fun _ _ _ => rfl, fun _ _ _ _ h => by cases h⟩

theorem local_peek : Local peek where
  nothing := rfl
  sees front back h := by
    obtain ⟨t, rest, rfl⟩ := List.exists_cons_of_ne_nil h
    rfl
  blames _ _ _ _ h := by cases h

theorem local_bind {p : Reader α} {f : α → Reader β} (hp : Local p) (hf : ∀ a, Local (f a)) :
    Local (p >>= f) where
  nothing := by
    have nothing := hp.nothing
    rw [bind_apply]
    cases hc : p [] with
    | done a passed left =>
        rw [hc] at nothing
        obtain rfl : left = [] := nothing
        simpa using (hf a).nothing
    | failed fault passed left => rwa [hc] at nothing
  sees front back h := by
    have sees := hp.sees front back
    rw [bind_apply] at h ⊢
    rw [bind_apply]
    cases hc : p front with
    | done a passed left =>
        simp only [hc, Reply.rest_after] at h sees ⊢
        have leaves : left ≠ [] := by
          rintro rfl
          exact h (hf a).nothing
        rw [sees leaves, Reply.before_after, ← (hf a).sees left back h]
        rfl
    | failed fault passed left =>
        simp only [hc] at h sees ⊢
        rw [sees h]
        rfl
  blames tokens fault passed rest h := by
    rw [bind_apply] at h
    cases hc : p tokens with
    | done a before left =>
        rw [hc] at h
        simp only at h
        cases hl : f a left with
        | done value after last => simp [hl, Reply.after] at h
        | failed fault' after last =>
            simp only [hl, Reply.after, Reply.failed.injEq] at h
            obtain ⟨rfl, -, rfl⟩ := h
            exact (hf a).blames _ _ _ _ hl
    | failed fault' before left =>
        rw [hc] at h
        cases h
        exact hp.blames _ _ _ _ hc

/-- A reader that goes by the first token: it takes that and reads on, or leaves it. -/
theorem local_of_cons {p : Reader α} (nil : ∃ q, Local q ∧ p [] = q [])
    (cons : ∀ t, ∃ q, Local q ∧
      ((∀ rest, p (t :: rest) = q rest) ∨ ∀ rest, p (t :: rest) = q (t :: rest))) :
    Local p where
  nothing := by
    obtain ⟨q, hq, same⟩ := nil
    rw [same, hq.nothing]
  sees front back h := by
    cases front with
    | nil =>
        obtain ⟨q, hq, same⟩ := nil
        exact absurd (same ▸ hq.nothing) h
    | cons t rest =>
        obtain ⟨q, hq, same | same⟩ := cons t
        · rw [same] at h ⊢
          exact (same _).trans (hq.sees rest back h)
        · rw [same] at h ⊢
          exact (same _).trans (hq.sees (t :: rest) back h)
  blames tokens fault passed rest h := by
    cases tokens with
    | nil =>
        obtain ⟨q, hq, same⟩ := nil
        exact hq.blames _ _ _ _ (same ▸ h)
    | cons t more =>
        obtain ⟨q, hq, same | same⟩ := cons t
        · exact hq.blames _ _ _ _ (same more ▸ h)
        · exact hq.blames _ _ _ _ (same more ▸ h)

/-- What holds of a reader under every bound holds of it without one. -/
theorem local_of_within {within : Nat → Reader α} {p : Reader α} (h : ∀ n, Local (within n))
    (same : ∀ {n : Nat} {tokens : List Token}, tokens.length ≤ n → within n tokens = p tokens) :
    Local p where
  nothing := by
    have nil : within 0 [] = p [] := same (Nat.le_refl _)
    exact nil ▸ (h 0).nothing
  sees front back := by
    have whole : within (front ++ back).length (front ++ back) = p (front ++ back) :=
      same (Nat.le_refl _)
    have part : within (front ++ back).length front = p front := same (by simp)
    rw [← whole, ← part]
    exact (h _).sees front back
  blames tokens := by
    have whole : within tokens.length tokens = p tokens := same (Nat.le_refl _)
    exact whole ▸ (h _).blames tokens

theorem local_inherited : Inherited Local where
  pure := local_pure
  fail _ := local_fail _
  peek := local_peek
  bind := local_bind
  branch := local_of_cons
  within := local_of_within

section declarations

theorem resume_of_semicolon {t : Token} (h : t.kind = .semicolon) (rest : List Token) :
    resume (t :: rest) = rest := by
  rw [resume.eq_def]
  exact if_pos h

/-- Where reading goes on after a fault is decided before a token that is left there, and before the
end of tokens that end with a semicolon. -/
theorem resume_append {left : List Token} (back : List Token) (h : left ≠ [])
    (ends : resume left ≠ [] ∨ ∀ t ∈ left.getLast?, t.kind = .semicolon) :
    resume (left ++ back) = resume left ++ back := by
  fun_induction resume left with
  | case1 => exact absurd rfl h
  | case2 t rest semicolon => exact resume_of_semicolon semicolon _
  | case3 t other =>
      obtain ends | ends := ends
      · exact absurd rfl ends
      · exact absurd (ends t rfl) other
  | case4 t other u more stops => simp [resume, other, stops]
  | case5 t other u more goes ih =>
      have rest := ih (List.cons_ne_nil u more) (by simpa using ends)
      simpa [resume, other, goes] using rest

theorem mem_getLast?_of_suffix {l l' : List α} (h : l <:+ l') {a : α} (ha : a ∈ l.getLast?) :
    a ∈ l'.getLast? := by
  obtain ⟨front, rfl⟩ := h
  simp_all

def Settled (back : List Token) (p : Reader α) : Prop := ∀ front value passed rest,
  p front = .done value passed rest → p (front ++ back) = .done value passed (rest ++ back)

theorem Declarations.after_after (found found' : List Stmt) (passed passed' : List Fault)
    (d : Declarations) : (d.after found' passed').after found passed =
      d.after (found ++ found') (passed ++ passed') := by
  simp [Declarations.after]

/-- More tokens after the last one do not change declarations: a token is left after them; or each
of them is settled, no fault is at their end, and they end with a semicolon unless there is no fault
at all. -/
def Shut (back : List Token) (one : Reader Stmt) (close : Kind) (front : List Token) : Prop :=
  (declarations one close front).rest ≠ [] ∨ Settled back one ∧
    (∀ f ∈ (declarations one close front).passed, f.found ≠ none) ∧
    ((declarations one close front).passed = [] ∨ ∀ t ∈ front.getLast?, t.kind = .semicolon)

variable {one : Reader Stmt} {close : Kind} {back : List Token} (takes : Takes one)
  (advances : Advances one)
  (sight : Local one)

include takes advances sight

theorem shut_of_done {t : Token} {rest left : List Token} {s : Stmt} {passed : List Fault}
    (hk : t.kind ≠ close) (hd : one (t :: rest) = .done s passed left)
    (h : Shut back one close (t :: rest)) :
    one (t :: rest ++ back) = .done s passed (left ++ back) ∧ Shut back one close left := by
  have suffix := takes (t :: rest)
  have sees := sight.sees (t :: rest) back
  rw [Shut, declarations_cons takes advances rest hk] at h
  simp only [hd, Reply.rest, Declarations.after] at suffix sees h
  obtain leaves | ⟨settled, blamed, ends⟩ := h
  · refine ⟨sees ?_, .inl leaves⟩
    rintro rfl
    exact leaves rfl
  · refine ⟨settled _ _ _ _ hd, .inr ⟨settled, fun f hf => ?_, ?_⟩⟩
    · exact blamed f (List.mem_append_right passed hf)
    · exact ends.imp (fun clean => (List.append_eq_nil_iff.1 clean).2)
        fun semicolon u hu => semicolon u (mem_getLast?_of_suffix suffix hu)

theorem shut_of_failed {t : Token} {rest left : List Token} {fault : Fault} {passed : List Fault}
    (hk : t.kind ≠ close) (hd : one (t :: rest) = .failed fault passed left)
    (h : Shut back one close (t :: rest)) :
    one (t :: rest ++ back) = .failed fault passed (left ++ back) ∧
      resume (left ++ back) = resume left ++ back ∧ Shut back one close (resume left) := by
  have suffix := takes (t :: rest)
  have sees := sight.sees (t :: rest) back
  rw [Shut, declarations_cons takes advances rest hk] at h
  simp only [hd, Reply.rest, Declarations.after] at suffix sees h
  obtain leaves | ⟨settled, blamed, ends⟩ := h
  · have resumes : resume left ≠ [] := by
      intro nil
      exact leaves (by rw [nil]; rfl)
    have found : left ≠ [] := by
      rintro rfl
      exact resumes rfl
    exact ⟨sees found, resume_append back found (.inl resumes), .inl leaves⟩
  · -- the fault is not at the end, so a token is left at it
    have found : left ≠ [] := by
      rintro rfl
      exact blamed fault (by simp) (sight.blames _ _ _ _ hd)
    have semicolon : ∀ u ∈ left.getLast?, u.kind = .semicolon := fun u hu =>
      ends.resolve_left (by simp) u (mem_getLast?_of_suffix suffix hu)
    refine ⟨sees found, resume_append back found (.inr semicolon), .inr ⟨settled, ?_, .inr ?_⟩⟩
    · exact fun f hf => blamed f (List.mem_append_right _ hf)
    · exact fun u hu => semicolon u (mem_getLast?_of_suffix (resume_suffix left) hu)

/-- Declarations, and then more tokens, are read one after the other. -/
theorem declarations_append (front : List Token) (h : Shut back one close front) :
    declarations one close (front ++ back) =
      (declarations one close ((declarations one close front).rest ++ back)).after
        (declarations one close front).statements (declarations one close front).passed := by
  induction hn : front.length using Nat.strongRecOn generalizing front with
  | _ n ih =>
    cases front with
    | nil => rfl
    | cons t rest =>
        by_cases hk : t.kind = close
        · rw [declarations_close one rest hk]
          rfl
        · rw [List.cons_append, declarations_cons takes advances _ hk, ← List.cons_append,
            declarations_cons takes advances rest hk]
          cases hd : one (t :: rest) with
          | done s passed left =>
              obtain ⟨same, later⟩ := shut_of_done takes advances sight hk hd h
              have shorter := advances _ _ _ _ hd
              simp only [same, ih left.length (hn ▸ shorter) left later rfl,
                Declarations.after_after]
              rfl
          | failed fault passed left =>
              obtain ⟨same, resumes, later⟩ := shut_of_failed takes advances sight hk hd h
              have shorter := length_resume_lt_of_failed takes (List.cons_ne_nil t rest) hd
              simp only [same, resumes, ih (resume left).length (hn ▸ shorter) _ later rfl,
                Declarations.after_after]
              rfl

/-- A block ends before its brace, so that after it one more token is left. -/
theorem local_blockBody : Local (blockBody one) where
  nothing := rfl
  sees front back (h : (declarations one .rightBrace front).rest ≠ []) := by
    have closes := declarations_rest takes advances .rightBrace front
    have shut : Shut back one .rightBrace front := .inl h
    have both := declarations_append takes advances sight front shut
    obtain ⟨t, rest, left⟩ := List.exists_cons_of_ne_nil h
    rw [left] at closes both
    rw [List.cons_append, declarations_close one _ (closes t rfl)] at both
    simp [blockBody, both, left, Reply.before, Declarations.after]
  blames _ _ _ _ h := by cases h

end declarations

theorem local_pervasive : Pervasive Local where
  toInherited := local_inherited
  assignment hl hv _ _ _ _ := local_inherited.assignment (fun _ => local_pass _) hl hv
  braced sight takes advances :=
    local_bind (local_inherited.take _ (by simp)) fun _ =>
      local_inherited.block (local_blockBody takes advances sight)

theorem local_declaration {p : Reader Stmt} (h : Local p) : Local (declaration p) :=
  local_pervasive.declaration h

theorem local_statement : Local statement := local_pervasive.statement

end Reader
end Lox
