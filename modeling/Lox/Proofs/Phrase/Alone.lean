import Lox.Proofs.Phrase.Blame
import Lox.Proofs.Phrase.Sight

/-!
What is saved from faulty programs. Readers get on with what they take: they read the same of it
when nothing comes after it. So every statement of a program is what its own tokens are read as
alone, and what is left of the tokens between such statements was given up at a fault.
-/

namespace Lox

namespace Reply

variable {α : Type} {r s : Reply α} {back : List Token}

@[simp]
theorem rest_before (back : List Token) (r : Reply α) : (r.before back).rest = r.rest ++ back := by
  cases r <;> rfl

theorem before_inj : r.before back = s.before back ↔ r = s := by
  cases r <;> cases s <;> simp [before]

theorem before_of_after {passed : List Fault} (h : r.after passed = s.before back) :
    ∃ r' : Reply α, r = r'.before back ∧ s = r'.after passed := by
  cases r with
  | done value after rest =>
      cases s with
      | done value' passed' left =>
          obtain ⟨rfl, rfl, rfl⟩ := by simpa [Reply.after, before] using h
          exact ⟨done value after left, rfl, rfl⟩
      | failed => cases h
  | failed fault after rest =>
      cases s with
      | done => cases h
      | failed fault' passed' left =>
          obtain ⟨rfl, rfl, rfl⟩ := by simpa [Reply.after, before] using h
          exact ⟨failed fault after left, rfl, rfl⟩

end Reply

namespace Reader

variable {α β : Type}

/-- A reader that needs no token after the one at which it stops. -/
structure Narrow (p : Reader α) : Prop where
  takes : Takes p
  narrows : ∀ front back r, p (front ++ back) = r.before back → r.rest ≠ [] → p front = r

/-- A reader that takes nothing needs at most the next token. -/
theorem narrow_of_stays {p : Reader α} (stays : ∀ tokens, (p tokens).rest = tokens)
    (h : ∀ t rest back, p (t :: rest ++ back) = (p (t :: rest)).before back) : Narrow p where
  takes tokens := ⟨[], stays tokens⟩
  narrows front back r hr leaves := by
    have same := congrArg Reply.rest hr
    rw [stays, Reply.rest_before, List.append_left_inj] at same
    subst same
    obtain ⟨t, rest, hf⟩ := List.exists_cons_of_ne_nil leaves
    rw [hf] at hr ⊢
    exact Reply.before_inj.1 ((h t rest back).symm.trans hr)

theorem Takes.split {p : Reader α} (h : Takes p) {tokens left : List Token} {a : α}
    {passed : List Fault} (hd : p tokens = .done a passed left) :
    ∃ front, tokens = front ++ left := by
  obtain ⟨front, hf⟩ := h tokens
  rw [hd] at hf
  exact ⟨front, hf.symm⟩

theorem narrow_bind {p : Reader α} {f : α → Reader β} (hp : Narrow p) (hf : ∀ a, Narrow (f a)) :
    Narrow (p >>= f) where
  takes := takes_bind hp.takes fun a => (hf a).takes
  narrows front back r h leaves := by
    cases hc : p (front ++ back) with
    | failed fault passed left =>
        rw [bind_of_failed hc] at h
        cases r with
        | done => cases h
        | failed fault' passed' rest =>
            obtain ⟨rfl, rfl, rfl⟩ := by simpa [Reply.before] using h
            exact bind_of_failed (hp.narrows front back (.failed fault passed rest) hc leaves) f
    | done a passed left =>
        rw [after_of_done hc] at h
        obtain ⟨r', hr, rfl⟩ := Reply.before_of_after h
        -- the second reader leaves a token before `back`, so the first one leaves it, too
        obtain ⟨gap, hl⟩ := (hf a).takes left
        have split : left = gap ++ r'.rest ++ back := by
          rw [hr] at hl
          cases r' <;> simpa [Reply.before] using hl.symm
        subst split
        rw [Reply.rest_after] at leaves
        have first := hp.narrows front back (.done a passed (gap ++ r'.rest)) hc (by simp [leaves])
        rw [after_of_done first, (hf a).narrows _ back r' hr leaves]

theorem narrow_inherited : Inherited Narrow where
  pure value := narrow_of_stays (fun _ => rfl) fun _ _ _ => rfl
  fail _ := narrow_of_stays (fun _ => rfl) fun _ _ _ => rfl
  peek := narrow_of_stays (fun _ => rfl) fun _ _ _ => rfl
  bind := narrow_bind
  branch {α p} nil cons := by
    obtain ⟨q₀, h₀, same₀⟩ := nil
    have takes : Takes p := by
      intro tokens
      cases tokens with
      | nil => exact same₀ ▸ h₀.takes []
      | cons t rest =>
          obtain ⟨q, hq, same | same⟩ := cons t
          · exact same rest ▸ (hq.takes rest).trans (List.suffix_cons t rest)
          · exact same rest ▸ hq.takes (t :: rest)
    refine ⟨takes, fun front back r h leaves => ?_⟩
    cases front with
    | nil =>
        have shorter := (takes back).length_le
        rw [List.nil_append] at h
        rw [h, Reply.rest_before, List.length_append] at shorter
        exact absurd (List.eq_nil_of_length_eq_zero (by omega)) leaves
    | cons t rest =>
        obtain ⟨q, hq, same | same⟩ := cons t
        · rw [same]
          exact hq.narrows rest back r ((same _).symm.trans h) leaves
        · rw [same]
          exact hq.narrows (t :: rest) back r ((same _).symm.trans h) leaves
  within {α within p} h same := by
    refine ⟨fun tokens => same (Nat.le_refl tokens.length) ▸ (h tokens.length).takes tokens,
      fun front back r hr leaves => ?_⟩
    have part : within (front ++ back).length front = p front := same (by simp)
    rw [← same (Nat.le_refl (front ++ back).length)] at hr
    exact part ▸ (h (front ++ back).length).narrows front back r hr leaves

theorem resume_suffix_of_nil {left : List Token} (back : List Token) (h : resume left = []) :
    resume (left ++ back) <:+ back := by
  fun_induction resume left with
  | case1 => exact resume_suffix back
  | case2 t rest semicolon =>
      subst h
      exact (resume_of_semicolon semicolon back).symm ▸ List.suffix_rfl
  | case3 t other =>
      cases back with
      | nil => simp [resume, other]
      | cons u more =>
          by_cases stops : boundary.contains u.kind
          · simp [resume, other, stops]
          · simpa [resume, other, stops] using resume_suffix (u :: more)
  | case4 => cases h
  | case5 t other u more goes ih => simpa [resume, other, goes] using ih h

theorem resume_narrows {left rest back : List Token} (h : resume (left ++ back) = rest ++ back)
    (leaves : rest ≠ []) : resume left = rest := by
  by_cases nothing : resume left = []
  · have shorter := (resume_suffix_of_nil back nothing).length_le
    rw [h, List.length_append] at shorter
    exact absurd (List.eq_nil_of_length_eq_zero (by omega)) leaves
  · have some : left ≠ [] := by
      rintro rfl
      exact nothing rfl
    exact List.append_cancel_right ((resume_append back some (.inl nothing)).symm.trans h)

section blocks

variable {one : Reader Stmt} {close : Kind}

theorem Narrow.cons {p : Reader α} (h : Narrow p) {t : Token} {more front back : List Token}
    {r : Reply α} (ht : t :: more = front ++ back) (hr : p (t :: more) = r.before back)
    (leaves : r.rest ≠ []) : ∃ front', front = t :: front' ∧ p front = r := by
  rw [ht] at hr
  have read := h.narrows front back r hr leaves
  cases front with
  | nil =>
      have nothing := h.takes []
      rw [read, List.suffix_nil] at nothing
      exact absurd nothing leaves
  | cons t' front =>
      obtain ⟨rfl, -⟩ := List.cons.inj ht
      exact ⟨front, rfl, read⟩

theorem Turns.split {left rest back : List Token} {d : Declarations} (takes : Takes one)
    (h : Turns one close left d) (hd : d.rest = rest ++ back) (leaves : rest ≠ []) :
    ∃ left', left = left' ++ back ∧ left' ≠ [] := by
  obtain ⟨gap, hg⟩ := h.suffix takes
  exact ⟨gap ++ rest, by rw [← hg, hd, List.append_assoc], by simp [leaves]⟩

theorem Turns.narrows (narrow : Narrow one) {tokens front back rest : List Token}
    {d : Declarations} (h : Turns one close tokens d) (ht : tokens = front ++ back)
    (hd : d.rest = rest ++ back) (leaves : rest ≠ []) :
    Turns one close front ⟨d.statements, d.passed, rest⟩ := by
  induction h generalizing front with
  | @ends tokens closes =>
      obtain rfl : front = rest := List.append_cancel_right (ht.symm.trans hd)
      obtain ⟨u, more, rfl⟩ := List.exists_cons_of_ne_nil leaves
      exact .ends fun u' hu => closes u' (by simpa [ht] using hu)
  | @reads t more left s passed d goes read later ih =>
      obtain ⟨left, rfl, some⟩ := later.split narrow.takes hd leaves
      obtain ⟨front, rfl, read⟩ := narrow.cons (r := .done s passed left) ht read some
      exact .reads goes read (ih rfl hd)
  | @recovers t more left fault passed d goes stuck later ih =>
      obtain ⟨left', resumes, some⟩ := later.split narrow.takes hd leaves
      obtain ⟨gap, hg⟩ := resume_suffix left
      obtain rfl : left = gap ++ left' ++ back := by
        rw [← hg, resumes, List.append_assoc]
      have given : resume (gap ++ left') = left' := resume_narrows resumes some
      have stops : gap ++ left' ≠ [] := by simp [some]
      obtain ⟨front, rfl, stuck⟩ :=
        narrow.cons (r := .failed fault passed (gap ++ left')) ht stuck stops
      exact .recovers goes stuck (given.symm ▸ ih resumes hd)

theorem narrow_blockBody (narrow : Narrow one) (advances : Advances one) :
    Narrow (blockBody one) where
  takes := takes_blockBody narrow.takes
  narrows front back r h leaves := by
    have turns := (turns_iff narrow.takes advances).2
      (rfl : declarations one .rightBrace (front ++ back) = _)
    cases r with
    | failed => cases h
    | done statements passed rest =>
        obtain ⟨rfl, rfl, hr⟩ := by simpa [blockBody, Reply.before] using h
        have alone := (turns_iff narrow.takes advances).1 (turns.narrows narrow rfl hr leaves)
        simp [blockBody, alone]

theorem narrow_pervasive : Pervasive Narrow where
  toInherited := narrow_inherited
  assignment hl hv _ _ _ _ :=
    narrow_inherited.assignment (fun _ => narrow_of_stays (fun _ => rfl) fun _ _ _ => rfl) hl hv
  braced narrow _ advances :=
    narrow_bind (narrow_inherited.take _ (by simp)) fun _ =>
      narrow_inherited.block (narrow_blockBody narrow advances)

end blocks

/-- A reader that reads the tokens that it takes also when nothing comes after them. -/
structure Stands (p : Reader α) : Prop extends Narrow p where
  stands : ∀ front back value passed, p (front ++ back) = .done value passed back →
    p front = .done value passed []

theorem stands_pure (value : α) : Stands (Pure.pure value) where
  toNarrow := narrow_inherited.pure value
  stands front back value passed h := by
    obtain ⟨rfl, rfl, rfl⟩ := by simpa [pure_apply] using h
    rfl

theorem stands_take? (kind : Kind) : Stands (take? kind) where
  toNarrow := narrow_inherited.take? kind
  stands front back value passed h := by
    cases front with
    | nil =>
        cases back with
        | nil => exact h
        | cons u more =>
            by_cases hk : u.kind = kind
            · simp [take?_of_eq hk] at h
            · rw [List.nil_append, take?_of_notNext (notNext_cons.2 hk)] at h
              cases h
              rfl
    | cons t rest =>
        by_cases hk : t.kind = kind
        · rw [List.cons_append, take?_of_eq hk] at h
          obtain ⟨rfl, rfl, rfl⟩ := by simpa using h
          exact take?_of_eq hk []
        · rw [List.cons_append, take?_of_notNext (notNext_cons.2 hk)] at h
          have size := congrArg (List.length ∘ Reply.rest) h
          simp at size
          omega

theorem stands_bind {p : Reader α} {f : α → Reader β} (hp : Stands p) (hf : ∀ a, Stands (f a)) :
    Stands (p >>= f) where
  toNarrow := narrow_bind hp.toNarrow fun a => (hf a).toNarrow
  stands front back value passed h := by
    obtain ⟨a, before, left, after, first, second, rfl⟩ := done_of_bind h
    obtain ⟨left, rfl⟩ := (hf a).takes.split second
    have alone := (hf a).stands left back value after second
    by_cases leaves : left = []
    · subst leaves
      rw [after_of_done (hp.stands front back a before first), alone]
      rfl
    · rw [after_of_done (hp.narrows front back (.done a before left) first leaves), alone]
      rfl

structure Whole (p : Reader α) : Prop extends Stands p where
  advances : Advances p

theorem whole_expect (piece : Piece) : Whole (expect piece) where
  toNarrow := narrow_inherited.expect piece
  advances := advances_expect piece
  stands front back value passed h := by
    cases front with
    | nil => exact absurd (advances_expect piece _ _ _ _ h) (Nat.lt_irrefl _)
    | cons t rest =>
        by_cases hk : t.kind = piece.kind
        · rw [List.cons_append, expect_of_eq hk] at h
          obtain ⟨rfl, rfl⟩ := by simpa using h
          exact expect_of_eq hk []
        · simp [expect, take, hk, fail] at h

theorem whole_bind {p : Reader α} {f : α → Reader β} (hp : Whole p) (hf : ∀ a, Stands (f a)) :
    Whole (p >>= f) where
  toStands := stands_bind hp.toStands hf
  advances := advances_bind_left hp.advances fun a => (hf a).takes

/-- A whole leaves a token for what is read before it. -/
theorem whole_bind_of_narrow {p : Reader α} {f : α → Reader β} (hp : Narrow p)
    (hf : ∀ a, Whole (f a)) : Whole (p >>= f) where
  toNarrow := narrow_bind hp fun a => (hf a).toNarrow
  advances := advances_bind_right hp.takes fun a => (hf a).advances
  stands front back value passed h := by
    obtain ⟨a, before, left, after, first, second, rfl⟩ := done_of_bind h
    have shorter := (hf a).advances _ _ _ _ second
    obtain ⟨left, rfl⟩ := (hf a).takes.split second
    have leaves : left ≠ [] := by
      rintro rfl
      exact Nat.lt_irrefl _ shorter
    rw [after_of_done (hp.narrows front back (.done a before left) first leaves),
      (hf a).stands left back value after second]
    rfl

theorem whole_of_cons {p : Reader α} (nil : ∃ q, Whole q ∧ p [] = q [])
    (cons : ∀ t, ∃ q, Whole q ∧
      ((∀ rest, p (t :: rest) = q rest) ∨ ∀ rest, p (t :: rest) = q (t :: rest))) : Whole p := by
  have advances : Advances p := by
    intro tokens value passed rest h
    cases tokens with
    | nil =>
        obtain ⟨q, hq, same⟩ := nil
        exact hq.advances _ _ _ _ (same ▸ h)
    | cons t more =>
        obtain ⟨q, hq, same | same⟩ := cons t
        · exact Nat.lt_succ_of_lt (hq.advances _ _ _ _ (same more ▸ h))
        · exact hq.advances _ _ _ _ (same more ▸ h)
  refine ⟨⟨narrow_inherited.branch ?_ fun t => ?_, fun front back value passed h => ?_⟩, advances⟩
  · obtain ⟨q, hq, same⟩ := nil
    exact ⟨q, hq.toNarrow, same⟩
  · obtain ⟨q, hq, same⟩ := cons t
    exact ⟨q, hq.toNarrow, same⟩
  · cases front with
    | nil => exact absurd (advances _ _ _ _ h) (Nat.lt_irrefl _)
    | cons t more =>
        obtain ⟨q, hq, same | same⟩ := cons t
        · exact (same more).trans (hq.stands more back value passed ((same _).symm.trans h))
        · exact (same more).trans (hq.stands (t :: more) back value passed ((same _).symm.trans h))

theorem whole_of_within {within : Nat → Reader α} {p : Reader α} (h : ∀ n, Whole (within n))
    (same : ∀ {n : Nat} {tokens : List Token}, tokens.length ≤ n → within n tokens = p tokens) :
    Whole p where
  toNarrow := narrow_inherited.within (fun n => (h n).toNarrow) same
  advances tokens value passed rest hd :=
    (h tokens.length).advances _ _ _ _ ((same (Nat.le_refl _)).trans hd)
  stands front back value passed hd := by
    have part : within (front ++ back).length front = p front := same (by simp)
    rw [← same (Nat.le_refl (front ++ back).length)] at hd
    exact part ▸ (h _).stands front back value passed hd

theorem whole_finishing : Finishing Narrow Stands Whole where
  pervasive := narrow_pervasive
  blockBody narrow _ advances := narrow_blockBody narrow advances
  pure := stands_pure
  bind := stands_bind
  weaken h := h.toStands
  fail := {
    toNarrow := narrow_of_stays (fun _ => rfl) fun _ _ _ => rfl
    advances := fun _ _ _ _ h => by cases h
    stands := fun _ _ _ _ h => by cases h }
  expect := whole_expect
  first := whole_bind
  last := whole_bind_of_narrow
  branch := whole_of_cons
  within := whole_of_within

end Reader

namespace Program

open Reader

/-- What is saved of tokens as a program: parts of them are the tokens of its statements, and the
others are given up. -/
structure Salvage (tokens : List Token) (placed : List (Nat × Diagnostic))
    (atEnd : List Diagnostic) (parts : List (List Token × Option Stmt)) : Prop where
  joined : body tokens = parts.flatMap (·.1)
  taken : ∀ part ∈ parts, part.1 ≠ []
  statements : (ofTokens tokens).statements = parts.filterMap (·.2)
  /-- Read alone, the tokens of a statement are this one statement. -/
  alone : ∀ x s, (x, some s) ∈ parts → ∀ mark, mark.kind = .eof →
    (ofTokens (x ++ [mark])).statements = [s]
  /-- A diagnostic points into each stretch that is given up, or is at the end right after it. -/
  given : ∀ before gap after, parts = before ++ gap ++ after → gap ≠ [] →
    (∀ part ∈ gap, part.2 = none) →
    (∃ m ∈ placed, (before.flatMap (·.1)).length ≤ m.1 ∧
      m.1 < ((before ++ gap).flatMap (·.1)).length) ∨ after = [] ∧ atEnd ≠ []

theorem statements_of_whole {x left : List Token} {mark : Token} {s : Stmt} {passed : List Fault}
    (regular : ∀ t ∈ x, t.kind ≠ .eof) (hm : mark.kind = .eof) (hx : x ≠ [])
    (read : declaration statement (x ++ left) = .done s passed left) :
    (ofTokens (x ++ [mark])).statements = [s] := by
  have whole := whole_finishing.declaration (whole_finishing.statement (stands_take? .elseWord))
  have alone := whole.stands _ _ _ _ read
  obtain ⟨t, rest, rfl⟩ := List.exists_cons_of_ne_nil hx
  have turns : Turns (declaration statement) .eof (t :: rest)
      (Declarations.after [s] passed ⟨[], [], []⟩) :=
    .reads (regular t List.mem_cons_self) alone (.ends (by simp))
  rw [ofTokens, body_append_eof regular hm, (turns_iff whole.takes whole.advances).1 turns]
  rfl

/-- No statement is made up of what was given up, and nothing is given up without a diagnostic. -/
theorem exists_salvage (tokens : List Token) :
    ∃ placed atEnd parts, Places tokens placed atEnd ∧ Salvage tokens placed atEnd parts := by
  obtain ⟨parts, marks, ends, parted⟩ := exists_parts tokens
  have joined : body tokens = parts.flatMap (·.1) := by simpa using parted.joined
  have marked := parted.marked
  rw [← joined] at marked
  refine ⟨_, _, parts, .of_marks marked, joined, parted.taken, parted.statements, ?alone, ?given⟩
  case alone =>
    intro x s hp mark hm
    have inside : x ⊆ body tokens := fun t ht => joined ▸ List.mem_flatMap.2 ⟨_, hp, ht⟩
    have regular : ∀ t ∈ x, t.kind ≠ .eof := fun t ht => not_eof_of_mem_body (inside ht)
    obtain ⟨before, after, split⟩ := List.append_of_mem hp
    obtain ⟨passed, left, read⟩ := parted.read before x s after split
    exact statements_of_whole regular hm (parted.taken _ hp) read
  case given =>
    intro before gap after split some given
    obtain ⟨⟨x, r⟩, gap, rfl⟩ := List.exists_cons_of_ne_nil some
    obtain rfl : r = none := given (x, r) List.mem_cons_self
    obtain ⟨m, hm, lower, upper⟩ | ⟨last, some⟩ :=
      parted.given before x (gap ++ after) (by simpa using split)
    · refine .inl ⟨_, List.mem_map_of_mem hm, lower, ?_⟩
      simp only [List.flatMap_append, List.flatMap_cons, List.length_append]
      omega
    · exact .inr ⟨(List.append_eq_nil_iff.1 last).2, by simpa using some⟩

end Program
end Lox
