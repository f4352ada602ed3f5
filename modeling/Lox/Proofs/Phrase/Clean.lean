import Lox.Phrase.Extent

/-!
Readings without a fault. A reader built from others succeeds and passes over nothing exactly when
all of its parts do, so such a reading can be taken apart, or put together, one part at a time.
-/

namespace Lox

theorem Reply.after_nil {α : Type} (r : Reply α) : r.after [] = r := by
  cases r <;> rfl

namespace Reader

variable {α β : Type}

theorem after_of_done {p : Reader α} {tokens left : List Token} {a : α} {passed : List Fault}
    (h : p tokens = .done a passed left) (f : α → Reader β) :
    (p >>= f) tokens = (f a left).after passed := by
  rw [bind_apply, h]

theorem bind_of_failed {p : Reader α} {tokens rest : List Token} {fault : Fault}
    {passed : List Fault} (h : p tokens = .failed fault passed rest) (f : α → Reader β) :
    (p >>= f) tokens = .failed fault passed rest := by
  rw [bind_apply, h]

theorem clean_of_bind {p : Reader α} {f : α → Reader β} {tokens rest : List Token} {value : β}
    (h : (p >>= f) tokens = .done value [] rest) :
    ∃ a left, p tokens = .done a [] left ∧ f a left = .done value [] rest := by
  obtain ⟨a, before, left, after, hp, hf, passed⟩ := done_of_bind h
  obtain ⟨rfl, rfl⟩ := List.append_eq_nil_iff.1 passed.symm
  exact ⟨a, left, hp, hf⟩

theorem bind_of_clean {p : Reader α} {tokens left : List Token} {a : α}
    (h : p tokens = .done a [] left) (f : α → Reader β) : (p >>= f) tokens = f a left := by
  rw [after_of_done h, Reply.after_nil]

theorem map_of_clean {p : Reader α} {tokens left : List Token} {a : α}
    (h : p tokens = .done a [] left) (f : α → β) : (f <$> p) tokens = .done (f a) [] left :=
  bind_of_clean h _

theorem clean_of_map {p : Reader α} {f : α → β} {tokens rest : List Token} {value : β}
    (h : (f <$> p) tokens = .done value [] rest) :
    ∃ a, p tokens = .done a [] rest ∧ value = f a := by
  obtain ⟨a, left, hp, hf⟩ := clean_of_bind h
  cases hf
  exact ⟨a, hp, rfl⟩

theorem take_clean_iff {kind : Kind} {problem : Problem} {tokens rest : List Token} {t : Token} :
    take kind problem tokens = .done t [] rest ↔ tokens = t :: rest ∧ t.kind = kind := by
  cases tokens with
  | nil => simp [take, fail]
  | cons u more =>
      by_cases hk : u.kind = kind
      · simp only [take, hk, if_true, Reply.done.injEq, true_and, List.cons.injEq]
        constructor
        · rintro ⟨rfl, rfl⟩
          exact ⟨⟨rfl, rfl⟩, hk⟩
        · exact And.left
      · simp only [take, hk, if_false, fail, reduceCtorEq, List.cons.injEq, false_iff]
        rintro ⟨⟨rfl, -⟩, ht⟩
        exact hk ht

theorem expect_clean_iff {piece : Piece} {tokens rest : List Token} :
    expect piece tokens = .done () [] rest ↔ ∃ t, tokens = t :: rest ∧ t.kind = piece.kind := by
  constructor
  · intro h
    simp only [expect] at h
    cases hc : take piece.kind (.missing piece) tokens with
    | failed fault passed left => simp [hc] at h
    | done t passed left =>
        simp only [hc, Reply.done.injEq, true_and] at h
        obtain ⟨rfl, rfl⟩ := h
        exact ⟨t, take_clean_iff.1 hc⟩
  · rintro ⟨t, ht⟩
    simp only [expect, take_clean_iff.2 ht]

theorem take?_some {kind : Kind} {tokens rest : List Token} {passed : List Fault} {t : Token}
    (h : take? kind tokens = .done (some t) passed rest) : tokens = t :: rest ∧ t.kind = kind := by
  cases tokens with
  | nil => simp [take?] at h
  | cons u more =>
      by_cases hk : u.kind = kind
      · simp only [take?, hk, if_true, Reply.done.injEq, Option.some.injEq] at h
        obtain ⟨rfl, -, rfl⟩ := h
        exact ⟨rfl, hk⟩
      · simp [take?, hk] at h

def NotNext (kind : Kind) (tokens : List Token) : Prop := ∀ t ∈ tokens.head?, t.kind ≠ kind

theorem notNext_cons {kind : Kind} {t : Token} {rest : List Token} :
    NotNext kind (t :: rest) ↔ t.kind ≠ kind := by
  simp [NotNext]

theorem take?_none {kind : Kind} {tokens rest : List Token} {passed : List Fault}
    (h : take? kind tokens = .done none passed rest) : rest = tokens ∧ NotNext kind tokens := by
  cases tokens with
  | nil =>
      simp only [take?, Reply.done.injEq] at h
      exact ⟨h.2.2.symm, by simp [NotNext]⟩
  | cons u more =>
      by_cases hk : u.kind = kind
      · simp [take?, hk] at h
      · simp only [take?, hk, if_false, Reply.done.injEq] at h
        exact ⟨h.2.2.symm, notNext_cons.2 hk⟩

theorem take?_of_eq {t : Token} {kind : Kind} (h : t.kind = kind) (rest : List Token) :
    take? kind (t :: rest) = .done (some t) [] rest := by
  simp [take?, h]

theorem take?_of_notNext {kind : Kind} {tokens : List Token} (h : NotNext kind tokens) :
    take? kind tokens = .done none [] tokens := by
  cases tokens with
  | nil => rfl
  | cons t rest => simp [take?, notNext_cons.1 h]

theorem expect_of_eq {piece : Piece} {t : Token} (h : t.kind = piece.kind) (rest : List Token) :
    expect piece (t :: rest) = .done () [] rest :=
  expect_clean_iff.2 ⟨t, rfl, h⟩

theorem optionalBefore_of_next {p : Reader α} {kind : Kind} {t : Token} (h : t.kind = kind)
    (rest : List Token) : optionalBefore kind p (t :: rest) = .done none [] (t :: rest) := by
  rw [optionalBefore, bind_of_clean (p := peek) rfl]
  simp [h, pure_apply]

theorem optionalBefore_of_clean {p : Reader α} {kind : Kind} {tokens left : List Token} {a : α}
    (hn : NotNext kind tokens) (h : p tokens = .done a [] left) :
    optionalBefore kind p tokens = .done (some a) [] left := by
  have hk : tokens.head?.map Token.kind ≠ some kind := by
    cases tokens with
    | nil => simp
    | cons t rest => simpa using notNext_cons.1 hn
  rw [optionalBefore, bind_of_clean (p := peek) rfl, if_neg hk, bind_of_clean h]
  rfl

theorem clean_of_optionalBefore {p : Reader α} {kind : Kind} {tokens rest : List Token}
    {value : Option α} (h : optionalBefore kind p tokens = .done value [] rest) :
    (value = none ∧ rest = tokens) ∨ ∃ a, value = some a ∧ p tokens = .done a [] rest := by
  rw [optionalBefore, bind_of_clean (p := peek) rfl] at h
  split at h
  · cases h
    exact .inl ⟨rfl, rfl⟩
  · obtain ⟨a, left, hp, hv⟩ := clean_of_bind h
    cases hv
    exact .inr ⟨a, rfl, hp⟩

end Reader
end Lox
