import Lox.Proofs.Phrase.Program
import Lox.Proofs.Phrase.Turns

/-!
What faults are blamed on. Every fault that is not at the end has a token of its own, and the places
of these tokens go up in the order in which the faults are found; only the signs of assignments to
what cannot be assigned to are found from the inner to the outer, which is from the last to the
first.
-/

namespace Lox
namespace Reader

variable {α : Type}

/-- Of two faults with the places of their tokens, the one that is found first stands first, unless
both are invalid targets. -/
def Precedes (m m' : Nat × Fault) : Prop :=
  m.1 < m'.1 ∨ m'.1 < m.1 ∧ m.2.problem = .invalidTarget ∧ m'.2.problem = .invalidTarget

/-- Faults that were found among tokens `front` with `rest` after them: first those with a place in
`front`, and then, if there is no rest, those at the end. -/
structure Marks (front rest : List Token) (faults : List Fault) (marks : List (Nat × Fault))
    (ends : List Fault) : Prop where
  faults : faults = marks.map (·.2) ++ ends
  found : ∀ m ∈ marks, ∃ t, front[m.1]? = some t ∧ m.2.found = some t ∧
    (m.2.problem = .invalidTarget → t.kind = .equal)
  order : marks.Pairwise Precedes
  atEnd : ∀ f ∈ ends, f.found = none ∧ f.problem ≠ .invalidTarget
  last : ends ≠ [] → rest = []

def behind (n : Nat) (marks : List (Nat × Fault)) : List (Nat × Fault) :=
  marks.map fun m => (n + m.1, m.2)

namespace Marks

variable {front gap rest : List Token} {faults faults' : List Fault}
  {marks marks' : List (Nat × Fault)} {ends ends' : List Fault}

theorem none (front rest : List Token) : Marks front rest [] [] [] := by
  constructor <;> simp

theorem token {t : Token} {f : Fault} (found : f.found = some t) (hp : f.problem ≠ .invalidTarget)
    (front rest : List Token) : Marks (t :: front) rest [f] [(0, f)] [] := by
  constructor <;> simp [found, hp]

theorem nowhere {f : Fault} (found : f.found = .none) (hp : f.problem ≠ .invalidTarget) :
    Marks [] [] [f] [] [f] := by
  constructor <;> simp [found, hp]

theorem lt_length (h : Marks front rest faults marks ends) {m : Nat × Fault} (hm : m ∈ marks) :
    m.1 < front.length := by
  obtain ⟨t, ht, -⟩ := h.found m hm
  exact (List.getElem?_eq_some_iff.1 ht).1

theorem append (h : Marks front (gap ++ rest) faults marks ends)
    (h' : Marks gap rest faults' marks' ends') :
    Marks (front ++ gap) rest (faults ++ faults') (marks ++ behind front.length marks')
      (ends ++ ends') where
  faults := by
    have none : ends = [] ∨ marks' = [] := by
      by_cases he : ends = []
      · exact .inl he
      · refine .inr (List.eq_nil_iff_forall_not_mem.2 fun m hm => ?_)
        have := h'.lt_length hm
        simp [(List.append_eq_nil_iff.1 (h.last he)).1] at this
    obtain none | none := none <;> simp [h.faults, h'.faults, none, behind]
  found m hm := by
    obtain hm | hm := List.mem_append.1 hm
    · obtain ⟨t, ht, rest⟩ := h.found m hm
      exact ⟨t, by rw [List.getElem?_append_left (h.lt_length hm), ht], rest⟩
    · obtain ⟨m', hm', rfl⟩ := List.mem_map.1 hm
      obtain ⟨t, ht, rest⟩ := h'.found m' hm'
      exact ⟨t, by simpa [List.getElem?_append_right] using ht, rest⟩
  order := by
    refine List.pairwise_append.2 ⟨h.order, ?_, ?_⟩
    · refine List.pairwise_map.2 (h'.order.imp fun {m m'} hm => ?_)
      simpa [Precedes] using hm
    · intro m hm m' hm'
      obtain ⟨m', -, rfl⟩ := List.mem_map.1 hm'
      exact .inl (Nat.lt_of_lt_of_le (h.lt_length hm) (Nat.le_add_right _ _))
  atEnd := List.forall_mem_append.2 ⟨h.atEnd, h'.atEnd⟩
  last some := by
    by_cases he : ends' = []
    · exact (List.append_eq_nil_iff.1 (h.last (by simpa [he] using some))).2
    · exact h'.last he

/-- The sign of an assignment is blamed after the faults behind it. -/
theorem target {q : Token} (hq : q.kind = .equal) (h : Marks front rest faults marks ends)
    (lenient : ∀ f ∈ faults, f.problem = .invalidTarget) :
    Marks (q :: front) rest (faults ++ [⟨.invalidTarget, some q⟩])
      (behind 1 marks ++ [(0, ⟨.invalidTarget, some q⟩)]) [] := by
  have none : ends = [] := List.eq_nil_iff_forall_not_mem.2 fun f hf =>
    (h.atEnd f hf).2 (lenient f (by simp [h.faults, hf]))
  have targets : ∀ m ∈ marks, m.2.problem = .invalidTarget := fun m hm =>
    lenient m.2 (by rw [h.faults]; exact List.mem_append_left _ (List.mem_map_of_mem hm))
  refine ⟨by simp [h.faults, none, behind], ?_, ?_, by simp, by simp⟩
  · intro m hm
    obtain hm | hm := List.mem_append.1 hm
    · obtain ⟨m', hm', rfl⟩ := List.mem_map.1 hm
      obtain ⟨t, ht, rest⟩ := h.found m' hm'
      exact ⟨t, by simpa [Nat.add_comm] using ht, rest⟩
    · obtain rfl := List.mem_singleton.1 hm
      exact ⟨q, rfl, rfl, fun _ => hq⟩
  · refine List.pairwise_append.2 ⟨?_, List.pairwise_singleton _ _, ?_⟩
    · refine List.pairwise_map.2 (h.order.imp fun {m m'} hm => ?_)
      simpa [Precedes] using hm
    · intro m hm last hl
      obtain ⟨m', hm', rfl⟩ := List.mem_map.1 hm
      obtain rfl := List.mem_singleton.1 hl
      exact .inr ⟨Nat.add_pos_left Nat.one_pos _, targets m' hm', rfl⟩

end Marks

/-- What a reply to tokens blames: the faults passed over have their marks among the tokens taken,
and a failure is one at the next token. -/
structure Blames (tokens : List Token) (r : Reply α) : Prop where
  marks : ∃ front marks ends, tokens = front ++ r.rest ∧ Marks front r.rest r.passed marks ends
  fault : ∀ fault passed rest, r = .failed fault passed rest →
    fault.found = rest.head? ∧ fault.problem ≠ .invalidTarget

theorem Blames.of_done {tokens rest : List Token} {passed : List Fault}
    (h : ∃ front marks ends, tokens = front ++ rest ∧ Marks front rest passed marks ends) (a : α) :
    Blames tokens (.done a passed rest) :=
  ⟨h, fun _ _ _ failed => by cases failed⟩

def Blaming (p : Reader α) : Prop := ∀ tokens, Blames tokens (p tokens)

section

variable {β : Type} {tokens left : List Token} {a : α} {passed : List Fault} {r : Reply β}

/-- Tokens in front are blamed for nothing. -/
theorem Blames.cons (h : Blames tokens r) (t : Token) : Blames (t :: tokens) r := by
  obtain ⟨⟨front, marks, ends, ht, hm⟩, fault⟩ := h
  exact ⟨⟨t :: front, _, _, congrArg (t :: ·) ht, (Marks.none [t] (front ++ r.rest)).append hm⟩,
    fault⟩

theorem Blames.after (h : Blames tokens (.done a passed left)) (h' : Blames left r) :
    Blames tokens (r.after passed) := by
  obtain ⟨⟨front, marks, ends, ht, hm⟩, -⟩ := h
  obtain ⟨⟨gap, marks', ends', hl, hm'⟩, fault'⟩ := h'
  simp only [Reply.rest, Reply.passed] at ht hm
  rw [hl] at hm
  have both := hm.append hm'
  refine ⟨⟨front ++ gap, _, _, ?_, by simpa using both⟩, fun fault passed' rest failed => ?_⟩
  · rw [Reply.rest_after, List.append_assoc, ← hl, ht]
  · cases r with
    | done => cases failed
    | failed fault'' passed'' rest'' =>
        cases failed
        exact fault' _ _ _ rfl

end

theorem blaming_bind {β : Type} {p : Reader α} {f : α → Reader β} (hp : Blaming p)
    (hf : ∀ a, Blaming (f a)) : Blaming (p >>= f) := by
  intro tokens
  have first := hp tokens
  cases hc : p tokens with
  | done a passed left =>
      rw [hc] at first
      exact after_of_done hc f ▸ first.after (hf a left)
  | failed fault passed left =>
      rw [hc] at first
      rw [bind_of_failed hc]
      refine ⟨first.marks, fun fault' passed' rest' h => ?_⟩
      cases h
      exact first.fault _ _ _ rfl

theorem blaming_assignment {left value : Reader Expr} (hl : Blaming left) (hv : Blaming value)
    (lenient : Lenient value) : Blaming (assignment left value) := by
  intro tokens
  have first := hl tokens
  apply assignment_cases (motive := Blames tokens)
  case stuck =>
    intro fault passed rest h
    rwa [h] at first
  case absent =>
    intro target passed rest h
    rwa [h] at first
  case unread =>
    intro target passed q rest fault passed' last h _ unread
    have second := hv rest
    rw [h] at first
    rw [unread] at second
    exact first.after (second.cons q)
  case assigned =>
    intro name line passed q rest e passed' last h _ read
    have second := hv rest
    rw [h] at first
    rw [read] at second
    exact first.after (Blames.of_done (second.cons q).marks _)
  case other =>
    intro target passed q rest e passed' last h hq read
    have second := hv rest
    have targets := lenient rest
    rw [h] at first
    rw [read] at second targets
    obtain ⟨⟨front, marks, ends, ht, hm⟩, -⟩ := second
    simp only [Reply.rest, Reply.passed] at ht hm targets
    exact first.after (Blames.of_done
      ⟨q :: front, _, _, congrArg (q :: ·) ht, hm.target hq targets⟩ target)

/-- After a failure something is given up, and the fault is blamed in it or at the end. -/
theorem Blames.given_up {tokens left : List Token} {fault : Fault} {passed : List Fault}
    (h : Blames tokens (.failed fault passed left : Reply α)) :
    ∃ x marks ends, tokens = x ++ resume left ∧
      Marks x (resume left) (passed ++ [fault]) marks ends ∧ (marks ≠ [] ∨ ends ≠ []) := by
  obtain ⟨⟨front, marks, ends, ht, hm⟩, blamed⟩ := h
  obtain ⟨found, hp⟩ := blamed _ _ _ rfl
  simp only [Reply.rest, Reply.passed] at ht hm
  cases left with
  | nil =>
      have last : Marks [] [] [fault] [] [fault] := Marks.nowhere found hp
      exact ⟨front ++ [], _, _, by simpa [resume] using ht, hm.append last, .inr (by simp)⟩
  | cons u more =>
      obtain ⟨gap, hg⟩ := resume_suffix (u :: more)
      have shorter := length_resume_lt (List.cons_ne_nil u more)
      cases gap with
      | nil => exact absurd (congrArg List.length hg) (Nat.ne_of_lt shorter)
      | cons u' gap =>
          obtain ⟨rfl, -⟩ := List.cons.inj hg
          rw [← hg] at hm
          have here := Marks.token found hp gap (resume (u' :: more))
          exact ⟨front ++ u' :: gap, _, _, by rw [ht, List.append_assoc, hg], hm.append here,
            .inl (by simp [behind])⟩

/-- Declarations part the tokens that they are read from: each part was read as a declaration, or
was given up. -/
structure Parted (one : Reader Stmt) (tokens : List Token) (d : Declarations)
    (parts : List (List Token × Option Stmt)) (marks : List (Nat × Fault)) (ends : List Fault) :
    Prop where
  joined : tokens = parts.flatMap (·.1) ++ d.rest
  statements : d.statements = parts.filterMap (·.2)
  marked : Marks (parts.flatMap (·.1)) d.rest d.passed marks ends
  taken : ∀ part ∈ parts, part.1 ≠ []
  read : ∀ before x s after, parts = before ++ (x, some s) :: after →
    ∃ passed left, one (x ++ left) = .done s passed left
  /-- A fault is blamed in what was given up, or at the end right after it. -/
  given : ∀ before x after, parts = before ++ (x, none) :: after →
    (∃ m ∈ marks, (before.flatMap (·.1)).length ≤ m.1 ∧
      m.1 < (before.flatMap (·.1)).length + x.length) ∨ after = [] ∧ ends ≠ []

variable {one : Reader Stmt} {close : Kind}

theorem Parted.cons {left x : List Token} {r : Option Stmt} {d : Declarations}
    {parts : List (List Token × Option Stmt)} {faults : List Fault}
    {marks marks' : List (Nat × Fault)} {ends ends' : List Fault}
    (h : Parted one left d parts marks ends) (hm : Marks x left faults marks' ends') (hx : x ≠ [])
    (read : ∀ s, r = some s → ∃ passed, one (x ++ left) = .done s passed left)
    (given : r = none → marks' ≠ [] ∨ ends' ≠ []) :
    Parted one (x ++ left) (d.after r.toList faults) ((x, r) :: parts)
      (marks' ++ behind x.length marks) (ends' ++ ends) where
  joined := by simp [h.joined, Declarations.after]
  statements := by cases r <;> simp [h.statements, Declarations.after]
  marked := by
    rw [h.joined] at hm
    exact hm.append h.marked
  taken := List.forall_mem_cons.2 ⟨hx, h.taken⟩
  read before x' s after split := by
    cases before with
    | nil =>
        obtain ⟨⟨rfl, rfl⟩, -⟩ := by simpa using split
        exact (read s rfl).imp fun passed read => ⟨left, read⟩
    | cons part before => exact h.read before x' s after (List.cons.inj split).2
  given before x' after split := by
    cases before with
    | nil =>
        obtain ⟨⟨rfl, rfl⟩, rfl⟩ := by simpa using split
        obtain marked | atEnd := given rfl
        · obtain ⟨m, hm'⟩ := List.exists_mem_of_ne_nil marks' marked
          exact .inl ⟨m, by simp [hm'], by simpa using hm.lt_length hm'⟩
        · have nothing := hm.last atEnd
          rw [h.joined, List.append_eq_nil_iff, List.flatMap_eq_nil_iff] at nothing
          have none : parts = [] := List.eq_nil_iff_forall_not_mem.2 fun part hp =>
            h.taken part hp (nothing.1 part hp)
          exact .inr ⟨none, by simp [atEnd]⟩
    | cons part before =>
        obtain ⟨rfl, later⟩ := List.cons.inj split
        obtain ⟨m, hm', lower, upper⟩ | ⟨none, atEnd⟩ := h.given before x' after later
        · refine .inl ⟨_, List.mem_append_right _ (List.mem_map_of_mem hm'), ?_⟩
          simp only [List.flatMap_cons, List.length_append]
          omega
        · exact .inr ⟨none, by simp [atEnd]⟩

/-- Declarations part their tokens, however many faults they have. -/
theorem Turns.parted {tokens : List Token} {d : Declarations} (blaming : Blaming one)
    (advances : Advances one) (takes : Takes one) (h : Turns one close tokens d) :
    ∃ parts marks ends, Parted one tokens d parts marks ends := by
  induction h with
  | @ends tokens _ =>
      have none : Marks [] tokens [] [] [] := .none [] tokens
      exact ⟨[], [], [], rfl, rfl, none, by simp, by simp, by simp⟩
  | @reads t rest left s passed d _ read _ ih =>
      obtain ⟨parts, marks, ends, ih⟩ := ih
      have blames := blaming (t :: rest)
      rw [read] at blames
      obtain ⟨x, marks', ends', ht, hm⟩ := blames.marks
      simp only [Reply.rest, Reply.passed] at ht hm
      have hx : x ≠ [] := by
        rintro rfl
        have shorter := advances _ _ _ _ read
        exact Nat.ne_of_gt shorter (congrArg List.length ht)
      rw [ht] at read ⊢
      refine ⟨_, _, _, ih.cons (r := some s) hm hx ?_ (by simp)⟩
      intro s' same
      cases same
      exact ⟨passed, read⟩
  | @recovers t rest left fault passed d _ stuck _ ih =>
      obtain ⟨parts, marks, ends, ih⟩ := ih
      have blames := blaming (t :: rest)
      rw [stuck] at blames
      obtain ⟨x, marks', ends', ht, hm, blamed⟩ := blames.given_up
      have hx : x ≠ [] := by
        rintro rfl
        have shorter := length_resume_lt_of_failed takes (List.cons_ne_nil t rest) stuck
        exact Nat.ne_of_gt shorter (congrArg List.length ht)
      rw [ht]
      exact ⟨_, _, _, ih.cons (r := none) hm hx (by simp) fun _ => blamed⟩

theorem blaming_braced (blaming : Blaming one) (takes : Takes one) (advances : Advances one) :
    Blaming (braced one) := by
  intro tokens
  apply braced_cases (motive := Blames tokens) takes advances
  case shut =>
    refine ⟨⟨[], _, _, rfl, .none [] tokens⟩, fun fault passed rest h => ?_⟩
    cases h
    exact ⟨rfl, by simp⟩
  case ends =>
    rintro l rest d rfl - turns last
    obtain ⟨parts, marks, ends, parted⟩ := turns.parted blaming advances takes
    obtain ⟨joined, -, marked, -⟩ := parted
    rw [last] at joined marked
    refine Blames.cons ⟨⟨_, _, _, joined, marked⟩, fun fault passed rest h => ?_⟩ l
    cases h
    exact ⟨rfl, by simp⟩
  case closes =>
    rintro l rest d r back rfl - turns last -
    obtain ⟨parts, marks, ends, parted⟩ := turns.parted blaming advances takes
    obtain ⟨joined, -, marked, -⟩ := parted
    rw [last] at joined marked
    have brace : Marks [r] back [] [] [] := .none [r] back
    have closed := Marks.append (show Marks _ ([r] ++ back) _ _ _ from marked) brace
    exact Blames.cons (.of_done
      ⟨parts.flatMap (·.1) ++ [r], _, _, by simpa using joined, by simpa using closed⟩ _) l

theorem blaming_pervasive : Pervasive Blaming where
  pure value tokens := .of_done ⟨[], _, _, rfl, .none [] tokens⟩ value
  fail hp tokens := ⟨⟨[], _, _, rfl, .none [] tokens⟩, fun _ _ _ h => by
    cases h
    exact ⟨rfl, hp⟩⟩
  peek tokens := .of_done ⟨[], _, _, rfl, .none [] tokens⟩ _
  bind := blaming_bind
  branch nil cons tokens := by
    cases tokens with
    | nil =>
        obtain ⟨q, hq, same⟩ := nil
        exact same ▸ hq []
    | cons t rest =>
        obtain ⟨q, hq, same | same⟩ := cons t
        · exact same rest ▸ (hq rest).cons t
        · exact same rest ▸ hq (t :: rest)
  within h same tokens := same (Nat.le_refl tokens.length) ▸ h tokens.length tokens
  assignment hl hv _ _ _ lenient := blaming_assignment hl hv lenient
  braced blaming takes advances := blaming_braced blaming takes advances

end Reader

theorem Problem.code_eq_invalidTarget {p : Problem} :
    p.code = .invalidTarget ↔ p = .invalidTarget := by
  cases p <;> simp [Problem.code]

namespace Program

open Reader

structure Places (tokens : List Token) (placed : List (Nat × Diagnostic))
    (atEnd : List Diagnostic) : Prop where
  /-- First those that point at a token are reported, and then those at the end. -/
  reported : (ofTokens tokens).diagnostics = placed.map (·.2) ++ atEnd
  points : ∀ m ∈ placed, ∃ t, tokens[m.1]? = some t ∧ m.2.location = .lexeme t.lexeme ∧
    m.2.line = t.line ∧ (m.2.code = .invalidTarget → t.kind = .equal)
  increasing : placed.Pairwise fun m m' =>
    m.2.code ≠ .invalidTarget → m'.2.code ≠ .invalidTarget → m.1 < m'.1
  /-- An invalid target stands between what is reported before it and what is reported after it,
  apart from other invalid targets. -/
  between : ∀ before m after, placed = before ++ m :: after → m.2.code = .invalidTarget →
    (∀ m' ∈ before, m'.2.code ≠ .invalidTarget → m'.1 < m.1) ∧
      ∀ m' ∈ after, m'.2.code ≠ .invalidTarget → m.1 < m'.1
  distinct : (placed.map (·.1)).Nodup
  ends : ∀ d ∈ atEnd, d.location = .atEnd ∧ d.line = lineOfEnd tokens

theorem Places.of_marks {tokens rest : List Token} {marks : List (Nat × Fault)}
    {ends : List Fault} (h : Marks (body tokens) rest (ofTokens tokens).faults marks ends) :
    Places tokens (marks.map fun m => (m.1, m.2.diagnostic (lineOfEnd tokens)))
      (ends.map (Fault.diagnostic (lineOfEnd tokens))) := by
  have order : (marks.map fun m => (m.1, m.2.diagnostic (lineOfEnd tokens))).Pairwise fun m m' =>
      m.1 < m'.1 ∨ m'.1 < m.1 ∧ m.2.code = .invalidTarget ∧ m'.2.code = .invalidTarget := by
    refine List.pairwise_map.2 (h.order.imp fun {m m'} hm => ?_)
    simpa only [Fault.diagnostic, Problem.code_eq_invalidTarget, Precedes] using hm
  refine ⟨?reported, ?points, ?increasing, ?between, ?distinct, ?ends⟩
  case reported =>
    rw [diagnostics, h.faults, List.map_append, List.map_map, List.map_map]
    rfl
  case points =>
    intro m hm
    obtain ⟨m', hm', rfl⟩ := List.mem_map.1 hm
    obtain ⟨t, ht, found, target⟩ := h.found m' hm'
    obtain ⟨inside, rfl⟩ := List.getElem?_eq_some_iff.1 ht
    have first : body tokens <+: tokens := List.takeWhile_prefix _
    exact ⟨_, List.prefix_iff_getElem?.1 first m'.1 inside, by simp [Fault.diagnostic, found],
      by simp [Fault.diagnostic, found], fun hc => target (Problem.code_eq_invalidTarget.1 hc)⟩
  case increasing =>
    exact order.imp fun hm plain _ => hm.resolve_right fun ⟨_, target, _⟩ => plain target
  case between =>
    intro before m after split _
    rw [split, List.pairwise_append, List.pairwise_cons] at order
    obtain ⟨-, ⟨later, -⟩, earlier⟩ := order
    refine ⟨fun m' hm' plain => ?_, fun m' hm' plain => ?_⟩
    · exact (earlier m' hm' m List.mem_cons_self).resolve_right fun ⟨_, target, _⟩ => plain target
    · exact (later m' hm').resolve_right fun ⟨_, _, target⟩ => plain target
  case distinct =>
    refine List.pairwise_map.2 (order.imp fun {m m'} hm => ?_)
    obtain hm | ⟨hm, -⟩ := hm
    · exact Nat.ne_of_lt hm
    · exact Nat.ne_of_gt hm
  case ends =>
    intro d hd
    obtain ⟨f, hf, rfl⟩ := List.mem_map.1 hd
    have nowhere := (h.atEnd f hf).1
    simp [Fault.diagnostic, nowhere]

/-- The tokens of a program are parted by what is read from them. -/
theorem exists_parts (tokens : List Token) : ∃ parts marks ends,
    Parted (declaration statement) (body tokens)
      ⟨(ofTokens tokens).statements, (ofTokens tokens).faults, []⟩ parts marks ends := by
  have takes := takes_declaration takes_statement
  have advances := advances_declaration advances_statement
  have blaming := blaming_pervasive.declaration blaming_pervasive.statement
  have turns := (turns_iff takes advances).2
    (rfl : declarations (declaration statement) .eof (body tokens) = _)
  rw [ofTokens, ← rest_nil tokens]
  exact turns.parted blaming advances takes

/-- Every diagnostic points at a token of its own, or is at the end. -/
theorem exists_places (tokens : List Token) : ∃ placed atEnd, Places tokens placed atEnd := by
  obtain ⟨parts, marks, ends, parted⟩ := exists_parts tokens
  have joined := parted.joined
  have marked := parted.marked
  rw [List.append_nil] at joined
  rw [← joined] at marked
  exact ⟨_, _, .of_marks marked⟩

end Program
end Lox
