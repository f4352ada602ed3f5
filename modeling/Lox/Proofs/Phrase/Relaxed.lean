import Lox.Proofs.Phrase.Grammar
import Lox.Token.Basic

/-!
The grammar with any operand on the left of an assignment. Drafts are derivations in it, with what
is left of their tokens when every sign that follows something else than a variable is deleted
together with the assignment on its right.
-/

namespace Lox
namespace Grammar

open Form

/-- The rules, but for assignments, which may have any operand on the left. -/
def relaxed : Nonterminal → Form
  | .assignment => rule .logicOr ++ optional (kind .equal ++ rule .assignment)
  | n => production n

theorem relaxed_of_ne {n : Nonterminal} (h : n ≠ .assignment) : relaxed n = production n := by
  cases n with
  | assignment => exact absurd rfl h
  | _ => rfl

inductive DerivesBy (rules : Nonterminal → Form) : Form → List Kind → Prop
  | kind (k : Kind) : DerivesBy rules (.kind k) [k]
  | rule {n : Nonterminal} {w : List Kind} (h : DerivesBy rules (rules n) w) :
      DerivesBy rules (.rule n) w
  | seq {a b : Form} {u v : List Kind} (ha : DerivesBy rules a u) (hb : DerivesBy rules b v) :
      DerivesBy rules (.seq a b) (u ++ v)
  | left {a b : Form} {w : List Kind} (h : DerivesBy rules a w) : DerivesBy rules (.alt a b) w
  | right {a b : Form} {w : List Kind} (h : DerivesBy rules b w) : DerivesBy rules (.alt a b) w
  | absent {a : Form} : DerivesBy rules (.optional a) []
  | present {a : Form} {w : List Kind} (h : DerivesBy rules a w) : DerivesBy rules (.optional a) w
  | stop {a : Form} : DerivesBy rules (.many a) []
  | again {a : Form} {u v : List Kind} (h : DerivesBy rules a u)
      (rest : DerivesBy rules (.many a) v) : DerivesBy rules (.many a) (u ++ v)

section derivesBy

variable {w v : List Kind}

theorem derivesBy_separated {operand : Nonterminal} {operator : Form}
    (h : DerivesBy relaxed (.rule operand) w) :
    DerivesBy relaxed (separated operand operator) w := by
  rw [← List.append_nil w]
  exact .seq h .stop

theorem derivesBy_logicOr (h : DerivesBy relaxed (.rule .primary) w) :
    DerivesBy relaxed (.rule .logicOr) w := by
  have unary : DerivesBy relaxed (.rule .unary) w := .rule (.right h)
  have factor : DerivesBy relaxed (.rule .factor) w := .rule (derivesBy_separated unary)
  have term : DerivesBy relaxed (.rule .term) w := .rule (derivesBy_separated factor)
  have comparison : DerivesBy relaxed (.rule .comparison) w := .rule (derivesBy_separated term)
  have equality : DerivesBy relaxed (.rule .equality) w := .rule (derivesBy_separated comparison)
  have logicAnd : DerivesBy relaxed (.rule .logicAnd) w := .rule (derivesBy_separated equality)
  exact .rule (derivesBy_separated logicAnd)

theorem derivesBy_plain (h : DerivesBy relaxed (.rule .logicOr) w) :
    DerivesBy relaxed (.rule .assignment) w := by
  rw [← List.append_nil w]
  exact .rule (.seq h .absent)

theorem derivesBy_assigned (h : DerivesBy relaxed (.rule .logicOr) w)
    (value : DerivesBy relaxed (.rule .assignment) v) :
    DerivesBy relaxed (.rule .assignment) (w ++ .equal :: v) :=
  .rule (.seq h (.present (.seq (.kind .equal) value)))

end derivesBy

/-- Tokens, those of them that are kept when what is misplaced is deleted, and the misplaced signs,
those in the right-hand side of another one before it. -/
@[ext]
structure Draft where
  tokens : List Token
  kept : List Token
  signs : List Token

namespace Draft

def empty : Draft := ⟨[], [], []⟩

def single (t : Token) : Draft := ⟨[t], [t], []⟩

instance : Append Draft :=
  ⟨fun d d' => ⟨d.tokens ++ d'.tokens, d.kept ++ d'.kept, d.signs ++ d'.signs⟩⟩

/-- A draft with a misplaced sign after it, and with what is right of the sign. -/
def misassigned (d : Draft) (q : Token) (v : Draft) : Draft :=
  ⟨d.tokens ++ q :: v.tokens, d.kept, d.signs ++ (v.signs ++ [q])⟩

def Bare (d : Draft) : Prop := ∃ n, d.tokens = [n] ∧ n.kind = .identifier

def join : List Draft → Draft
  | [] => empty
  | d :: ds => d ++ join ds

@[simp]
theorem tokens_append (d d' : Draft) : (d ++ d').tokens = d.tokens ++ d'.tokens := rfl

@[simp]
theorem kept_append (d d' : Draft) : (d ++ d').kept = d.kept ++ d'.kept := rfl

@[simp]
theorem signs_append (d d' : Draft) : (d ++ d').signs = d.signs ++ d'.signs := rfl

theorem append_assoc (d d' d'' : Draft) : d ++ d' ++ d'' = d ++ (d' ++ d'') := by
  ext1 <;> simp

@[simp]
theorem append_empty (d : Draft) : d ++ empty = d := by
  ext1 <;> simp [empty]

end Draft

inductive Drafted : Form → Draft → Prop
  | kind (t : Token) : Drafted (.kind t.kind) (.single t)
  | rule {n : Nonterminal} {d : Draft} (hn : n ≠ .assignment) (h : Drafted (production n) d) :
      Drafted (.rule n) d
  | plain {d : Draft} (h : Drafted (.rule .logicOr) d) : Drafted (.rule .assignment) d
  | assigned {d v : Draft} {q : Token} (left : Drafted (.rule .logicOr) d) (bare : d.Bare)
      (hq : q.kind = .equal) (value : Drafted (.rule .assignment) v) :
      Drafted (.rule .assignment) (d ++ (.single q ++ v))
  | misassigned {d v : Draft} {q : Token} (left : Drafted (.rule .logicOr) d) (other : ¬ d.Bare)
      (hq : q.kind = .equal) (value : Drafted (.rule .assignment) v) :
      Drafted (.rule .assignment) (d.misassigned q v)
  | seq {a b : Form} {d d' : Draft} (ha : Drafted a d) (hb : Drafted b d') :
      Drafted (.seq a b) (d ++ d')
  | left {a b : Form} {d : Draft} (h : Drafted a d) : Drafted (.alt a b) d
  | right {a b : Form} {d : Draft} (h : Drafted b d) : Drafted (.alt a b) d
  | absent {a : Form} : Drafted (.optional a) .empty
  | present {a : Form} {d : Draft} (h : Drafted a d) : Drafted (.optional a) d
  | stop {a : Form} : Drafted (.many a) .empty
  | again {a : Form} {d d' : Draft} (h : Drafted a d) (rest : Drafted (.many a) d') :
      Drafted (.many a) (d ++ d')

/-- An assignment with any operand on its left has a draft. -/
theorem drafted_assignment {d : Draft} (h : Drafted (relaxed .assignment) d) :
    ∃ d', Drafted (.rule .assignment) d' ∧ d'.tokens = d.tokens := by
  cases h with
  | @seq _ _ u _ left rest =>
      cases rest with
      | absent => exact ⟨u, .plain left, by simp⟩
      | present rest =>
          cases rest with
          | @seq _ _ _ v sign value =>
              generalize hk : Form.kind .equal = form at sign
              cases sign with
              | kind q =>
                  have hq : q.kind = .equal := (Form.kind.inj hk).symm
                  by_cases bare : u.Bare
                  · exact ⟨_, .assigned left bare hq value, rfl⟩
                  · exact ⟨_, .misassigned left bare hq value, rfl⟩
              | _ => cases hk

/-- Whatever is derived by the relaxed rules has a draft. -/
theorem exists_draft {a : Form} {ks : List Kind} (h : DerivesBy relaxed a ks) {w : List Token}
    (hw : w.map Token.kind = ks) : ∃ d, Drafted a d ∧ d.tokens = w := by
  induction h generalizing w with
  | kind k =>
      obtain ⟨t, rfl, rfl⟩ := List.map_eq_singleton_iff.1 hw
      exact ⟨_, .kind t, rfl⟩
  | @rule n _ _ ih =>
      obtain ⟨d, hd, rfl⟩ := ih hw
      by_cases hn : n = .assignment
      · subst hn
        exact drafted_assignment hd
      · exact ⟨d, .rule hn (relaxed_of_ne hn ▸ hd), rfl⟩
  | seq _ _ iha ihb =>
      obtain ⟨u, v, rfl, hu, hv⟩ := List.map_eq_append_iff.1 hw
      obtain ⟨d, hd, rfl⟩ := iha hu
      obtain ⟨d', hd', rfl⟩ := ihb hv
      exact ⟨_, .seq hd hd', rfl⟩
  | left _ ih =>
      obtain ⟨d, hd, same⟩ := ih hw
      exact ⟨d, .left hd, same⟩
  | right _ ih =>
      obtain ⟨d, hd, same⟩ := ih hw
      exact ⟨d, .right hd, same⟩
  | absent => exact ⟨_, .absent, (List.map_eq_nil_iff.1 hw).symm⟩
  | present _ ih =>
      obtain ⟨d, hd, same⟩ := ih hw
      exact ⟨d, .present hd, same⟩
  | stop => exact ⟨_, .stop, (List.map_eq_nil_iff.1 hw).symm⟩
  | again _ _ ih ihr =>
      obtain ⟨u, v, rfl, hu, hv⟩ := List.map_eq_append_iff.1 hw
      obtain ⟨d, hd, rfl⟩ := ih hu
      obtain ⟨d', hd', rfl⟩ := ihr hv
      exact ⟨_, .again hd hd', rfl⟩

/-- A draft is a derivation by the relaxed rules. -/
theorem Drafted.derivesBy {a : Form} {d : Draft} (h : Drafted a d) :
    DerivesBy relaxed a (d.tokens.map Token.kind) := by
  induction h with
  | kind t => exact .kind t.kind
  | rule hn _ ih => exact .rule (relaxed_of_ne hn ▸ ih)
  | plain _ ih => exact derivesBy_plain ih
  | @assigned d v q _ _ hq _ ihl ihv | @misassigned d v q _ _ hq _ ihl ihv =>
      simpa [Draft.single, Draft.misassigned, hq] using derivesBy_assigned ihl ihv
  | seq _ _ iha ihb =>
      rw [Draft.tokens_append, List.map_append]
      exact .seq iha ihb
  | left _ ih => exact .left ih
  | right _ ih => exact .right ih
  | absent => exact .absent
  | present _ ih => exact .present ih
  | stop => exact .stop
  | again _ _ ih ihr =>
      rw [Draft.tokens_append, List.map_append]
      exact .again ih ihr

/-- The tokens of drafts are those that the relaxed rules derive. -/
theorem derivesBy_iff_exists_draft {a : Form} {w : List Token} :
    DerivesBy relaxed a (w.map Token.kind) ↔ ∃ d, Drafted a d ∧ d.tokens = w := by
  constructor
  · exact fun h => exists_draft h rfl
  · rintro ⟨d, h, rfl⟩
    exact h.derivesBy

/-- What is kept is kept in its order, and the misplaced signs are signs of assignments. -/
theorem Drafted.deletes {a : Form} {d : Draft} (h : Drafted a d) :
    d.kept.Sublist d.tokens ∧ ∀ q ∈ d.signs, q.kind = .equal := by
  induction h with
  | kind | absent | stop => simp [Draft.single, Draft.empty]
  | rule _ _ ih | plain _ ih | left _ ih | right _ ih | present _ ih => exact ih
  | seq _ _ iha ihb | again _ _ iha ihb =>
      exact ⟨iha.1.append ihb.1, List.forall_mem_append.2 ⟨iha.2, ihb.2⟩⟩
  | @assigned d v q _ _ _ _ ihl ihv =>
      exact ⟨ihl.1.append (ihv.1.cons_cons q), List.forall_mem_append.2 ⟨ihl.2, ihv.2⟩⟩
  | @misassigned d v q _ _ hq _ ihl ihv =>
      refine ⟨ihl.1.trans (List.sublist_append_left _ _), ?_⟩
      exact List.forall_mem_append.2 ⟨ihl.2, List.forall_mem_append.2 ⟨ihv.2, by simp [hq]⟩⟩

end Grammar
end Lox
