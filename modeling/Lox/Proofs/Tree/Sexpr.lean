import Mathlib.Data.List.TakeWhile

/-!
S-expressions: words, quoted texts, and words with S-expressions after them in parentheses. One can
be read back from its text in one way only, and so can a list of them, although what is quoted may
hold spaces, parentheses and newlines.
-/

namespace Lox

inductive Sexpr
  | word (text : List Char)
  | quoted (text : List Char)
  | node (head : List Char) (parts : List Sexpr)

namespace Sexpr

mutual

def chars : Sexpr → List Char
  | word text => text
  | quoted text => '"' :: text ++ ['"']
  | node head parts => '(' :: head ++ spaced parts ++ [')']

def spaced : List Sexpr → List Char
  | [] => []
  | f :: rest => ' ' :: f.chars ++ spaced rest

end

def isMark (c : Char) : Bool := c == ' ' || c == '\n' || c == '(' || c == ')' || c == '"'

inductive Legible : Sexpr → Prop
  | word {text : List Char} (some : text ≠ []) (plain : text.any isMark = false) :
      Legible (.word text)
  | quoted {text : List Char} (closed : '"' ∉ text) : Legible (.quoted text)
  | node {head : List Char} {parts : List Sexpr} (plain : head.any isMark = false)
      (legible : ∀ f ∈ parts, Legible f) : Legible (.node head parts)

def Stops (text : List Char) : Prop := ∀ c ∈ text.head?, isMark c = true

theorem stops_cons {c : Char} (hc : isMark c = true) (rest : List Char) : Stops (c :: rest) := by
  simpa [Stops] using hc

variable {u v : List Char}

/-- Words end where a mark follows. -/
theorem word_append_inj {w x : List Char} (hw : w.any isMark = false) (hx : x.any isMark = false)
    (hu : Stops u) (hv : Stops v) (h : w ++ u = x ++ v) : w = x ∧ u = v := by
  have front {w u : List Char} (hw : w.any isMark = false) (hu : Stops u) :
      (w ++ u).takeWhile (!isMark ·) = w := by
    have nothing : u.takeWhile (!isMark ·) = [] := by
      cases u with
      | nil => rfl
      | cons c u => simp [hu c rfl]
    rw [List.takeWhile_append_of_pos (by simpa using hw), nothing, List.append_nil]
  have same := congrArg (List.takeWhile (!isMark ·)) h
  rw [front hw hu, front hx hv] at same
  subst same
  exact ⟨rfl, List.append_cancel_left h⟩

/-- A quoted text ends at the next quote. -/
theorem quoted_append_inj {w x : List Char} (hw : '"' ∉ w) (hx : '"' ∉ x)
    (h : w ++ '"' :: u = x ++ '"' :: v) : w = x ∧ u = v := by
  have front {w : List Char} (hw : '"' ∉ w) (u : List Char) :
      (w ++ '"' :: u).takeWhile (· != '"') = w := by
    have inside : ∀ c ∈ w, (c != '"') = true := by simpa using List.forall_mem_ne'.2 hw
    rw [List.takeWhile_append_of_pos inside, List.takeWhile_cons_of_neg (by simp), List.append_nil]
  have same := congrArg (List.takeWhile (· != '"')) h
  rw [front hw, front hx] at same
  subst same
  exact ⟨rfl, (List.cons.inj (List.append_cancel_left h)).2⟩

theorem stops_spaced (parts : List Sexpr) (rest : List Char) :
    Stops (spaced parts ++ ')' :: rest) := by
  cases parts with
  | nil => exact stops_cons (by decide) rest
  | cons f parts => exact stops_cons (by decide) _

/-- S-expressions up to a closing parenthesis are read back if each of them is. -/
theorem spaced_append_inj {parts others : List Sexpr}
    (each : ∀ f ∈ parts, ∀ g : Sexpr, g.Legible → ∀ u v, Stops u → Stops v →
      f.chars ++ u = g.chars ++ v → f = g ∧ u = v)
    (legible : ∀ g ∈ others, g.Legible)
    (h : spaced parts ++ ')' :: u = spaced others ++ ')' :: v) : parts = others ∧ u = v := by
  induction parts generalizing others with
  | nil =>
      cases others with
      | nil => exact ⟨rfl, (List.cons.inj h).2⟩
      | cons g others => simp [spaced] at h
  | cons f parts ih =>
      cases others with
      | nil => simp [spaced] at h
      | cons g others =>
          obtain ⟨first, later⟩ := List.forall_mem_cons.1 each
          obtain ⟨hg, hgs⟩ := List.forall_mem_cons.1 legible
          simp only [spaced, List.cons_append, List.append_assoc, List.cons.injEq, true_and] at h
          obtain ⟨rfl, rest⟩ :=
            first g hg _ _ (stops_spaced parts u) (stops_spaced others v) h
          obtain ⟨rfl, rfl⟩ := ih later hgs rest
          exact ⟨rfl, rfl⟩

/-- An S-expression is read back from its text, wherever that ends. -/
theorem Legible.chars_append_inj {f : Sexpr} (hf : f.Legible) : ∀ g : Sexpr, g.Legible →
    ∀ u v, Stops u → Stops v → f.chars ++ u = g.chars ++ v → f = g ∧ u = v := by
  induction hf with
  | @word w some plain =>
      intro g hg u v hu hv h
      obtain ⟨c, rest, rfl⟩ := List.exists_cons_of_ne_nil some
      have first : isMark c = false := (Bool.or_eq_false_iff.1 plain).1
      cases hg with
      | word some' plain' =>
          obtain ⟨rfl, rfl⟩ := word_append_inj plain plain' hu hv h
          exact ⟨rfl, rfl⟩
      | quoted | node =>
          obtain ⟨rfl, -⟩ := List.cons.inj h
          cases first
  | @quoted w closed =>
      intro g hg u v hu hv h
      cases hg with
      | @word x some plain =>
          obtain ⟨c, rest, rfl⟩ := List.exists_cons_of_ne_nil some
          obtain ⟨rfl, -⟩ := List.cons.inj h
          cases plain
      | @quoted x closed' =>
          simp only [chars, List.cons_append, List.append_assoc, List.nil_append, List.cons.injEq,
            true_and] at h
          obtain ⟨rfl, rfl⟩ := quoted_append_inj closed closed' h
          exact ⟨rfl, rfl⟩
      | node => simp [chars] at h
  | @node head parts plain legible ih =>
      intro g hg u v hu hv h
      cases hg with
      | @word x some plain =>
          obtain ⟨c, rest, rfl⟩ := List.exists_cons_of_ne_nil some
          obtain ⟨rfl, -⟩ := List.cons.inj h
          cases plain
      | quoted => simp [chars] at h
      | @node head' parts' plain' legible' =>
          simp only [chars, List.cons_append, List.append_assoc, List.nil_append, List.cons.injEq,
            true_and] at h
          obtain ⟨rfl, rest⟩ := word_append_inj plain plain' (stops_spaced parts u)
            (stops_spaced parts' v) h
          obtain ⟨rfl, rfl⟩ := spaced_append_inj ih legible' rest
          exact ⟨rfl, rfl⟩

def lines (all : List Sexpr) : List Char := all.flatMap fun f => f.chars ++ ['\n']

/-- S-expressions are read back from their lines. -/
theorem lines_inj {all others : List Sexpr} (hf : ∀ f ∈ all, f.Legible)
    (hg : ∀ g ∈ others, g.Legible) (h : lines all = lines others) : all = others := by
  induction all generalizing others with
  | nil =>
      cases others with
      | nil => rfl
      | cons g others => simp [lines] at h
  | cons f all ih =>
      cases others with
      | nil => simp [lines] at h
      | cons g others =>
          obtain ⟨first, hfs⟩ := List.forall_mem_cons.1 hf
          obtain ⟨first', hgs⟩ := List.forall_mem_cons.1 hg
          simp only [lines, List.flatMap_cons, List.append_assoc] at h
          obtain ⟨rfl, rest⟩ := first.chars_append_inj g first' _ _ (stops_cons (by decide) _)
            (stops_cons (by decide) _) h
          rw [ih hfs hgs (List.cons.inj rest).2]

end Sexpr

end Lox
