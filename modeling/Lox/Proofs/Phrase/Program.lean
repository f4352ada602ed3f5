import Lox.Proofs.Phrase.Completeness
import Lox.Proofs.Phrase.Soundness

/-!
Programs without a fault: a list of tokens is read as a program without a fault exactly when it is
made of wordings, one after the other, and then the statements are those that are worded.
-/

namespace Lox

def Program.Wording (tokens : List Token) (body : List Stmt) : Prop :=
  ∃ parts : List (List Token × Stmt × Bool), tokens = parts.flatMap (·.1) ∧
    body = parts.map (·.2.1) ∧ ∀ q ∈ parts, Stmt.Wording q.1 q.2.1 q.2.2

namespace Program

theorem not_eof_of_mem_body {tokens : List Token} {t : Token} (h : t ∈ body tokens) :
    t.kind ≠ .eof := by
  simpa using List.all_eq_true.1 List.all_takeWhile t h

section

variable {front : List Token} {mark : Token} (regular : ∀ t ∈ front, t.kind ≠ .eof)
  (hm : mark.kind = .eof)

include regular hm

theorem body_append_eof : body (front ++ [mark]) = front := by
  rw [body, List.takeWhile_append_of_pos (by simpa using regular)]
  simp [hm]

theorem lineOfEnd_append_eof : lineOfEnd (front ++ [mark]) = mark.line := by
  have absent : front.find? (·.kind == .eof) = none := by simpa using regular
  simp [lineOfEnd, List.find?_append, absent, hm]

end

theorem rest_nil (tokens : List Token) :
    (Reader.declarations (Reader.declaration Reader.statement) .eof (body tokens)).rest = [] := by
  have takes := Reader.takes_declaration Reader.takes_statement
  have suffix :=
    Reader.declarationsWithin_rest takes .eof (body tokens).length [] [] (body tokens)
  have closes := Reader.declarations_rest takes
    (Reader.advances_declaration Reader.advances_statement) .eof (body tokens)
  cases hr : (Reader.declarations (Reader.declaration Reader.statement) .eof
      (body tokens)).rest with
  | nil => rfl
  | cons t rest =>
      have mem : t ∈ body tokens := by
        apply suffix.subset
        show t ∈ (Reader.declarations _ _ _).rest
        simp [hr]
      exact absurd (closes t (by simp [hr])) (not_eof_of_mem_body mem)

theorem wording_of_faults_nil {tokens : List Token} (h : (ofTokens tokens).faults = []) :
    Wording (body tokens) (ofTokens tokens).statements := by
  obtain ⟨parts, ht, hs, hw⟩ := Reader.sound_declarations Reader.sound_statement h
  rw [rest_nil, List.append_nil] at ht
  exact ⟨parts, ht, hs, hw⟩

theorem ofTokens_of_wording {tokens : List Token} {statements : List Stmt}
    (h : Wording (body tokens) statements) :
    ofTokens tokens = ⟨statements, [], lineOfEnd tokens⟩ := by
  obtain ⟨parts, ht, rfl, hw⟩ := h
  have read := Reader.complete_declarations .eof rfl (by decide) (by decide) [] (by simp) hw
    fun q hq => Reader.complete_stmt (hw q hq)
  rw [List.append_nil, ← ht] at read
  simp [ofTokens, read]

end Program
end Lox
