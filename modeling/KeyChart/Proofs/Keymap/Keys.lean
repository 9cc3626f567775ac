import KeyChart.Proofs.Keymap.Pieces
import KeyChart.Proofs.Keymap.Placement

/-!
The keys of the layers of a text. Main statement: every key is trimmed and not empty, holds no comment, no
closing parenthesis without its opening one and no comma outside parentheses, and all its parentheses match
unless it is the last key of a table that is never closed (`layers_tokens`).
-/

namespace KeyChart

open Text Header

theorem layers_tokens {t : Text} {l : Layer} (h : l ∈ Keymap.layers t) :
    (∀ token ∈ l.tokens, IsTokenFront token) ∧
    ∀ front token back, l.tokens = front ++ token :: back →
      back ≠ [] ∨ (l.table t).closed = true → Text.Balanced token := by
  have htokens := (isPlaced_of_mem_layers h).tokens
  refine ⟨fun token htoken => ?_, fun front token back hsplit hend => ?_⟩
  · rw [htokens] at htoken
    exact Table.isTokenFront_of_mem htoken
  · rw [htokens] at hsplit
    exact Table.balanced_of_tokens_eq hsplit hend

/-! ## A table that is never closed -/

namespace Sample

/-- A comma in a comment, and a last key whose closing parenthesis is one of a comment. -/
def broken : Visit where
  gap := []
  header := Header.canonical ['A']
  table := ⟨"K/*,*/, M(1,\nN // )".toList, [['K'], "M(1,\nN".toList], false⟩

theorem visits_broken : Keymap.visits broken.text = [broken] := by
  have wf := wellFormed_canonical (isName_singleton (c := 'A') rfl)
  have hall : Visits .lineStart (broken.text ++ []) [broken] :=
    .visit (show Bare [] from bare_nil) wf (by decide) (.none bare_nil)
  rw [List.append_nil] at hall
  exact hall.eq_visits

theorem layers_broken : Keymap.layers broken.text = [broken.placed []] := by
  rw [Keymap.layers, declared_eq_map_placed, visits_broken]
  decide

end Sample

theorem layers_tokens_sample : ∃ l ∈ Keymap.layers Sample.broken.text,
    l.tokens = [['K'], "M(1,\nN".toList] ∧ (l.table Sample.broken.text).closed = false ∧
    IsTokenFront ['K'] ∧ Text.Balanced ['K'] ∧
    IsTokenFront "M(1,\nN".toList ∧ ¬ Text.Balanced "M(1,\nN".toList := by
  have hmem : Sample.broken.placed [] ∈ Keymap.layers Sample.broken.text := by
    rw [Sample.layers_broken]
    exact List.mem_singleton_self _
  obtain ⟨hfront, hbalanced⟩ := layers_tokens hmem
  refine ⟨_, hmem, rfl, by decide, hfront _ List.mem_cons_self, ?_, ?_, by decide⟩
  · exact hbalanced [] ['K'] ["M(1,\nN".toList] rfl (Or.inl (List.cons_ne_nil _ _))
  · exact hfront _ (List.mem_cons_of_mem _ List.mem_cons_self)

end KeyChart
