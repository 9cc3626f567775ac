import KeyChart.Proofs.Keycode.Parts

/-!
Stars in labels. Main statement: the label of a keycode without a star has none either, unless the
keycode is the star key in modifier wrappers, whose label is the letters of the modifiers with a plus
sign behind each, and a star (`abbreviate_cases`).
-/

namespace KeyChart
namespace Keycode

/-- The label of the star key in modifier wrappers. -/
inductive Starred : Text → Prop
  | star : Starred ['*']
  | modified {code : Char} {label : Text} (hstar : code ≠ '*') (hslash : code ≠ '/')
      (h : Starred label) : Starred (code :: '+' :: label)

theorem Starred.not_mem_slash {label : Text} (h : Starred label) : '/' ∉ label := by
  induction h with
  | star => decide
  | modified _ hslash _ ih =>
    rw [List.mem_cons, List.mem_cons, not_or, not_or]
    exact ⟨Ne.symm hslash, by decide, ih⟩

/-! ## The tables -/

theorem entries_starless : ∀ entry ∈ exactLabels ++ specialLabels,
    '*' ∉ entry.2.toList ∨ entry.2.toList = ['*'] := by decide

theorem modifierCodes_letter : ∀ entry ∈ modifierCodes,
    ∃ c, entry.2.toList = [c] ∧ c ≠ '*' ∧ c ≠ '/' := by
  simp only [modifierCodes, List.forall_mem_cons]
  exact ⟨⟨'C', by decide⟩, ⟨'C', by decide⟩, ⟨'S', by decide⟩, ⟨'S', by decide⟩, ⟨'A', by decide⟩,
    ⟨'A', by decide⟩, ⟨'G', by decide⟩, ⟨'G', by decide⟩, fun _ h => absurd h List.not_mem_nil⟩

theorem labelFronts_starless : ∀ front ∈ labelFronts, '*' ∉ front := by
  simp [labelFronts]

/-! ## Labels -/

/-- Only the table gives a label its star, and only modifiers put something in front of it. -/
theorem labelLaw_starless :
    LabelLaw (fun k => '*' ∉ k) fun label => '*' ∉ label ∨ Starred label where
  inside hk hpart hmem := hk (hpart.subset hmem)
  entry entry hentry := by
    rcases entries_starless entry hentry with hnone | hstar
    · exact Or.inl hnone
    · exact Or.inr (hstar ▸ .star)
  part front hfront part hpart := by
    rw [List.mem_append, not_or]
    exact Or.inl ⟨labelFronts_starless front hfront, hpart⟩
  cut part hpart := by
    rw [List.mem_append, not_or]
    exact Or.inl ⟨hpart, by decide⟩
  modified entry hentry label hlabel := by
    obtain ⟨c, hc, hstar, hslash⟩ := modifierCodes_letter entry hentry
    rw [hc, List.singleton_append]
    rcases hlabel with hnone | hstarred
    · left
      rw [List.mem_cons, List.mem_cons, not_or, not_or]
      exact ⟨Ne.symm hstar, by decide, hnone⟩
    · exact Or.inr (.modified hstar hslash hstarred)

theorem abbreviate_cases {k : Text} (hk : '*' ∉ k) : '*' ∉ abbreviate k ∨ Starred (abbreviate k) :=
  labelLaw_starless.abbreviate hk

end Keycode
end KeyChart
