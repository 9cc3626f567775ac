/-!
Text is a list of characters, and blank characters are those of the Unicode property White_Space.
Main statements: trimming loses blank characters only (`exists_blank_append_trimEnd`,
`exists_blank_trim`), and what is left neither starts nor ends with one (`not_blank_head_trim`,
`not_blank_last_trim`).
-/

namespace KeyChart

abbrev Text := List Char

namespace Text

/-- First and last code point of each run of blank characters, in order. -/
def blankRuns : List (Nat × Nat) :=
  [(0x0009, 0x000D), (0x0020, 0x0020), (0x0085, 0x0085), (0x00A0, 0x00A0), (0x1680, 0x1680),
   (0x2000, 0x200A), (0x2028, 0x2029), (0x202F, 0x202F), (0x205F, 0x205F), (0x3000, 0x3000)]

def isBlank (c : Char) : Bool :=
  blankRuns.any fun run => run.1 ≤ c.toNat && c.toNat ≤ run.2

def trimStart (t : Text) : Text := t.dropWhile isBlank

def trimEnd (t : Text) : Text := (trimStart t.reverse).reverse

def trim (t : Text) : Text := trimEnd (trimStart t)

/-- All characters are blank; the empty text is one such. -/
def IsBlank (t : Text) : Prop := ∀ c ∈ t, isBlank c = true

instance (t : Text) : Decidable (IsBlank t) := inferInstanceAs (Decidable (∀ c ∈ t, _))

theorem isBlank_singleton {c : Char} (h : isBlank c = true) : IsBlank [c] := by
  intro d hd
  rwa [List.mem_singleton.1 hd]

/-! ## What trimming leaves and what it loses -/

theorem exists_blank_append_trimStart (t : Text) : ∃ w, IsBlank w ∧ t = w ++ trimStart t := by
  refine ⟨t.takeWhile isBlank, ?_, (List.takeWhile_append_dropWhile).symm⟩
  intro c hc
  exact List.all_eq_true.1 List.all_takeWhile c hc

theorem exists_blank_append_trimEnd (t : Text) : ∃ w, IsBlank w ∧ t = trimEnd t ++ w := by
  obtain ⟨w, hw, h⟩ := exists_blank_append_trimStart t.reverse
  refine ⟨w.reverse, fun c hc => hw c (by simpa using hc), ?_⟩
  have h' := congrArg List.reverse h
  simpa [trimEnd] using h'

theorem exists_blank_trim (t : Text) : ∃ v w, IsBlank v ∧ IsBlank w ∧ t = v ++ trim t ++ w := by
  obtain ⟨v, hv, h⟩ := exists_blank_append_trimStart t
  obtain ⟨w, hw, h'⟩ := exists_blank_append_trimEnd (trimStart t)
  exact ⟨v, w, hv, hw, by rw [List.append_assoc, trim, ← h']; exact h⟩

theorem length_trim_le (t : Text) : (trim t).length ≤ t.length := by
  obtain ⟨v, w, _, _, ht⟩ := exists_blank_trim t
  have hlength := congrArg List.length ht
  simp only [List.length_append] at hlength
  omega

theorem not_blank_head_trimStart (t : Text) : ∀ c ∈ (trimStart t).head?, isBlank c = false := by
  induction t with
  | nil => intro c hc; cases hc
  | cons d t ih =>
    intro c hc
    by_cases hd : isBlank d = true
    · exact ih c (by rwa [trimStart, List.dropWhile_cons_of_pos hd] at hc)
    · rw [trimStart, List.dropWhile_cons_of_neg hd] at hc
      cases hc
      simpa using hd

theorem not_blank_last_trimEnd (t : Text) : ∀ c ∈ (trimEnd t).getLast?, isBlank c = false := by
  rw [trimEnd, List.getLast?_reverse]
  exact not_blank_head_trimStart t.reverse

theorem not_blank_last_trim (t : Text) : ∀ c ∈ (trim t).getLast?, isBlank c = false :=
  not_blank_last_trimEnd (trimStart t)

theorem not_blank_head_trim (t : Text) : ∀ c ∈ (trim t).head?, isBlank c = false := by
  intro c hc
  obtain ⟨w, _, h⟩ := exists_blank_append_trimEnd (trimStart t)
  apply not_blank_head_trimStart t c
  rw [h, List.head?_append, show (trimEnd (trimStart t)).head? = some c from hc]
  rfl

end Text
end KeyChart
