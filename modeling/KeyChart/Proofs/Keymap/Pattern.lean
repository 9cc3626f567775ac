import KeyChart.Keymap.Declaration

/-!
Headers by the pattern `\[\s*(_?[0-9A-Z_]+)\s*\]\s*=\s*LAYOUT\s*\(`, which allows every blank at its
gaps. The pattern is matched against one line at a time, and a newline stands at the end of a line only,
where no gap of a match is. Main statement: on a line the pattern finds the header that is found without
newlines at the gaps (`firstWith?_isBlank_lineRest`).
-/

namespace KeyChart
namespace Header

open Text

/-- The header at the very start of a text, with any characters of a class at the gaps. -/
def readWith? (gap : Char → Bool) (t : Text) : Option (Header × Text) := do
  let t₁ ← after? ['['] t
  let t₂ := t₁.dropWhile gap
  let t₃ := t₂.dropWhile isNameChar
  let t₄ ← after? [']'] (t₃.dropWhile gap)
  let t₅ ← after? ['='] (t₄.dropWhile gap)
  let t₆ ← after? word (t₅.dropWhile gap)
  let rest ← after? ['('] (t₆.dropWhile gap)
  if t₂.takeWhile isNameChar = [] then none
  else some ({
    name := t₂.takeWhile isNameChar
    beforeName := t₁.takeWhile gap
    afterName := t₃.takeWhile gap
    beforeSign := t₄.takeWhile gap
    afterSign := t₅.takeWhile gap
    beforeParen := t₆.takeWhile gap }, rest)

/-- The leftmost header of a text, with any characters of a class at the gaps. -/
def firstWith? (gap : Char → Bool) : Text → Option (Text × Header × Text)
  | [] => none
  | c :: t =>
    match readWith? gap (c :: t) with
    | some (h, rest) => some ([], h, rest)
    | none => (firstWith? gap t).map fun found => (c :: found.1, found.2)

theorem readWith?_isGap : readWith? isGap = read? := rfl

/-! ## Texts of one line -/

/-- A newline stands at the end of the text, if anywhere. -/
def InLine (t : Text) : Prop := ∀ u v, t = u ++ '\n' :: v → v = []

theorem InLine.of_append {u v : Text} (h : InLine (u ++ v)) : InLine v := by
  intro a b hb
  refine h (u ++ a) b ?_
  rw [hb, List.append_assoc]

theorem inLine_lineRest (t : Text) : InLine (lineRest t) := by
  induction t with
  | nil =>
    intro u v h
    simp [lineRest] at h
  | cons c t ih =>
    intro u v h
    rw [lineRest] at h
    split at h
    · cases u with
      | nil => exact (List.cons.inj h).2.symm
      | cons d u => simp at h
    · next hne =>
      cases u with
      | nil => exact absurd (List.cons.inj h).1 hne
      | cons d u => exact ih u v (List.cons.inj h).2

theorem InLine.of_dropWhile {t : Text} (h : InLine t) (p : Char → Bool) : InLine (t.dropWhile p) := by
  rw [← List.takeWhile_append_dropWhile (p := p) (l := t)] at h
  exact h.of_append

theorem InLine.of_after? {mark t rest : Text} (h : InLine t) (hafter : after? mark t = some rest) :
    InLine rest := by
  rw [after?_eq_some_iff.1 hafter] at h
  exact h.of_append

/-- Both classes take the same run of blanks, unless a newline ends the text behind it. -/
theorem InLine.run_cases {t : Text} (h : InLine t) :
    (t.dropWhile isBlank = [] ∧ t.dropWhile isGap = ['\n']) ∨
      (t.takeWhile isBlank = t.takeWhile isGap ∧ t.dropWhile isBlank = t.dropWhile isGap) := by
  induction t with
  | nil => exact Or.inr ⟨rfl, rfl⟩
  | cons c t ih =>
    by_cases hnewline : c = '\n'
    · subst hnewline
      rw [h [] t rfl]
      exact Or.inl (by decide)
    · have hsame : isGap c = isBlank c := by simp [isGap, hnewline]
      cases hblank : isBlank c with
      | false =>
        rw [hblank] at hsame
        simp [hblank, hsame]
      | true =>
        rw [hblank] at hsame
        simpa [hblank, hsame] using ih (InLine.of_append (u := [c]) h)

/-- Behind a run that a newline follows no mark stands. -/
theorem InLine.gap_cases {t : Text} (h : InLine t) {m : Char} (hm : m ≠ '\n') (mark : Text) :
    (after? (m :: mark) (t.dropWhile isBlank) = none ∧ after? (m :: mark) (t.dropWhile isGap) = none) ∨
      (t.takeWhile isBlank = t.takeWhile isGap ∧ t.dropWhile isBlank = t.dropWhile isGap) := by
  refine h.run_cases.imp_left ?_
  rintro ⟨hblank, hgap⟩
  rw [hblank, hgap]
  exact ⟨rfl, by rw [after?, if_neg hm]⟩

/-! ## The pattern on a line -/

theorem readWith?_isBlank {t : Text} (h : InLine t) : readWith? isBlank t = read? t := by
  rw [← readWith?_isGap, readWith?, readWith?]
  rcases h₁ : after? ['['] t with _ | t₁
  · rfl
  have hline₁ := h.of_after? h₁
  simp only [Option.bind_eq_bind, Option.bind_some]
  rcases hline₁.run_cases with ⟨hblank, hgap⟩ | ⟨htake, hdrop⟩
  · -- neither a name nor a bracket follows
    rw [hblank, hgap]
    rfl
  rw [htake, hdrop]
  have hline₃ := (hline₁.of_dropWhile isGap).of_dropWhile isNameChar
  rcases hline₃.gap_cases (show ']' ≠ '\n' by decide) [] with ⟨hblank, hgap⟩ | ⟨htake, hdrop⟩
  · rw [hblank, hgap]
    rfl
  rw [htake, hdrop]
  rcases h₄ : after? [']'] (((t₁.dropWhile isGap).dropWhile isNameChar).dropWhile isGap) with _ | t₄
  · rfl
  have hline₄ := (hline₃.of_dropWhile isGap).of_after? h₄
  simp only [Option.bind_some]
  rcases hline₄.gap_cases (show '=' ≠ '\n' by decide) [] with ⟨hblank, hgap⟩ | ⟨htake, hdrop⟩
  · rw [hblank, hgap]
    rfl
  rw [htake, hdrop]
  rcases h₅ : after? ['='] (t₄.dropWhile isGap) with _ | t₅
  · rfl
  have hline₅ := (hline₄.of_dropWhile isGap).of_after? h₅
  simp only [Option.bind_some]
  have hword : word = 'L' :: "AYOUT".toList := rfl
  rcases hline₅.gap_cases (show 'L' ≠ '\n' by decide) "AYOUT".toList with
    ⟨hblank, hgap⟩ | ⟨htake, hdrop⟩
  · rw [hword, hblank, hgap]
    rfl
  rw [htake, hdrop]
  rcases h₆ : after? word (t₅.dropWhile isGap) with _ | t₆
  · rfl
  have hline₆ := (hline₅.of_dropWhile isGap).of_after? h₆
  simp only [Option.bind_some]
  rcases hline₆.gap_cases (show '(' ≠ '\n' by decide) [] with ⟨hblank, hgap⟩ | ⟨htake, hdrop⟩
  · rw [hblank, hgap]
    rfl
  rw [htake, hdrop]

theorem firstWith?_isBlank {t : Text} (h : InLine t) : firstWith? isBlank t = first? t := by
  induction t with
  | nil => rfl
  | cons c t ih =>
    have hrest := ih (InLine.of_append (u := [c]) h)
    cases hread : read? (c :: t) with
    | none => rw [firstWith?, first?, readWith?_isBlank h, hread, hrest]
    | some found => rw [firstWith?, first?, readWith?_isBlank h, hread]

theorem firstWith?_isBlank_lineRest (t : Text) :
    firstWith? isBlank (lineRest t) = first? (lineRest t) :=
  firstWith?_isBlank (inLine_lineRest t)

/-- On more than a line the classes differ. -/
example : firstWith? isBlank "[A]\n=LAYOUT(".toList ≠ first? "[A]\n=LAYOUT(".toList := by decide

end Header
end KeyChart
