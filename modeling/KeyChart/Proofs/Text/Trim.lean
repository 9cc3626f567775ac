import Mathlib.Data.List.TakeWhile
import KeyChart.Proofs.Text.Cuts

/-!
Trimming a text with blanks around it. Main statements: blanks around a text change nothing once it is
trimmed (`trim_blank_append_blank`), trimming leaves nothing of a blank text only (`trim_eq_nil_iff`), and a
text without blanks at its ends stays as it is (`trim_eq_self`).
-/

namespace KeyChart
namespace Text

theorem trimStart_eq_self {t : Text} (h : ∀ c ∈ t.head?, isBlank c = false) : trimStart t = t := by
  cases t with
  | nil => rfl
  | cons c t =>
    rw [trimStart, List.dropWhile_cons_of_neg]
    rw [h c rfl]
    decide

theorem trim_eq_self {t : Text} (hhead : ∀ c ∈ t.head?, isBlank c = false)
    (hlast : ∀ c ∈ t.getLast?, isBlank c = false) : trim t = t := by
  have hend := trimEnd_append_blank (w := []) (fun c hc => absurd hc List.not_mem_nil) hlast
  rw [List.append_nil] at hend
  rw [trim, trimStart_eq_self hhead, hend]

/-! ## Blank texts -/

theorem trimStart_eq_nil_iff {t : Text} : trimStart t = [] ↔ IsBlank t :=
  List.dropWhile_eq_nil_iff

theorem trim_eq_nil_iff {t : Text} : trim t = [] ↔ IsBlank t := by
  constructor
  · intro h
    obtain ⟨v, w, hv, hw, ht⟩ := exists_blank_trim t
    rw [h, List.append_nil] at ht
    intro c hc
    rw [ht, List.mem_append] at hc
    exact hc.elim (hv c) (hw c)
  · intro h
    rw [trim, trimStart_eq_nil_iff.2 h]
    rfl

theorem not_isBlank_of_mem {t : Text} {c : Char} (hc : c ∈ t) (h : isBlank c = false) :
    ¬ IsBlank t := by
  intro ht
  have hblank := ht c hc
  rw [h] at hblank
  cases hblank

/-! ## Blanks around a text -/

theorem trimStart_blank_append {v : Text} (hv : IsBlank v) (t : Text) :
    trimStart (v ++ t) = trimStart t :=
  List.dropWhile_append_of_pos hv

theorem trimEnd_append_of_blank (t : Text) {w : Text} (hw : IsBlank w) :
    trimEnd (t ++ w) = trimEnd t := by
  have hw' : IsBlank w.reverse := fun c hc => hw c (List.mem_reverse.1 hc)
  rw [trimEnd, List.reverse_append, trimStart_blank_append hw', trimEnd]

theorem trim_blank_append_blank {v w : Text} (hv : IsBlank v) (t : Text) (hw : IsBlank w) :
    trim (v ++ t ++ w) = trim t := by
  rw [List.append_assoc, trim, trimStart_blank_append hv]
  by_cases ht : IsBlank t
  · -- then nothing is left of either text
    have htw : IsBlank (t ++ w) := fun c hc => (List.mem_append.1 hc).elim (ht c) (hw c)
    rw [trimStart_eq_nil_iff.2 htw, trim_eq_nil_iff.2 ht]
    rfl
  · have hne : (trimStart t).isEmpty = false := by
      rw [List.isEmpty_eq_false_iff]
      exact fun hnil => ht (trimStart_eq_nil_iff.1 hnil)
    have hstart : trimStart (t ++ w) = trimStart t ++ w := by
      unfold trimStart at hne ⊢
      rw [List.dropWhile_append, if_neg (by simp [hne])]
    rw [hstart, trimEnd_append_of_blank _ hw, trim]

end Text
end KeyChart
