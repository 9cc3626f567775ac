import KeyChart.Text.Offset
import KeyChart.Text.Lines
import KeyChart.Text.Search

/-!
Cuts of one text compared. Main statements: of two front parts of a text the one with fewer bytes is
a front part of the other (`exists_append_of_byteSize_le`), a text with blanks at its end is trimmed
back to where they begin (`trimEnd_append_blank`), and no mark stands behind the last one
(`not_holds_of_beforeLast?`).
-/

namespace KeyChart
namespace Text

/-- The bytes of a span. -/
def within (s : Span) (t : Text) : Text := takeBytes (s.stop - s.start) (dropBytes s.start t)

theorem byteSize_pos {t : Text} (h : t ≠ []) : 0 < byteSize t := by
  cases t with
  | nil => exact absurd rfl h
  | cons c t =>
    have hc := Char.utf8Size_pos c
    rw [byteSize]
    omega

theorem within_append (u v w : Text) :
    within ⟨byteSize u, byteSize u + byteSize v⟩ (u ++ (v ++ w)) = v := by
  rw [within, dropBytes_append, Nat.add_sub_cancel_left, takeBytes_append]

/-! ## Front parts of one text -/

theorem exists_append_of_byteSize_le {u v x y : Text} (h : u ++ x = v ++ y)
    (hle : byteSize v ≤ byteSize u) : ∃ r, u = v ++ r ∧ y = r ++ x := by
  rcases List.append_eq_append_iff.1 h with ⟨r, hv, hx⟩ | ⟨r, hu, hy⟩
  · -- then `v` is the longer one, so by its size nothing is left over
    rw [hv, byteSize_append] at hle
    by_cases hr : r = []
    · subst hr
      exact ⟨[], by simpa using hv.symm, by simpa using hx.symm⟩
    · have hpos := byteSize_pos hr
      omega
  · exact ⟨r, hu, hy⟩

/-! ## Blanks at the end -/

theorem trimEnd_append_blank {u w : Text} (hw : IsBlank w)
    (hu : ∀ c ∈ u.getLast?, isBlank c = false) : trimEnd (u ++ w) = u := by
  have hstop : ∀ c ∈ u.reverse.head?, isBlank c = false := by
    rw [List.head?_reverse]
    exact hu
  have hw' : ∀ c ∈ w.reverse, isBlank c = true := fun c hc => hw c (List.mem_reverse.1 hc)
  rw [trimEnd, trimStart, List.reverse_append, (takeWhile_append_stop hw' hstop).2,
    List.reverse_reverse]

/-! ## Marks -/

theorem not_holds_of_beforeLast? {mark t u v : Text} (hm : mark ≠ [])
    (h : beforeLast? mark t = some u) (ht : t = u ++ mark ++ v) : ¬ Holds mark v := by
  intro hholds
  obtain ⟨a, b, hv⟩ := hholds
  have hlen := length_le_of_beforeLast? h (show t = (u ++ mark ++ a) ++ mark ++ b by
    rw [ht, hv]
    simp)
  have hpos := List.length_pos_iff.2 hm
  simp only [List.length_append] at hlen
  omega

/-! ## Lines of a text in two parts -/

theorem nextLines_append_of_mem {u : Text} (h : '\n' ∈ u) (v : Text) :
    nextLines (u ++ v) = nextLines u ++ v := by
  induction u with
  | nil => cases h
  | cons c u ih =>
    by_cases hc : c = '\n'
    · simp [nextLines, hc]
    · rcases List.mem_cons.1 h with heq | hmem
      · exact absurd heq.symm hc
      · simp [nextLines, hc, ih hmem]

theorem nextLines_append_of_not_mem {u : Text} (h : '\n' ∉ u) (v : Text) :
    nextLines (u ++ v) = nextLines v := by
  induction u with
  | nil => rfl
  | cons c u ih =>
    have hc : c ≠ '\n' := fun heq => h (heq ▸ List.mem_cons_self)
    simp [nextLines, hc, ih fun hm => h (List.mem_cons_of_mem c hm)]

theorem lineRest_append_of_mem {u : Text} (h : '\n' ∈ u) (v : Text) :
    lineRest (u ++ v) = lineRest u := by
  have h₁ := lineRest_append_nextLines (u ++ v)
  have h₂ := lineRest_append_nextLines u
  rw [nextLines_append_of_mem h] at h₁
  have hsame : lineRest (u ++ v) ++ (nextLines u ++ v) = lineRest u ++ (nextLines u ++ v) := by
    rw [h₁, ← List.append_assoc, h₂]
  exact List.append_cancel_right hsame

theorem mem_lineRest_of_nextLines_ne_nil {t : Text} (h : nextLines t ≠ []) : '\n' ∈ lineRest t := by
  induction t with
  | nil => exact absurd rfl h
  | cons c t ih =>
    by_cases hc : c = '\n'
    · simp [lineRest, hc]
    · simp only [nextLines, if_neg hc] at h
      simp only [lineRest, if_neg hc]
      exact List.mem_cons_of_mem c (ih h)

theorem nextLines_lineRest_append {t : Text} (h : '\n' ∈ lineRest t) (v : Text) :
    nextLines (lineRest t ++ v) = v := by
  induction t with
  | nil => cases h
  | cons c t ih =>
    by_cases hc : c = '\n'
    · simp [lineRest, nextLines, hc]
    · simp only [lineRest, if_neg hc] at h ⊢
      rcases List.mem_cons.1 h with heq | hmem
      · exact absurd heq.symm hc
      · simp only [List.cons_append, nextLines, if_neg hc]
        exact ih hmem

end Text
end KeyChart
