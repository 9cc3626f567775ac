import Mathlib.Data.List.Chain
import KeyChart.Text.Search

/-!
Marks of two characters in joined texts. Main statement: a mark that stands in none of the pieces of a
text and across none of their borders does not stand in the text (`not_holds_flatMap`).
-/

namespace KeyChart
namespace Text

variable {a b : Char} {t u v : Text}

theorem not_holds_of_not_mem_left (h : a ∉ t) : ¬ Holds [a, b] t := by
  intro hholds
  obtain ⟨x, y, rfl⟩ := hholds
  simp at h

theorem not_holds_of_not_mem_right (h : b ∉ t) : ¬ Holds [a, b] t := by
  intro hholds
  obtain ⟨x, y, rfl⟩ := hholds
  simp at h

theorem Holds.append_left {mark : Text} (h : Holds mark v) (u : Text) : Holds mark (u ++ v) := by
  obtain ⟨x, y, rfl⟩ := h
  exact ⟨u ++ x, y, by simp⟩

theorem Holds.append_right {mark : Text} (h : Holds mark u) (v : Text) : Holds mark (u ++ v) := by
  obtain ⟨x, y, rfl⟩ := h
  exact ⟨x, y ++ v, by simp⟩

theorem Holds.of_isInfix {mark : Text} (h : Holds mark u) (hu : u <:+: t) : Holds mark t := by
  obtain ⟨x, y, rfl⟩ := hu
  exact (h.append_left x).append_right y

theorem isSome_beforeLast?_iff {mark : Text} : (beforeLast? mark t).isSome = true ↔ Holds mark t := by
  refine ⟨fun h => ?_, beforeLast?_isSome_of_holds⟩
  obtain ⟨x, hx⟩ := Option.isSome_iff_exists.1 h
  exact ⟨x, eq_append_of_beforeLast? hx⟩

instance (mark t : Text) : Decidable (Holds mark t) :=
  decidable_of_iff _ isSome_beforeLast?_iff

/-- A mark in a joined text stands in one of the parts or across their border. -/
theorem holds_pair_append_iff :
    Holds [a, b] (u ++ v) ↔
      Holds [a, b] u ∨ Holds [a, b] v ∨ (u.getLast? = some a ∧ v.head? = some b) := by
  constructor
  · intro h
    obtain ⟨x, y, hxy⟩ := h
    have hsplit : u ++ v = (x ++ [a]) ++ (b :: y) := by simpa using hxy
    rcases List.append_eq_append_iff.1 hsplit with ⟨r, hx, hv⟩ | ⟨r, hu, hy⟩
    · rcases List.eq_nil_or_concat r with rfl | ⟨r, c, rfl⟩
      · right; right
        rw [List.append_nil] at hx
        exact ⟨by simp [← hx], by simp [hv]⟩
      · -- the first character of the mark is the last one of `r`
        right; left
        rw [List.concat_eq_append, ← List.append_assoc] at hx
        obtain ⟨-, hc⟩ := List.append_inj' hx rfl
        obtain rfl := List.cons.inj hc |>.1
        exact ⟨r, y, by simpa using hv⟩
    · cases r with
      | nil =>
        right; right
        rw [List.append_nil] at hu
        rw [List.nil_append] at hy
        exact ⟨by simp [hu], by simp [← hy]⟩
      | cons d r =>
        left
        rw [List.cons_append] at hy
        obtain ⟨rfl, -⟩ := List.cons.inj hy
        exact ⟨x, r, by simpa using hu⟩
  · rintro (h | h | ⟨hu, hv⟩)
    · exact h.append_right v
    · exact h.append_left u
    · obtain ⟨x, rfl⟩ := List.getLast?_eq_some_iff.1 hu
      obtain ⟨y, rfl⟩ := List.head?_eq_some_iff.1 hv
      exact ⟨x, y, by simp⟩

/-- A front part without the first character of a mark takes no part in it. -/
theorem holds_append_iff_of_not_mem_left (h : a ∉ u) :
    Holds [a, b] (u ++ v) ↔ Holds [a, b] v := by
  rw [holds_pair_append_iff, or_iff_right (not_holds_of_not_mem_left h), or_iff_left]
  rintro ⟨hlast, -⟩
  exact h (List.mem_of_getLast? hlast)

/-- An end part without the second one takes no part in it either. -/
theorem holds_append_iff_of_not_mem_right (h : b ∉ v) :
    Holds [a, b] (u ++ v) ↔ Holds [a, b] u := by
  rw [holds_pair_append_iff, or_iff_left]
  rintro (hholds | ⟨-, hhead⟩)
  · exact not_holds_of_not_mem_right h hholds
  · exact h (List.mem_of_mem_head? hhead)

theorem not_holds_flatMap {α : Type} {f : α → Text} {xs : List α} (hne : ∀ x, f x ≠ [])
    (hin : ∀ x, ¬ Holds [a, b] (f x))
    (hborder : xs.IsChain fun x y => ¬ ((f x).getLast? = some a ∧ (f y).head? = some b)) :
    ¬ Holds [a, b] (xs.flatMap f) := by
  induction xs with
  | nil => exact not_holds_of_not_mem_left List.not_mem_nil
  | cons x xs ih =>
    rw [List.isChain_cons] at hborder
    rw [List.flatMap_cons, holds_pair_append_iff]
    rintro (h | h | ⟨hlast, hhead⟩)
    · exact hin x h
    · exact ih hborder.2 h
    · cases xs with
      | nil => simp at hhead
      | cons y ys =>
        rw [List.flatMap_cons, List.head?_append_of_ne_nil _ (hne y)] at hhead
        exact hborder.1 y rfl ⟨hlast, hhead⟩

end Text
end KeyChart
