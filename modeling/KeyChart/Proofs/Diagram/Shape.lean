import KeyChart.Diagram.Drawing
import KeyChart.Proofs.Keymap.Bare
import KeyChart.Refresh.Comment

/-!
The shape of a drawing, whatever its labels are. Main statements: a drawing is one comment opening,
some text and one end mark (`exists_draw_eq`), and no header stands in it (`bare_draw`): a cell is too
narrow for one, and the ink behind each cell is no part of any.
-/

namespace KeyChart
namespace Diagram

open Header Comment

/-- Every cell is followed by ink that no header has, and no ink opens a header. -/
def isFenced : List Mark → Bool
  | [] => true
  | .ink c :: marks => c != '[' && isFenced marks
  | [.key _] => false
  | .key _ :: .key _ :: _ => false
  | .key _ :: .ink c :: marks => !hasChar c && isFenced (.ink c :: marks)

theorem isFenced_template : isFenced template = true := by
  simp only [template, frame, rows, List.flatMap_cons, List.flatMap_nil]
  -- the kernel is slow to read string literals, so they are spelled out as lists first
  repeat rw [String.toList_ofList]
  decide +kernel

theorem bare_flatMap_draw (label : Fin keyCount → Text) {marks : List Mark}
    (h : isFenced marks = true) : Bare (marks.flatMap (Mark.draw label)) := by
  fun_induction isFenced marks with
  | case1 => exact bare_nil
  | case2 c marks ih =>
    rw [Bool.and_eq_true, bne_iff_ne] at h
    exact (ih h.2).cons h.1
  | case3 => cases h
  | case4 => cases h
  | case5 index c marks ih =>
    rw [Bool.and_eq_true, Bool.not_eq_true'] at h
    have hcell : Bare (centre (label index)) := by
      apply bare_of_length_lt
      rw [length_centre]
      decide
    exact hcell.append_stop (ih h.2) h.1

theorem bare_draw {name : Text} (hname : IsName name) (label : Fin keyCount → Text) :
    Bare (draw name label) := by
  have hopen : '[' ∉ "/* ".toList ++ name := by
    intro hm
    rcases List.mem_append.1 hm with hm | hm
    · revert hm
      decide
    · have hb := hname.2 _ hm
      revert hb
      decide
  exact (bare_flatMap_draw label isFenced_template).append_left hopen

/-! ## Opening and end -/

theorem exists_markUp_append {v : Text} (hv : '#' ∉ v) (keys : List (Fin keyCount)) (t : Text) :
    ∃ marks, markUp keys (t ++ v) = marks ++ v.map Mark.ink := by
  -- without a number sign there is no cell, whatever keys are left
  have plain : ∀ keys, markUp keys v = v.map Mark.ink := by
    intro keys
    induction v generalizing keys with
    | nil => cases keys <;> rfl
    | cons c v ih =>
      rw [List.mem_cons, not_or] at hv
      rw [markUp, ih hv.2, List.map_cons]
      intro key keys' _ hc
      exact absurd hc.symm hv.1
  fun_induction markUp keys t with
  | case1 keys => exact ⟨[], plain keys⟩
  | case2 key keys t ih =>
    obtain ⟨marks, h⟩ := ih
    exact ⟨.key key :: marks, by rw [List.cons_append, markUp, h, List.cons_append]⟩
  | case3 keys c t hc ih =>
    obtain ⟨marks, h⟩ := ih
    refine ⟨.ink c :: marks, ?_⟩
    rw [List.cons_append, markUp, h, List.cons_append]
    exact hc

theorem exists_draw_eq (name : Text) (label : Fin keyCount → Text) :
    ∃ v, draw name label = openMark ++ v ++ endMark := by
  obtain ⟨marks, hmarks⟩ := exists_markUp_append (v := "\n */".toList) (by decide) slotOrder
    (rows.flatMap fun row => "\n * ".toList ++ row.toList)
  refine ⟨' ' :: (name ++ marks.flatMap (Mark.draw label) ++ "\n ".toList), ?_⟩
  rw [draw, template, frame, hmarks, List.flatMap_append]
  simp [openMark, endMark, Mark.draw]

/-- A comment opens at the start of the text and nowhere else in it. -/
def OpensOnlyAtStart (t : Text) : Prop := ∀ u v, t = u ++ openMark ++ v → u = []

theorem opensOnlyAtStart_of_beforeLast? {t : Text} (h : Text.beforeLast? openMark t = some []) :
    OpensOnlyAtStart t := by
  intro u v ht
  have hlen := Text.length_le_of_beforeLast? h ht
  exact List.length_eq_zero_iff.1 (Nat.le_zero.1 hlen)

theorem not_holds_of_opensOnlyAtStart {v : Text} (h : OpensOnlyAtStart (openMark ++ v ++ endMark)) :
    ¬ Text.Holds openMark v := by
  intro hholds
  obtain ⟨a, b, hv⟩ := hholds
  have hnil := h (openMark ++ a) (b ++ endMark) (by rw [hv]; simp only [List.append_assoc])
  cases hnil

/-- The labels that a table's keys have in the drawing of its layer. -/
def keyLabel (tokens : List Text) (index : Fin keyCount) : Text :=
  Keycode.abbreviate (tokens.getD index [])

theorem draw?_of_length {name : Text} {tokens : List Text} (h : tokens.length = keyCount) :
    draw? name tokens = some (draw name (keyLabel tokens)) := by
  rw [draw?, dif_pos h]
  congr 2
  funext index
  rw [keyLabel, List.getD_eq_getElem?_getD, List.getElem?_eq_getElem (by rw [h]; exact index.isLt)]
  rfl

end Diagram
end KeyChart
