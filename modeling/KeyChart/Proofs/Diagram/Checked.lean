import KeyChart.Proofs.Diagram.Cells
import KeyChart.Proofs.Text.Slices

/-!
A drawing that takes its labels from a list and stops without a result as soon as a label or a slot for
a number sign is missing or a cell is too narrow for the spaces it is short of. Main statement: it never
stops early, and draws what the drawing of the layer is (`Checked.draw_eq`).
-/

namespace KeyChart
namespace Checked

open Text Diagram

/-- A label in its cell. -/
def centre (label : Text) : Option Text := do
  let padding ← sub? cellWidth (clip label).length
  let right ← sub? padding (padding / 2)
  some (spaces (padding / 2) ++ clip label ++ spaces right)

/-- A text with the label of the next key in place of each number sign. -/
def fill (labels : List Text) : List Nat → Text → Option Text
  | _, [] => some []
  | keys, c :: t =>
    if c = '#' then do
      let key ← keys.head?
      let label ← labels[key]?
      let cell ← centre label
      let rest ← fill labels keys.tail t
      some (cell ++ rest)
    else (fill labels keys t).map (c :: ·)

/-- The comment of a layer, if it has as many keys as the keyboard. -/
def draw (name : Text) (tokens : List Text) : Option (Option Text) :=
  if tokens.length = keyCount then
    (fill (Diagram.labels tokens) (slotOrder.map Fin.val) frame).map fun drawing =>
      some ("/* ".toList ++ name ++ drawing)
  else some none

theorem centre_eq (label : Text) : centre label = some (Diagram.centre label) := by
  have hclip : sub? cellWidth (clip label).length = some (padding label) :=
    sub?_of_le (length_clip_le label)
  have hhalf := sub?_of_le (Nat.div_le_self (padding label) 2)
  simp only [centre, hclip, hhalf, Option.bind_eq_bind, Option.bind_some]
  rfl

/-- A text with no more number signs than there are keys is filled, if the keys have labels. -/
theorem fill_eq {labels : List Text} {label : Fin keyCount → Text}
    (hlabel : ∀ key : Fin keyCount, labels[key.val]? = some (label key)) (start : Nat)
    {keys : List (Fin keyCount)} {t : Text} (h : (slots start t).length ≤ keys.length) :
    fill labels (keys.map Fin.val) t = some ((markUp keys t).flatMap (Mark.draw label)) := by
  fun_induction markUp keys t generalizing start with
  | case1 keys => rfl
  | case2 key keys t ih =>
    rw [slots, if_pos rfl] at h
    have hrest := ih _ (Nat.le_of_succ_le_succ h)
    simp only [fill, List.map_cons, List.head?_cons, List.tail_cons, Option.bind_eq_bind,
      Option.bind_some, hlabel, centre_eq, hrest]
    rfl
  | case3 keys c t hc ih =>
    have hsign := ne_sign_of_slots h hc
    rw [slots, if_neg hsign] at h
    rw [fill, if_neg hsign, ih _ h]
    rfl

theorem draw_eq (name : Text) (tokens : List Text) :
    draw name tokens = some (draw? name tokens) := by
  by_cases hcount : tokens.length = keyCount
  · have hlabel : ∀ key : Fin keyCount,
        (Diagram.labels tokens)[key.val]? = some (keyLabel tokens key) := by
      intro key
      have hkey : key.val < tokens.length := by rw [hcount]; exact key.isLt
      rw [Diagram.labels, List.getElem?_map, keyLabel, List.getD_eq_getElem?_getD,
        List.getElem?_eq_getElem hkey]
      rfl
    have hslots : (slots 0 frame).length ≤ slotOrder.length :=
      Nat.le_of_eq (length_slots_frame.trans length_slotOrder.symm)
    rw [draw, if_pos hcount, fill_eq hlabel 0 hslots, draw?_of_length hcount]
    rfl
  · rw [draw, if_neg hcount, draw?_eq_none_iff.2 hcount]

end Checked
end KeyChart
