import KeyChart.Text.Blank

/-!
The cell of one key: a label cut to the cell's width and centred in it. Main statement: every cell
has the same width (`length_centre`).
-/

namespace KeyChart
namespace Diagram

/-- Characters in a cell. -/
def cellWidth : Nat := 7

def spaces (n : Nat) : Text := List.replicate n ' '

/-- The part of a label that a cell has room for. -/
def clip (label : Text) : Text := label.take cellWidth

/-- Spaces left over by a label. -/
def padding (label : Text) : Nat := cellWidth - (clip label).length

/-- The label in its cell; of an odd number of spaces the last goes to the right. -/
def centre (label : Text) : Text :=
  spaces (padding label / 2) ++ clip label ++ spaces (padding label - padding label / 2)

/-! ## Width -/

theorem length_clip_le (label : Text) : (clip label).length ≤ cellWidth := by
  unfold clip
  rw [List.length_take]
  exact Nat.min_le_left _ _

theorem length_centre (label : Text) : (centre label).length = cellWidth := by
  have h := length_clip_le label
  simp only [centre, spaces, padding, List.length_append, List.length_replicate]
  omega

end Diagram
end KeyChart
