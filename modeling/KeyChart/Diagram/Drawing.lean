import KeyChart.Diagram.Cell
import KeyChart.Diagram.Template
import KeyChart.Keycode.Label

/-!
The comment that shows a layer: its name and the keyboard with a label in every cell.
-/

namespace KeyChart
namespace Diagram

def Mark.draw (label : Fin keyCount → Text) : Mark → Text
  | .ink c => [c]
  | .key index => centre (label index)

/-- The comment of a layer, from its opening to its end, without a newline after it. -/
def draw (name : Text) (label : Fin keyCount → Text) : Text :=
  "/* ".toList ++ name ++ template.flatMap (Mark.draw label)

/-- The labels of a table's keys, in table order. -/
def labels (tokens : List Text) : List Text := tokens.map Keycode.abbreviate

/-- The comment of a layer with these keys; a table of another size than the keyboard's has none. -/
def draw? (name : Text) (tokens : List Text) : Option Text :=
  if h : tokens.length = keyCount then
    some (draw name fun index => Keycode.abbreviate (tokens.get (index.cast h.symm)))
  else none

theorem draw?_eq_none_iff {name : Text} {tokens : List Text} :
    draw? name tokens = none ↔ tokens.length ≠ keyCount := by
  unfold draw?
  split <;> simp_all

end Diagram
end KeyChart
