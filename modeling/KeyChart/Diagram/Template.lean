import KeyChart.Text.Blank

/-!
The drawing of a split keyboard with fifty-eight keys: two blocks of six columns and four rows, an
inner key beside each block on the separator above its last row, and four thumb keys a hand. A
template is a list of marks, ink that is always there and the places of keys.
-/

namespace KeyChart
namespace Diagram

/-- Physical keys of the keyboard. -/
abbrev keyCount : Nat := 58

/-- One piece of the drawing: a character that is always there, or the cell of a key. -/
inductive Mark
  | ink (c : Char)
  | key (index : Fin keyCount)
  deriving DecidableEq, Repr

/-- The drawing line by line; a number sign stands for a cell. -/
def rows : List String := [
  ",-----------------------------------------------.                    ,-----------------------------------------------.",
  "|#|#|#|#|#|#|                    |#|#|#|#|#|#|",
  "|-------+-------+-------+-------+-------+-------|                    |-------+-------+-------+-------+-------+-------|",
  "|#|#|#|#|#|#|                    |#|#|#|#|#|#|",
  "|-------+-------+-------+-------+-------+-------|                    |-------+-------+-------+-------+-------+-------|",
  "|#|#|#|#|#|#|-------.    ,-------|#|#|#|#|#|#|",
  "|-------+-------+-------+-------+-------+-------|#|    |#|-------+-------+-------+-------+-------+-------|",
  "|#|#|#|#|#|#|-------|    |-------|#|#|#|#|#|#|",
  "`-----------------------------------------------/       /    \\       \\-----------------------------------------------'",
  "                        |#|#|#| /#/\\#\\ |#|#|#|",
  "                        |       |       |       |/       /  \\       \\|       |       |       |",
  "                        `-----------------------'--------'  '--------'-----------------------'"]

/-- The keys in the order of their cells, top to bottom and left to right. A table lists the two
inner keys (42 and 43) in the middle of its fourth row; the drawing has them above that row. -/
def slotOrder : List (Fin keyCount) := [
  0, 1, 2, 3, 4, 5, 6, 7, 8, 9, 10, 11,
  12, 13, 14, 15, 16, 17, 18, 19, 20, 21, 22, 23,
  24, 25, 26, 27, 28, 29, 30, 31, 32, 33, 34, 35,
  42, 43,
  36, 37, 38, 39, 40, 41, 44, 45, 46, 47, 48, 49,
  50, 51, 52, 53, 54, 55, 56, 57]

/-- Gives each number sign of a text the next of the keys. -/
def markUp : List (Fin keyCount) → Text → List Mark
  | _, [] => []
  | key :: keys, '#' :: t => .key key :: markUp keys t
  | keys, c :: t => .ink c :: markUp keys t

/-- What follows a layer's name in its comment: the drawing, each row behind a star, and the end of
the comment. -/
def frame : Text :=
  (rows.flatMap fun row => "\n * ".toList ++ row.toList) ++ "\n */".toList

def template : List Mark := markUp slotOrder frame

end Diagram
end KeyChart
