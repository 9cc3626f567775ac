import KeyChart.Text.Offset

/-!
Lines of a text. A newline belongs to the line that it ends, and one that ends the text opens no
further line. The table of line starts is in bytes, and a binary search in it tells the line of a
byte.
-/

namespace KeyChart
namespace Text

/-- Number of newlines. -/
def newlines (t : Text) : Nat := t.count '\n'

/-- The rest of the line that the text starts in, its newline included. -/
def lineRest : Text → Text
  | [] => []
  | c :: t => if c = '\n' then [c] else c :: lineRest t

/-- The lines after the one that the text starts in. -/
def nextLines : Text → Text
  | [] => []
  | c :: t => if c = '\n' then t else nextLines t

/-- Starts of the lines after the first, for a text that itself starts at byte `start`. -/
def laterLineStarts : Nat → Text → List Nat
  | _, [] => []
  | _, [_] => []
  | start, c :: d :: t =>
    if c = '\n' then (start + c.utf8Size) :: laterLineStarts (start + c.utf8Size) (d :: t)
    else laterLineStarts (start + c.utf8Size) (d :: t)

/-- The byte at which each line starts; the empty text has one line. -/
def lineStarts (t : Text) : Array Nat := (0 :: laterLineStarts 0 t).toArray

/-- Number of entries of an increasing table that are at most `offset`, given that the first `lo`
are and that none from `hi` on is. -/
def countUpTo (table : Array Nat) (offset lo hi : Nat) (h : hi ≤ table.size) : Nat :=
  if hlt : lo < hi then
    have hmid : (lo + hi) / 2 < table.size := by omega
    if table[(lo + hi) / 2] ≤ offset then
      countUpTo table offset ((lo + hi) / 2 + 1) hi h
    else
      countUpTo table offset lo ((lo + hi) / 2) (by omega)
  else lo
termination_by hi - lo

/-- The line that holds byte `offset`, counted from zero. -/
def lineAt (starts : Array Nat) (offset : Nat) : Nat :=
  countUpTo starts offset 0 starts.size (Nat.le_refl _) - 1

/-! ## The rest of a line -/

theorem lineRest_append_nextLines (t : Text) : lineRest t ++ nextLines t = t := by
  induction t with
  | nil => rfl
  | cons c t ih =>
    by_cases h : c = '\n'
    · simp [lineRest, nextLines, h]
    · simp [lineRest, nextLines, h, ih]

theorem length_nextLines_le (t : Text) : (nextLines t).length ≤ t.length := by
  have h := congrArg List.length (lineRest_append_nextLines t)
  rw [List.length_append] at h
  omega

end Text
end KeyChart
