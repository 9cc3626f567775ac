import KeyChart.Text.Blank

/-!
Places in a text, counted in bytes of its UTF-8 form. Main statements: a text cut at the size of
one of its front parts falls into that part and the rest (`takeBytes_append`, `dropBytes_append`),
and every cut loses nothing (`takeBytes_append_dropBytes`).
-/

namespace KeyChart
namespace Text

/-- Number of bytes of the UTF-8 form. -/
def byteSize : Text → Nat
  | [] => 0
  | c :: t => c.utf8Size + byteSize t

/-- The characters that start before byte `n`. -/
def takeBytes : Nat → Text → Text
  | _, [] => []
  | n, c :: t => if n = 0 then [] else c :: takeBytes (n - c.utf8Size) t

/-- The characters that start at byte `n` or later. -/
def dropBytes : Nat → Text → Text
  | _, [] => []
  | n, c :: t => if n = 0 then c :: t else dropBytes (n - c.utf8Size) t

/-- The bytes from `start` on, up to and without `stop`. -/
structure Span where
  start : Nat
  stop : Nat
  deriving DecidableEq, Repr

/-- Byte `n` lies between two characters of the text or at one of its ends. -/
def IsBoundary (t : Text) (n : Nat) : Prop := ∃ u v, t = u ++ v ∧ byteSize u = n

/-- The front part of `t` that is left once `rest`, an end part of it, is taken off. -/
def upTo (rest t : Text) : Text := t.take (t.length - rest.length)

/-! ## Sizes and cuts -/

@[simp] theorem byteSize_append (u v : Text) : byteSize (u ++ v) = byteSize u + byteSize v := by
  induction u with
  | nil => simp [byteSize]
  | cons c u ih => simp [byteSize, ih, Nat.add_assoc]

theorem takeBytes_append_dropBytes (n : Nat) (t : Text) :
    takeBytes n t ++ dropBytes n t = t := by
  induction t generalizing n with
  | nil => rfl
  | cons c t ih =>
    simp only [takeBytes, dropBytes]
    split
    · rfl
    · rw [List.cons_append, ih]

@[simp] theorem takeBytes_append (u v : Text) : takeBytes (byteSize u) (u ++ v) = u := by
  induction u with
  | nil => cases v <;> simp [byteSize, takeBytes]
  | cons c u ih =>
    have hpos := Char.utf8Size_pos c
    rw [byteSize, List.cons_append, takeBytes, if_neg (by omega), Nat.add_sub_cancel_left, ih]

@[simp] theorem dropBytes_append (u v : Text) : dropBytes (byteSize u) (u ++ v) = v := by
  have h := takeBytes_append_dropBytes (byteSize u) (u ++ v)
  rw [takeBytes_append] at h
  exact List.append_cancel_left h

@[simp] theorem upTo_append (u v : Text) : upTo v (u ++ v) = u := by
  simp [upTo]

end Text
end KeyChart
