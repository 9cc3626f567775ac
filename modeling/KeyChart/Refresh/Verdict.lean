import KeyChart.Keymap.Layer
import KeyChart.Refresh.Comment
import KeyChart.Refresh.Edit

/-!
What a refresh does with each layer of a text. A layer with a key for each physical one, a comment
right above it and no overlap with the last edit is updated: its comment, through the opening of its
table, gives way to a new diagram and a canonical header. Any other layer is skipped for a reason.
Main statement: the layers judged are the layers given, in order (`map_layer_judge`).
-/

namespace KeyChart

/-- Why a layer is left as it is. -/
inductive SkipReason
  | keyCount (found : Nat)
  | missingComment
  | overlap
  deriving DecidableEq, Repr

namespace SkipReason

def message : SkipReason → String
  | keyCount found => s!"expected {Diagram.keyCount} keycodes, found {found}"
  | missingComment => "no comment block above the declaration"
  | overlap => "comment block overlaps a previous layer"

end SkipReason

inductive Verdict
  | updated (layer : Layer) (edit : Edit)
  | skipped (layer : Layer) (reason : SkipReason)
  deriving DecidableEq, Repr

namespace Verdict

def layer : Verdict → Layer
  | updated l _ => l
  | skipped l _ => l

def edit? : Verdict → Option Edit
  | updated _ e => some e
  | skipped _ _ => none

def reason? : Verdict → Option SkipReason
  | updated _ _ => none
  | skipped _ r => some r

end Verdict

namespace Layer

/-- The edit that refreshes a layer of a text, or why there is none. -/
def edit (l : Layer) (t : Text) : Except SkipReason Edit :=
  match l.diagram?, Comment.beforeComment? (Text.takeBytes l.declaration.start t) with
  | none, _ => .error (.keyCount l.keyCount)
  | some _, none => .error .missingComment
  | some diagram, some before =>
    .ok ⟨⟨Text.byteSize before, l.declaration.stop⟩, diagram ++ '\n' :: l.header⟩

end Layer

namespace Verdict

/-- Judges layers in order; an edit may not start before byte `free`, where the last one ended. -/
def judge (t : Text) (free : Nat) : List Layer → List Verdict
  | [] => []
  | l :: ls =>
    match l.edit t with
    | .error reason => skipped l reason :: judge t free ls
    | .ok e =>
      if e.span.start < free then skipped l .overlap :: judge t free ls
      else updated l e :: judge t e.span.stop ls

theorem map_layer_judge (t : Text) (free : Nat) (ls : List Layer) :
    (judge t free ls).map layer = ls := by
  induction ls generalizing free with
  | nil => rfl
  | cons l ls ih =>
    simp only [judge]
    split
    · rw [List.map_cons, ih]; rfl
    · split
      · rw [List.map_cons, ih]; rfl
      · rw [List.map_cons, ih]; rfl

end Verdict
end KeyChart
