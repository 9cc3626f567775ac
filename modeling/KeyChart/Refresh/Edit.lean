import KeyChart.Text.Offset

/-!
Edits of a text: spans of its bytes, in order, and what replaces each. Spans are places in the text
as it was, so no edit moves another one. Main statement: a splice writes the gaps and the
replacements in turn (`splice_cons_append`).
-/

namespace KeyChart

/-- What is to stand in place of a span. -/
structure Edit where
  span : Text.Span
  replacement : Text
  deriving DecidableEq, Repr

namespace Edit

/-- Applies edits of a text to what is left of it from byte `start` on. -/
def spliceFrom (start : Nat) : List Edit → Text → Text
  | [], t => t
  | e :: es, t =>
    Text.takeBytes (e.span.start - start) t ++ e.replacement ++
      spliceFrom e.span.stop es (Text.dropBytes (e.span.stop - start) t)

/-- Applies edits whose spans are in order and do not overlap, in one pass. -/
def splice (edits : List Edit) (t : Text) : Text := spliceFrom 0 edits t

theorem splice_cons_append (gap old new rest : Text) (es : List Edit) (start : Nat) :
    spliceFrom start
      (⟨⟨start + Text.byteSize gap, start + Text.byteSize (gap ++ old)⟩, new⟩ :: es)
      (gap ++ old ++ rest) =
    gap ++ new ++ spliceFrom (start + Text.byteSize (gap ++ old)) es rest := by
  rw [spliceFrom, Nat.add_sub_cancel_left, Nat.add_sub_cancel_left, Text.dropBytes_append,
    List.append_assoc gap old rest, Text.takeBytes_append]

end Edit
end KeyChart
