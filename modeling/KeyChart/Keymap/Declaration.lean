import KeyChart.Keymap.Header.Lemmas
import KeyChart.Keymap.Table
import KeyChart.Text.Lines

/-!
A keymap source as its declarations, each with the text in front of it. A line counts for its first
header only, and the line on which a table ends is passed over.
-/

namespace KeyChart

/-- One declaration of a layer: the text in front of it, from the start of a line, its header, its
table, and the rest of the line that the table ends on. -/
structure Declaration where
  lead : Text
  header : Header
  table : Table
  trail : Text
  deriving DecidableEq, Repr

/-- The declarations of a source, and the text in which there is none. -/
structure Keymap where
  declarations : List Declaration
  tail : Text
  deriving DecidableEq, Repr

namespace Declaration

def text (d : Declaration) : Text := d.lead ++ d.header.spelled ++ d.table.text ++ d.trail

/-- The header's bytes, for a declaration whose text starts at byte `start`. -/
def headerSpan (d : Declaration) (start : Nat) : Text.Span where
  start := start + Text.byteSize d.lead
  stop := start + Text.byteSize d.lead + Text.byteSize d.header.spelled

/-- The bytes of header and table. -/
def extent (d : Declaration) (start : Nat) : Text.Span where
  start := (d.headerSpan start).start
  stop := (d.headerSpan start).stop + Text.byteSize d.table.text

end Declaration

namespace Keymap

/-- The source that a text is. -/
def read (t : Text) : Keymap :=
  match _hfirst : Header.first? t with
  | none => ⟨[], t⟩
  | some (lead, header, rest) =>
    let table := Table.read rest
    let later := read (Text.nextLines table.2)
    ⟨⟨lead, header, table.1, Text.lineRest table.2⟩ :: later.declarations, later.tail⟩
termination_by t.length
decreasing_by
  have h₁ := Header.length_lt_of_first? _hfirst
  have h₂ := Table.length_rest_le rest
  have h₃ := Text.length_nextLines_le (Table.read rest).2
  omega

/-- Each declaration with the byte at which its text starts. -/
def placed (start : Nat) : List Declaration → List (Nat × Declaration)
  | [] => []
  | d :: ds => (start, d) :: placed (start + Text.byteSize d.text) ds

end Keymap
end KeyChart
