import KeyChart.Diagram.Drawing
import KeyChart.Keymap.Declaration

/-!
The layers of a source: name, keys and place of every declaration whose table holds a key.
-/

namespace KeyChart

/-- A layer as it is declared; lines count from zero, and the span is that of the header. -/
structure Layer where
  name : Text
  tokens : List Text
  line : Nat
  declaration : Text.Span
  deriving DecidableEq, Repr

namespace Layer

def keyCount (l : Layer) : Nat := l.tokens.length

/-- The layer has a key for each physical one. -/
def isRenderable (l : Layer) : Bool := l.keyCount = Diagram.keyCount

/-- The header that is written for the layer. -/
def header (l : Layer) : Text := (Header.canonical l.name).spelled

def labels (l : Layer) : List Text := Diagram.labels l.tokens

def diagram? (l : Layer) : Option Text := Diagram.draw? l.name l.tokens

end Layer

/-- The layer of a declaration whose text starts at byte `start` of a text with these lines. -/
def Declaration.layer (d : Declaration) (lineStarts : Array Nat) (start : Nat) : Layer where
  name := d.header.name
  tokens := d.table.tokens
  line := Text.lineAt lineStarts (d.headerSpan start).start
  declaration := d.headerSpan start

namespace Keymap

/-- A layer for each declaration of a text, empty tables included. -/
def declared (t : Text) : List Layer :=
  let lineStarts := Text.lineStarts t
  (placed 0 (read t).declarations).map fun p => p.2.layer lineStarts p.1

/-- The layers of a text, in order. -/
def layers (t : Text) : List Layer := (declared t).filter fun l => l.tokens ≠ []

end Keymap
end KeyChart
