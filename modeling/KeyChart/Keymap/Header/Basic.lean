import KeyChart.Text.Search

/-!
The header of a layer's declaration, `[NAME] = LAYOUT(` with blanks allowed at five gaps, all on
one line: its spelling, its reader, and the first one of a text.
-/

namespace KeyChart

/-- A header as it is written: the layer's name and the blanks at the gaps. -/
structure Header where
  name : Text
  beforeName : Text
  afterName : Text
  beforeSign : Text
  afterSign : Text
  beforeParen : Text
  deriving DecidableEq, Repr

namespace Header

/-- The word that opens a table. -/
def word : Text := "LAYOUT".toList

/-- A blank that may stand in a gap; a header does not go over the end of its line. -/
def isGap (c : Char) : Bool := Text.isBlank c && c != '\n'

/-- Names are made of ASCII digits, ASCII capitals and underscores. -/
def isNameChar (c : Char) : Bool := c.isDigit || c.isUpper || c == '_'

def spelled (h : Header) : Text :=
  '[' :: (h.beforeName ++ (h.name ++ (h.afterName ++
    (']' :: (h.beforeSign ++ ('=' :: (h.afterSign ++ (word ++ (h.beforeParen ++ ['('])))))))))

/-- The header that is written for a layer: one space on either side of the sign. -/
def canonical (name : Text) : Header :=
  { name, beforeName := [], afterName := [], beforeSign := [' '], afterSign := [' '],
    beforeParen := [] }

def IsGap (t : Text) : Prop := ∀ c ∈ t, isGap c = true

def IsName (t : Text) : Prop := t ≠ [] ∧ ∀ c ∈ t, isNameChar c = true

structure WellFormed (h : Header) : Prop where
  name : IsName h.name
  beforeName : IsGap h.beforeName
  afterName : IsGap h.afterName
  beforeSign : IsGap h.beforeSign
  afterSign : IsGap h.afterSign
  beforeParen : IsGap h.beforeParen

/-- The header at the very start of a text, and the text after it. -/
def read? (t : Text) : Option (Header × Text) := do
  let t₁ ← Text.after? ['['] t
  let t₂ := t₁.dropWhile isGap
  let t₃ := t₂.dropWhile isNameChar
  let t₄ ← Text.after? [']'] (t₃.dropWhile isGap)
  let t₅ ← Text.after? ['='] (t₄.dropWhile isGap)
  let t₆ ← Text.after? word (t₅.dropWhile isGap)
  let rest ← Text.after? ['('] (t₆.dropWhile isGap)
  if t₂.takeWhile isNameChar = [] then none
  else some ({
    name := t₂.takeWhile isNameChar
    beforeName := t₁.takeWhile isGap
    afterName := t₃.takeWhile isGap
    beforeSign := t₄.takeWhile isGap
    afterSign := t₅.takeWhile isGap
    beforeParen := t₆.takeWhile isGap }, rest)

/-- The leftmost header of a text, between what comes before it and what comes after it. -/
def first? : Text → Option (Text × Header × Text)
  | [] => none
  | c :: t =>
    match read? (c :: t) with
    | some (h, rest) => some ([], h, rest)
    | none => (first? t).map fun found => (c :: found.1, found.2)

end Header
end KeyChart
