import KeyChart.Text.Offset

/-!
The table of a layer: the text from just after its opening parenthesis through the parenthesis that
closes it. Commas outside inner parentheses separate the pieces, and comments do not count. Main
statement: a table and the text after it are the whole text (`Table.text_append_rest`).
-/

namespace KeyChart

/-- Where a character of a table stands. -/
inductive Region
  | code
  | lineComment
  | blockComment
  deriving DecidableEq, Repr

/-- A table cut at its commas, comments left out: the piece up to the first comma and the further
ones. The rest follows the closing parenthesis; a table that is never closed has none. -/
structure Cut where
  piece : Text
  pieces : List Text
  rest : Option Text
  deriving DecidableEq, Repr

namespace Cut

/-- Puts a character in front of the first piece. -/
def push (c : Char) (cut : Cut) : Cut := { cut with piece := c :: cut.piece }

/-- Puts a comma in front of the first piece. -/
def comma (cut : Cut) : Cut := { cut with piece := [], pieces := cut.piece :: cut.pieces }

/-- The pieces that are not blank, without the blanks around them. -/
def tokens (cut : Cut) : List Text :=
  ((cut.piece :: cut.pieces).map Text.trim).filter fun token => token ≠ []

end Cut

/-- Cuts the table that a text starts in, inside `depth` inner parentheses. A line comment ends with
its line and a block comment with the first end mark after its opening; either may run to the end
of the text. -/
def Cut.scan : Region → Nat → Text → Cut
  | _, _, [] => ⟨[], [], none⟩
  | .lineComment, depth, c :: t =>
    if c = '\n' then scan .code depth t else scan .lineComment depth t
  | .blockComment, depth, '*' :: '/' :: t => scan .code depth t
  | .blockComment, depth, _ :: t => scan .blockComment depth t
  | .code, depth, '/' :: '/' :: t => scan .lineComment depth t
  | .code, depth, '/' :: '*' :: t => scan .blockComment depth t
  | .code, depth, '(' :: t => (scan .code (depth + 1) t).push '('
  | .code, 0, ')' :: t => ⟨[], [], some t⟩
  | .code, depth + 1, ')' :: t => (scan .code depth t).push ')'
  | .code, 0, ',' :: t => (scan .code 0 t).comma
  | .code, depth, c :: t => (scan .code depth t).push c

/-- A table as it is written, with its tokens; `closed` tells whether its parenthesis is there. -/
structure Table where
  text : Text
  tokens : List Text
  closed : Bool
  deriving DecidableEq, Repr

namespace Table

/-- The table that a text starts in, and the text after it. -/
def read (t : Text) : Table × Text :=
  let cut := Cut.scan .code 0 t
  let rest := cut.rest.getD []
  (⟨Text.upTo rest t, cut.tokens, cut.rest.isSome⟩, rest)

end Table

/-! ## What follows a table -/

@[simp] theorem Cut.rest_push (c : Char) (cut : Cut) : (cut.push c).rest = cut.rest := rfl

@[simp] theorem Cut.rest_comma (cut : Cut) : cut.comma.rest = cut.rest := rfl

/-- A cut with a rest ends in its parenthesis. -/
theorem Cut.eq_append_of_scan {region : Region} {depth : Nat} {t r : Text}
    (h : (Cut.scan region depth t).rest = some r) : ∃ u, t = u ++ ')' :: r := by
  have step : ∀ (c : Char) (t : Text), (∃ u, t = u ++ ')' :: r) → ∃ u, c :: t = u ++ ')' :: r := by
    intro c t ⟨u, hu⟩
    exact ⟨c :: u, by rw [hu, List.cons_append]⟩
  fun_induction Cut.scan region depth t with
  | case1 => cases h
  | case2 depth t ih => exact step _ _ (ih h)
  | case3 depth c t hc ih => exact step _ _ (ih h)
  | case4 depth t ih => exact step _ _ (step _ _ (ih h))
  | case5 depth c t hc ih => exact step _ _ (ih h)
  | case6 depth t ih => exact step _ _ (step _ _ (ih h))
  | case7 depth t ih => exact step _ _ (step _ _ (ih h))
  | case8 depth t ih => exact step _ _ (ih h)
  | case9 t => exact ⟨[], by cases h; rfl⟩
  | case10 depth t ih => exact step _ _ (ih h)
  | case11 t ih => exact step _ _ (ih h)
  | case12 depth c t _ _ _ _ _ _ ih => exact step _ _ (ih h)

theorem Table.text_append_rest (t : Text) : (read t).1.text ++ (read t).2 = t := by
  cases h : (Cut.scan .code 0 t).rest with
  | none => simp [read, h, Text.upTo]
  | some r =>
    obtain ⟨u, hu⟩ := Cut.eq_append_of_scan h
    simp only [read, h, Option.getD_some]
    rw [hu, List.append_cons, Text.upTo_append]

theorem Table.length_rest_le (t : Text) : (read t).2.length ≤ t.length := by
  have h := congrArg List.length (text_append_rest t)
  rw [List.length_append] at h
  omega

end KeyChart
