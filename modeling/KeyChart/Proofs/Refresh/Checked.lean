import KeyChart.Proofs.Diagram.Checked
import KeyChart.Proofs.Keymap.Checked
import KeyChart.Proofs.Refresh.Classification

/-!
A refresh with every check made: it stops without a result as soon as a slice does not lie in the text
or cuts a character, a parenthesis is closed that is not open, a cell is too narrow, or a label or a slot
is missing. Main statement: it never stops early and comes to what the refresh comes to, and the edits
of a refresh do not overlap, are in order and are not empty (`refresh_checked`).
-/

namespace KeyChart

open Text Comment

/-! ## Edits in order -/

/-- The span is one of the text, is not empty and cuts no character. -/
structure Text.Span.IsIn (s : Span) (t : Text) : Prop where
  nonempty : s.start < s.stop
  inBounds : s.stop ≤ byteSize t
  boundaries : IsBoundary t s.start ∧ IsBoundary t s.stop

/-- The spans of edits are in a text from byte `cursor` on, each behind the one before. -/
def Edit.InOrder (t : Text) (cursor : Nat) : List Edit → Prop
  | [] => True
  | e :: es => cursor ≤ e.span.start ∧ e.span.IsIn t ∧ InOrder t e.span.stop es

/-- The span is one of the text, perhaps an empty one, and cuts no character. -/
structure Text.Span.IsWithin (s : Span) (t : Text) : Prop where
  le : s.start ≤ s.stop
  inBounds : s.stop ≤ byteSize t
  boundaries : IsBoundary t s.start ∧ IsBoundary t s.stop

theorem Text.Span.IsIn.isWithin {s : Span} {t : Text} (h : s.IsIn t) : s.IsWithin t :=
  ⟨Nat.le_of_lt h.nonempty, h.inBounds, h.boundaries⟩

/-- As edits in order, but with spans that may be empty. -/
def Edit.InSequence (t : Text) (cursor : Nat) : List Edit → Prop
  | [] => True
  | e :: es => cursor ≤ e.span.start ∧ e.span.IsWithin t ∧ InSequence t e.span.stop es

theorem Edit.InOrder.inSequence {t : Text} {cursor : Nat} {es : List Edit} (h : InOrder t cursor es) :
    InSequence t cursor es := by
  induction es generalizing cursor with
  | nil => trivial
  | cons e es ih =>
    obtain ⟨hle, hin, hlater⟩ := h
    exact ⟨hle, hin.isWithin, ih hlater⟩

theorem Edit.InOrder.le_start {t : Text} {cursor : Nat} {es : List Edit} (h : InOrder t cursor es)
    {e : Edit} (he : e ∈ es) : cursor ≤ e.span.start := by
  induction es generalizing cursor with
  | nil => cases he
  | cons d es ih =>
    obtain ⟨hle, hin, hlater⟩ := h
    rcases List.mem_cons.1 he with rfl | he
    · exact hle
    · have hstop := ih hlater he
      have hspan := hin.nonempty
      omega

theorem Edit.InOrder.pairwise {t : Text} {cursor : Nat} {es : List Edit} (h : InOrder t cursor es) :
    es.Pairwise fun e e' => e.span.stop ≤ e'.span.start := by
  induction es generalizing cursor with
  | nil => exact List.Pairwise.nil
  | cons d es ih =>
    obtain ⟨-, -, hlater⟩ := h
    exact List.Pairwise.cons (fun e he => hlater.le_start he) (ih hlater)

theorem Edit.InOrder.isIn {t : Text} {cursor : Nat} {es : List Edit} (h : InOrder t cursor es)
    {e : Edit} (he : e ∈ es) : e.span.IsIn t := by
  induction es generalizing cursor with
  | nil => cases he
  | cons d es ih =>
    obtain ⟨-, hin, hlater⟩ := h
    rcases List.mem_cons.1 he with rfl | he
    · exact hin
    · exact ih hlater he

/-- The edit of a layer replaces text up to the end of its header. -/
theorem Layer.IsPlaced.isIn_edit {t : Text} {l : Layer} {e : Edit} (h : l.IsPlaced t)
    (he : l.edit t = .ok e) : e.span.IsIn t := by
  obtain ⟨⟨x, y, ht, hx⟩, hstop⟩ := h.boundaries
  rcases l.edit_cases t with ⟨-, herror⟩ | ⟨-, -, herror⟩ | ⟨-, u, e', hu, hok, hspan⟩
  · rw [he] at herror
    cases herror
  · rw [he] at herror
    cases herror
  · rw [he] at hok
    cases hok
    have habove : l.above t = x := by rw [Layer.above, ht, ← hx, takeBytes_append]
    obtain ⟨v, w, hcomment, -⟩ := hu.1
    rw [habove, List.append_assoc, List.append_assoc, List.append_assoc] at hcomment
    have hstart : byteSize u ≤ l.declaration.start := by
      rw [← hx, hcomment, byteSize_append]
      exact Nat.le_add_right _ _
    rw [hspan]
    have hbefore : IsBoundary t (byteSize u) := by
      rw [ht, hcomment, List.append_assoc]
      exact ⟨u, _, rfl, rfl⟩
    exact ⟨Nat.lt_of_le_of_lt hstart h.nonempty, h.inBounds, hbefore, hstop⟩

/-- The accepted edits of layers that stand in a text are in order. -/
theorem Verdict.inOrder_judge {t : Text} {ls : List Layer} (h : ∀ l ∈ ls, l.IsPlaced t) (free : Nat) :
    Edit.InOrder t free ((judge t free ls).filterMap edit?) := by
  induction ls generalizing free with
  | nil => trivial
  | cons l ls ih =>
    have hlater := ih fun l' hl' => h l' (List.mem_cons_of_mem l hl')
    rw [judge]
    split
    · exact hlater free
    · next e he =>
      split
      · exact hlater free
      · next hfree =>
        exact ⟨Nat.le_of_not_lt hfree, (h l List.mem_cons_self).isIn_edit he, hlater e.span.stop⟩

/-! ## The refresh -/

namespace Checked

/-- The edit that refreshes a layer of a text, or why there is none. -/
def edit (l : Layer) (t : Text) : Option (Except SkipReason Edit) := do
  match ← draw l.name l.tokens with
  | none => some (.error (.keyCount l.keyCount))
  | some diagram =>
    match beforeComment? (← slice? ⟨0, l.declaration.start⟩ t) with
    | none => some (.error .missingComment)
    | some before =>
      some (.ok ⟨⟨byteSize before, l.declaration.stop⟩, diagram ++ '\n' :: l.header⟩)

/-- Judges layers in order; an edit may not start before byte `free`, where the last one ended. -/
def judge (t : Text) (free : Nat) : List Layer → Option (List Verdict)
  | [] => some []
  | l :: ls => do
    match ← edit l t with
    | .error reason => (judge t free ls).map (.skipped l reason :: ·)
    | .ok e =>
      if e.span.start < free then (judge t free ls).map (.skipped l .overlap :: ·)
      else (judge t e.span.stop ls).map (.updated l e :: ·)

/-- Writes a text from byte `cursor` on, with its edits made. -/
def splice (t : Text) (cursor : Nat) : List Edit → Option Text
  | [] => slice? ⟨cursor, byteSize t⟩ t
  | e :: es => do
    let gap ← slice? ⟨cursor, e.span.start⟩ t
    let later ← splice t e.span.stop es
    some (gap ++ e.replacement ++ later)

/-- Draws the diagrams of a text anew. -/
def refresh (t : Text) : Option (Except RefreshError Outcome) := do
  let found ← layers t
  if found = [] then some (.error .noLayers)
  else
    let verdicts ← judge t 0 found
    let content ← splice t 0 (verdicts.filterMap Verdict.edit?)
    some (.ok {
      content
      updated := verdicts.filterMap Verdict.updatedName?
      skipped := verdicts.filterMap Verdict.skipped? })

theorem edit_eq {t : Text} {l : Layer} (h : IsBoundary t l.declaration.start) :
    edit l t = some (l.edit t) := by
  obtain ⟨u, v, ht, hu⟩ := h
  have hslice : slice? ⟨0, l.declaration.start⟩ t = some (takeBytes l.declaration.start t) := by
    rw [ht, ← hu, slice?_zero_append, takeBytes_append]
  have hdraw : draw l.name l.tokens = some l.diagram? := draw_eq l.name l.tokens
  simp only [edit, hdraw, hslice, Option.bind_eq_bind, Option.bind_some, Layer.edit]
  cases l.diagram? with
  | none => rfl
  | some diagram => cases beforeComment? (takeBytes l.declaration.start t) <;> rfl

theorem judge_eq {t : Text} {ls : List Layer} (h : ∀ l ∈ ls, IsBoundary t l.declaration.start)
    (free : Nat) : judge t free ls = some (Verdict.judge t free ls) := by
  induction ls generalizing free with
  | nil => rfl
  | cons l ls ih =>
    have hlater := ih fun l' hl' => h l' (List.mem_cons_of_mem l hl')
    simp only [judge, edit_eq (h l List.mem_cons_self), Option.bind_eq_bind, Option.bind_some,
      Verdict.judge, hlater]
    cases l.edit t with
    | error reason => rfl
    | ok e =>
      dsimp only
      split <;> rfl

theorem splice_eq {t : Text} {cursor : Nat} {es : List Edit} (h : Edit.InSequence t cursor es)
    (hcursor : IsBoundary t cursor) :
    splice t cursor es = some (Edit.spliceFrom cursor es (dropBytes cursor t)) := by
  induction es generalizing cursor with
  | nil =>
    obtain ⟨u, v, rfl, rfl⟩ := hcursor
    rw [splice, slice?_append_byteSize, dropBytes_append, Edit.spliceFrom]
  | cons e es ih =>
    obtain ⟨hle, hin, hlater⟩ := h
    obtain ⟨hstart, hstop⟩ := hin.boundaries
    rw [splice, slice?_of_isBoundary hcursor hstart hle, ih hlater hstop, Edit.spliceFrom,
      dropBytes_sub hcursor (Nat.le_trans hle hin.le)]
    rfl

end Checked

theorem inOrder_verdicts (t : Text) : Edit.InOrder t 0 ((verdicts t).filterMap Verdict.edit?) :=
  Verdict.inOrder_judge (fun _ hl => isPlaced_of_mem_layers hl) 0

theorem Checked.refresh_eq (t : Text) : Checked.refresh t = some (KeyChart.refresh t) := by
  have hjudge : judge t 0 (Keymap.layers t) = some (verdicts t) :=
    judge_eq (fun _ hl => (isPlaced_of_mem_layers hl).boundaries.1) 0
  have hsplice := splice_eq (inOrder_verdicts t).inSequence ⟨[], t, rfl, rfl⟩
  have hwhole : dropBytes 0 t = t := dropBytes_append [] t
  rw [hwhole] at hsplice
  simp only [refresh, layers_eq, Option.bind_eq_bind, Option.bind_some, hjudge, hsplice,
    KeyChart.refresh]
  split <;> rfl

/-- No check of a refresh fails, and its edits stand in order, apart from each other and not empty. -/
theorem refresh_checked (t : Text) : Checked.refresh t = some (refresh t) ∧
    ((verdicts t).filterMap Verdict.edit?).Pairwise (fun e e' => e.span.stop ≤ e'.span.start) ∧
    ∀ e ∈ (verdicts t).filterMap Verdict.edit?, e.span.start < e.span.stop := by
  have horder := inOrder_verdicts t
  exact ⟨Checked.refresh_eq t, horder.pairwise, fun e he => (horder.isIn he).nonempty⟩

/-- A splice of edits that are not in order stops. -/
example : Checked.splice ['a', 'b', 'c'] 0 [⟨⟨2, 3⟩, []⟩, ⟨⟨0, 1⟩, []⟩] = none := by decide

end KeyChart
