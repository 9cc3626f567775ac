import Mathlib.Algebra.GroupWithZero.Nat
import KeyChart.Proofs.Diagram.Cells
import KeyChart.Proofs.Keymap.Placement

/-!
The lines of a diagram. A cell shows every character of a label that it has room for, newlines among them,
and each such newline breaks the line of the cell (`length_lines_draw`). Without them the lines are those of
the template (`lines_draw`). Main statement: the grid of a layer is aligned exactly if no cell of it
shows a newline (`layers_isAligned_iff`).
-/

namespace KeyChart

namespace Text

/-- The lines of a text without their newlines; a newline at the end opens one more. -/
def lines (t : Text) : List Text := t.splitOn '\n'

theorem lines_append_of_not_mem {u : Text} (h : '\n' ∉ u) (v : Text) :
    lines (u ++ v) = (lines v).modifyHead (u ++ ·) := by
  induction u with
  | nil => cases hv : lines v <;> simp [hv]
  | cons c u ih =>
    rw [List.mem_cons, not_or] at h
    have hc : (c == '\n') = false := by simpa using Ne.symm h.1
    rw [List.cons_append, lines, List.splitOn_eq_splitOnP, List.splitOnP_cons_eq_if_modifyHead, hc,
      ← List.splitOn_eq_splitOnP, ← lines, ih h.2, List.modifyHead_modifyHead]
    rfl

theorem lines_newline_append (t : Text) : lines ('\n' :: t) = [] :: lines t := by
  rw [lines, List.splitOn_eq_splitOnP, List.splitOnP_cons_eq_if_modifyHead]
  rfl

theorem length_lines (t : Text) : (lines t).length = newlines t + 1 := by
  induction t with
  | nil => rfl
  | cons c t ih =>
    by_cases hc : c = '\n'
    · rw [hc, lines_newline_append, List.length_cons, ih, newlines_cons_newline]
    · have h := lines_append_of_not_mem (u := [c]) (by simpa using Ne.symm hc) t
      rw [List.singleton_append] at h
      rw [h, List.length_modifyHead, ih, newlines_cons_of_ne hc]

end Text

namespace Diagram

open Header Text

/-! ## The newlines of a diagram -/

def Mark.key? : Mark → Option (Fin keyCount)
  | .ink _ => none
  | .key index => some index

def Mark.width : Mark → Nat
  | .ink _ => 1
  | .key _ => cellWidth

theorem newlines_centre (label : Text) : newlines (centre label) = newlines (clip label) := by
  simp [newlines, centre, spaces, List.count_replicate]

theorem newlines_flatMap_draw (label : Fin keyCount → Text) (marks : List Mark) :
    newlines (marks.flatMap (Mark.draw label)) = marks.count (.ink '\n') +
      ((marks.filterMap Mark.key?).map fun index => newlines (clip (label index))).sum := by
  induction marks with
  | nil => rfl
  | cons m marks ih =>
    rw [List.flatMap_cons, newlines_append, ih, List.count_cons]
    cases m with
    | ink c =>
      rw [List.filterMap_cons_none rfl]
      by_cases hc : c = '\n'
      · subst hc
        rw [Mark.draw, newlines_cons_newline, if_pos (beq_self_eq_true _), newlines_nil]
        omega
      · rw [Mark.draw, newlines_cons_of_ne hc, if_neg (by simp [hc]), newlines_nil]
        omega
    | key index =>
      have hkeys : (Mark.key index :: marks).filterMap Mark.key? =
          index :: marks.filterMap Mark.key? := rfl
      rw [hkeys, List.map_cons, List.sum_cons, Mark.draw, newlines_centre, if_neg (by simp)]
      omega

theorem count_newline_template : template.count (.ink '\n') = 13 := by
  simp only [template, frame, rows, List.flatMap_cons, List.flatMap_nil]
  repeat rw [String.toList_ofList]
  decide +kernel

theorem filterMap_key?_template : template.filterMap Mark.key? = slotOrder := by
  simp only [template, frame, rows, List.flatMap_cons, List.flatMap_nil]
  repeat rw [String.toList_ofList]
  decide +kernel

theorem perm_slotOrder : slotOrder.Perm (List.finRange keyCount) := by
  decide +kernel

theorem map_keyLabel {tokens : List Text} (h : tokens.length = keyCount) :
    (List.finRange keyCount).map (keyLabel tokens) = labels tokens := by
  refine List.ext_getElem (by simp [labels, h]) fun i hi hi' => ?_
  rw [labels, List.length_map] at hi'
  simp [keyLabel, labels, List.getElem?_eq_getElem hi']

/-! ## The lines of a diagram without broken cells -/

theorem length_flatMap_draw (label : Fin keyCount → Text) (marks : List Mark) :
    (marks.flatMap (Mark.draw label)).length = (marks.map Mark.width).sum := by
  rw [List.length_flatMap]
  congr 1
  apply List.map_congr_left
  intro m _
  cases m with
  | ink c => rfl
  | key index => exact length_centre (label index)

theorem map_flatMap_modifyHead (label : Fin keyCount → Text) (m : Mark) (rows : List (List Mark)) :
    (rows.modifyHead (m :: ·)).map (fun marks => marks.flatMap (Mark.draw label)) =
      (rows.map fun marks => marks.flatMap (Mark.draw label)).modifyHead (m.draw label ++ ·) := by
  cases rows with
  | nil => rfl
  | cons row rows => rfl

theorem lines_flatMap_draw {label : Fin keyCount → Text}
    (h : ∀ index, '\n' ∉ centre (label index)) (marks : List Mark) :
    lines (marks.flatMap (Mark.draw label)) =
      (marks.splitOn (.ink '\n')).map fun row => row.flatMap (Mark.draw label) := by
  induction marks with
  | nil => rfl
  | cons m marks ih =>
    rw [List.flatMap_cons, List.splitOn_eq_splitOnP, List.splitOnP_cons_eq_if_modifyHead,
      ← List.splitOn_eq_splitOnP]
    by_cases hm : m = .ink '\n'
    · subst hm
      rw [if_pos (beq_self_eq_true _), Mark.draw, List.singleton_append, lines_newline_append, ih]
      rfl
    · have hdraw : '\n' ∉ m.draw label := by
        cases m with
        | ink c => simpa [Mark.draw, eq_comm] using hm
        | key index => exact h index
      rw [lines_append_of_not_mem hdraw, ih, if_neg (by simpa using hm), map_flatMap_modifyHead]

/-- The rows of the template, each without the newline before it. -/
def templateRows : List (List Mark) := (template.splitOn (.ink '\n')).tail

theorem splitOn_template : template.splitOn (.ink '\n') = [] :: templateRows := by
  simp only [templateRows, template, frame, rows, List.flatMap_cons, List.flatMap_nil]
  repeat rw [String.toList_ofList]
  decide

theorem length_templateRows : templateRows.length = 13 := by
  simp only [templateRows, template, frame, rows, List.flatMap_cons, List.flatMap_nil]
  repeat rw [String.toList_ofList]
  decide +kernel

theorem margin_templateRows : ∀ row ∈ templateRows.take 12,
    [Mark.ink ' ', Mark.ink '*', Mark.ink ' '] <+: row := by
  simp only [templateRows, template, frame, rows, List.flatMap_cons, List.flatMap_nil]
  repeat rw [String.toList_ofList]
  decide

theorem width_templateRows : ∀ row ∈ templateRows.take 9, (row.map Mark.width).sum = 121 := by
  simp only [templateRows, template, frame, rows, List.flatMap_cons, List.flatMap_nil]
  repeat rw [String.toList_ofList]
  decide +kernel

section Draw

variable {name : Text} {label : Fin keyCount → Text}

theorem not_mem_newline_opening (hname : IsName name) : '\n' ∉ "/* ".toList ++ name := by
  intro hmem
  rcases List.mem_append.1 hmem with hmem | hmem
  · revert hmem
    decide
  · have hchar := hname.2 _ hmem
    revert hchar
    decide

theorem newlines_draw (hname : IsName name) (label : Fin keyCount → Text) :
    newlines (draw name label) =
      13 + (((List.finRange keyCount).map label).map fun text => newlines (clip text)).sum := by
  have hsum := (perm_slotOrder.map fun index => newlines (clip (label index))).sum_nat
  rw [draw, newlines_append, newlines_eq_zero_iff.2 (not_mem_newline_opening hname),
    newlines_flatMap_draw, count_newline_template, filterMap_key?_template, hsum, List.map_map,
    Nat.zero_add]
  rfl

theorem lines_draw (hname : IsName name) (h : ∀ index, '\n' ∉ clip (label index)) :
    lines (draw name label) =
      ("/* ".toList ++ name) :: templateRows.map fun row => row.flatMap (Mark.draw label) := by
  have hcentre : ∀ index, '\n' ∉ centre (label index) := by
    intro index
    rw [← newlines_eq_zero_iff, newlines_centre, newlines_eq_zero_iff]
    exact h index
  rw [draw, lines_append_of_not_mem (not_mem_newline_opening hname), lines_flatMap_draw hcentre,
    splitOn_template, List.map_cons, List.flatMap_nil, List.modifyHead_cons, List.append_nil]

end Draw

/-! ## The grid of a layer -/

/-- Fourteen lines, of which the twelve inner ones have a margin and the nine rows of the large blocks
and of the inner keys have one width. -/
structure IsAligned (diagram : Text) : Prop where
  count : (lines diagram).length = 14
  margin : ∀ line ∈ ((lines diagram).drop 1).take 12, [' ', '*', ' '] <+: line
  width : ∃ n, ∀ line ∈ ((lines diagram).drop 1).take 9, line.length = n

theorem isAligned_draw {name : Text} {label : Fin keyCount → Text} (hname : IsName name)
    (h : ∀ index, '\n' ∉ clip (label index)) : IsAligned (draw name label) := by
  have hlines := lines_draw hname h
  have hinner : ∀ n, ((lines (draw name label)).drop 1).take n =
      (templateRows.take n).map fun row => row.flatMap (Mark.draw label) := by
    intro n
    rw [hlines, List.drop_one, List.tail_cons, List.map_take]
  refine ⟨?_, fun line hline => ?_, 121, fun line hline => ?_⟩
  · rw [hlines, List.length_cons, List.length_map, length_templateRows]
  · rw [hinner, List.mem_map] at hline
    obtain ⟨row, hrow, rfl⟩ := hline
    obtain ⟨rest, rfl⟩ := margin_templateRows row hrow
    exact ⟨rest.flatMap (Mark.draw label), by simp [Mark.draw]⟩
  · rw [hinner, List.mem_map] at hline
    obtain ⟨row, hrow, rfl⟩ := hline
    rw [length_flatMap_draw, width_templateRows row hrow]

theorem length_lines_draw {name : Text} {tokens : List Text} (hname : IsName name)
    (hcount : tokens.length = keyCount) : (lines (draw name (keyLabel tokens))).length =
      14 + ((labels tokens).map fun label => newlines (clip label)).sum := by
  rw [length_lines, newlines_draw hname, map_keyLabel hcount]
  omega

theorem layers_isAligned_iff {t : Text} {l : Layer} (hl : l ∈ Keymap.layers t)
    (hcount : l.keyCount = 58) : ∃ diagram, l.diagram? = some diagram ∧
      (lines diagram).length = 14 + (l.labels.map fun label => newlines (label.take 7)).sum ∧
      (IsAligned diagram ↔ ∀ label ∈ l.labels, '\n' ∉ label.take 7) := by
  obtain ⟨h, wf, hname, -⟩ := (isPlaced_of_mem_layers hl).header
  have hisName : IsName l.name := hname ▸ wf.name
  have hlength := length_lines_draw hisName hcount
  refine ⟨draw l.name (keyLabel l.tokens), draw?_of_length hcount, hlength, ?_, ?_⟩
  · intro haligned label hlabel
    -- each newline in a cell would be a line too many
    have hsum : (l.labels.map fun label => newlines (clip label)).sum = 0 := by
      have h14 := haligned.count
      rw [hlength] at h14
      exact Nat.add_left_cancel h14
    have hzero := List.sum_eq_zero_iff_forall_eq_nat.1 hsum _ (List.mem_map_of_mem hlabel)
    exact newlines_eq_zero_iff.1 hzero
  · intro hlabels
    refine isAligned_draw hisName fun index => hlabels _ ?_
    rw [Layer.labels, ← map_keyLabel hcount]
    exact List.mem_map_of_mem (List.mem_finRange index)

/-! ## A key that goes over two lines -/

namespace Sample

/-- A declaration whose first keycode is `key`; the other ones are plain. -/
def headed (key : Text) : Visit where
  gap := []
  header := canonical ['A']
  table := ⟨key ++ (List.replicate 57 [',', 'K']).flatten ++ [')'],
    key :: List.replicate 57 ['K'], true⟩

theorem layers_headed {key : Text}
    (h : Table.read ((headed key).table.text ++ []) = ((headed key).table, [])) :
    Keymap.layers (headed key).text = [(headed key).placed []] := by
  have hvisits : Keymap.visits ((headed key).text ++ []) = [headed key] :=
    Visits.eq_visits (.visit bare_nil (wellFormed_canonical (isName_singleton (by decide))) h
      (.none bare_nil))
  rw [List.append_nil] at hvisits
  rw [Keymap.layers, declared_eq_map_placed, hvisits]
  rfl

theorem mem_layers_headed {key : Text}
    (h : Table.read ((headed key).table.text ++ []) = ((headed key).table, [])) :
    (headed key).placed [] ∈ Keymap.layers (headed key).text := by
  rw [layers_headed h]
  exact List.mem_singleton_self _

/-- A layer action that goes over two lines. -/
def brokenKey : Text := ['M', 'O', '(', '\n', '1', ')']

theorem abbreviate_plainKey : Keycode.abbreviate ['K'] = ['K'] := by
  have hread : Keycode.read (trim ['K']) = .label ['K'] := by decide
  exact Keycode.abbreviate_of_label hread

theorem abbreviate_brokenKey : Keycode.abbreviate brokenKey = brokenKey := by
  have hread : Keycode.read (trim brokenKey) = .label brokenKey := by decide
  exact Keycode.abbreviate_of_label hread

theorem labels_headed {key label : Text} (h : Keycode.abbreviate key = label) :
    labels (headed key).table.tokens = label :: List.replicate 57 ['K'] := by
  rw [headed, labels, List.map_cons, List.map_replicate, h, abbreviate_plainKey]

end Sample

theorem layers_isAligned_iff_sample :
    (Sample.headed ['K']).placed [] ∈ Keymap.layers (Sample.headed ['K']).text ∧
    ((Sample.headed ['K']).placed []).keyCount = 58 ∧
    ∃ diagram, ((Sample.headed ['K']).placed []).diagram? = some diagram ∧
      (lines diagram).length = 14 ∧ IsAligned diagram := by
  have hmem := @Sample.mem_layers_headed ['K'] (by decide)
  have hlabels : ((Sample.headed ['K']).placed []).labels = ['K'] :: List.replicate 57 ['K'] :=
    Sample.labels_headed Sample.abbreviate_plainKey
  obtain ⟨diagram, hdiagram, hlength, haligned⟩ := layers_isAligned_iff hmem rfl
  rw [hlabels] at hlength haligned
  exact ⟨hmem, rfl, diagram, hdiagram, hlength, haligned.2 (by decide)⟩

theorem layers_misaligned :
    ∃ l ∈ Keymap.layers (Sample.headed Sample.brokenKey).text, l.keyCount = 58 ∧
      ∃ diagram, l.diagram? = some diagram ∧ (lines diagram).length = 15 ∧
        ¬ IsAligned diagram := by
  have hmem := @Sample.mem_layers_headed Sample.brokenKey (by decide +kernel)
  have hname : IsName ['A'] := isName_singleton (by decide)
  have hlength := @length_lines_draw ['A'] (Sample.headed Sample.brokenKey).table.tokens hname rfl
  rw [Sample.labels_headed Sample.abbreviate_brokenKey] at hlength
  have h15 : (lines (draw ['A'] (keyLabel (Sample.headed Sample.brokenKey).table.tokens))).length =
      15 := hlength
  exact ⟨_, hmem, rfl, _, draw?_of_length rfl, h15, fun haligned =>
    absurd (h15.symm.trans haligned.count) (by decide)⟩

end Diagram
end KeyChart
