import KeyChart.Proofs.Keymap.Placement

/-!
Lines of a text and what becomes of their headers. Main statements: the first header of a line is visited,
or the table of a visit on an earlier line reaches the line (`Visits.visited_or_covered`), and so every
line with a header has its layer, or an empty table, or is covered by a table (`lines_settled`).
-/

namespace KeyChart

open Text Header

/-- A line, with its newline if it has one, between the whole lines before it and the text behind it. -/
structure Text.IsLineOf (t before line after : Text) : Prop where
  text : t = before ++ (line ++ after)
  starts : IsLines before
  whole : lineRest (line ++ after) = line

/-- The layer of a header with `lead` before it on its line and `behind` after it. -/
def Header.layerAt (h : Header) (before lead behind : Text) : Layer where
  name := h.name
  tokens := (Table.read behind).1.tokens
  line := newlines before
  declaration := ⟨byteSize (before ++ lead), byteSize (before ++ lead ++ h.spelled)⟩

namespace Keymap

/-- The layer is the only one of its line. -/
def Reports (t : Text) (l : Layer) : Prop := (layers t).filter (fun l' => l'.line = l.line) = [l]

/-- The layer is declared and left out, as its table is empty. -/
def Drops (t : Text) (l : Layer) : Prop := l ∈ declared t ∧ l.tokens = []

/-- The table of a declaration on an earlier line ends on the line or behind it. -/
def Covers (t : Text) (line : Nat) : Prop := ∃ d ∈ declared t, d.line < line ∧ line ≤ d.lastLine t

end Keymap

def ExactlyOne (a b c : Prop) : Prop :=
  (a ∧ ¬ b ∧ ¬ c) ∨ (¬ a ∧ b ∧ ¬ c) ∨ (¬ a ∧ ¬ b ∧ c)

/-! ## The end of a table -/

/-- A table that something follows ends in its parenthesis. -/
theorem Table.exists_close_of_read {table : Table} {after : Text}
    (h : read (table.text ++ after) = (table, after)) (hne : after ≠ []) :
    ∃ u, table.text = u ++ [')'] := by
  have hrest := congrArg Prod.snd h
  simp only [read] at hrest
  cases hscan : (Cut.scan .code 0 (table.text ++ after)).rest with
  | none =>
    rw [hscan] at hrest
    exact absurd hrest.symm hne
  | some r =>
    rw [hscan, Option.getD_some] at hrest
    obtain ⟨u, hu⟩ := Cut.eq_append_of_scan hscan
    rw [hrest, ← List.singleton_append, ← List.append_assoc] at hu
    exact ⟨u, List.append_cancel_right hu⟩

/-- No line starts right behind a table that something follows. -/
theorem Table.not_isLines_of_read {table : Table} {after : Text}
    (h : read (table.text ++ after) = (table, after)) (hne : after ≠ []) (u : Text) :
    ¬ IsLines (u ++ table.text) := by
  obtain ⟨w, hw⟩ := exists_close_of_read h hne
  rw [hw, ← List.append_assoc]
  intro hlines
  rcases hlines.eq_nil_or_concat with hnil | ⟨x, hx⟩
  · simp at hnil
  · have hlast := (List.append_inj' hx rfl).2
    revert hlast
    decide

/-! ## Lines and visits -/

/-- Two front parts of a text, by which of them is the longer. -/
theorem Text.append_cases {u v x y : Text} (h : u ++ x = v ++ y) :
    (∃ r, u = v ++ r ∧ y = r ++ x) ∨ ∃ r, r ≠ [] ∧ v = u ++ r ∧ x = r ++ y := by
  rcases List.append_eq_append_iff.1 h with ⟨r, hv, hx⟩ | ⟨r, hu, hy⟩
  · by_cases hr : r = []
    · subst hr
      exact Or.inl ⟨[], by simpa using hv.symm, by simpa using hx.symm⟩
    · exact Or.inr ⟨r, hr, hv, hx⟩
  · exact Or.inl ⟨r, hu, hy⟩

theorem Place.bare_right {p : Place} {y v : Text} (h : Bare (p.searched (y ++ v)))
    (hy : p = .tableEnd → '\n' ∈ y) : Bare v := by
  cases p with
  | lineStart => exact Bare.right h
  | tableEnd =>
    have hsearched : Place.tableEnd.searched (y ++ v) = nextLines y ++ v :=
      nextLines_append_of_mem (hy rfl) v
    rw [hsearched] at h
    exact h.right

theorem Text.bare_lineRest {v : Text} (h : Bare v) : Bare (lineRest v) := by
  rw [← lineRest_append_nextLines v] at h
  exact h.left

theorem Header.not_mem_newline_spelled {h : Header} (wf : h.WellFormed) : '\n' ∉ h.spelled := by
  intro hmem
  have hchar := hasChar_of_mem_spelled wf hmem
  revert hchar
  decide

/-- The line that a visit stands on. -/
theorem Header.first?_lineRest {lead rest : Text} {h : Header} (wf : h.WellFormed)
    (hlead : '\n' ∉ lead) (hbare : Bare lead) :
    first? (lineRest (lead ++ (h.spelled ++ rest))) = some (lead, h, lineRest rest) := by
  rw [lineRest_append_of_not_mem hlead, lineRest_append_of_not_mem (not_mem_newline_spelled wf)]
  exact first?_eq_some_iff_bare.2 ⟨rfl, wf, hbare⟩

/-- A line that starts inside the header or the table of a visit is on one of its further lines. -/
theorem Visit.reaches_of_split (b : Visit) (front : Text) {w z : Text}
    (h : b.header.spelled ++ b.table.text = w ++ z) (hz : z ≠ []) (hw : '\n' ∈ w) :
    newlines (front ++ b.gap) < newlines (front ++ (b.gap ++ w)) ∧
      newlines (front ++ (b.gap ++ w)) ≤ newlines (through (front ++ b.gap, b)).dropLast := by
  have hthrough : through (front ++ b.gap, b) = front ++ (b.gap ++ w) ++ z := by
    rw [through, h]
    simp only [List.append_assoc]
  constructor
  · have hpos : 0 < newlines w := List.count_pos_iff.2 hw
    rw [← List.append_assoc, newlines_append (front ++ b.gap)]
    omega
  · rw [hthrough, List.dropLast_append_of_ne_nil hz]
    exact newlines_le_of_append _ _

/-- The first header of a line is visited, unless a visit on an earlier line has a table that reaches
the line. -/
theorem Visits.visited_or_covered {p : Place} {x : Text} {vs : List Visit} (h : Visits p x vs)
    {front y v lead trail : Text} {hd : Header} (hx : x = y ++ v) (hlines : IsLines (front ++ y))
    (hy : p = .tableEnd → y ≠ []) (hfirst : Header.first? (lineRest v) = some (lead, hd, trail)) :
    (∃ s ∈ Visit.sites front vs, s.1 = front ++ y ++ lead ∧ s.2.header = hd) ∨
      ∃ s ∈ Visit.sites front vs, newlines s.1 < newlines (front ++ y) ∧
        newlines (front ++ y) ≤ newlines (Visit.through s).dropLast := by
  -- a line that holds a header is not bare
  have notBare : ∀ {u : Text}, lineRest v = lineRest u → ¬ Bare u := by
    intro u hu hbare
    have hnone := bare_lineRest hbare
    rw [← hu, Bare, hfirst] at hnone
    cases hnone
  induction h generalizing front y with
  | @none p t hbare =>
    exfalso
    rw [hx] at hbare
    exact notBare rfl (p.bare_right hbare fun hp => hlines.right.mem_newline (hy hp))
  | @visit p b after vs hgap wf htable hlater ih =>
    have hgapLines : p = .tableEnd → '\n' ∈ y := fun hp => hlines.right.mem_newline (hy hp)
    rw [Visit.text, List.append_assoc] at hx
    rcases append_cases hx with ⟨z, hz, hv⟩ | ⟨w, hw, hyw, hbody⟩
    · -- the line starts before the header of `b`, so that is the first one
      have hbare : Bare z := by
        have hsearched := hgap.bare
        rw [hz] at hsearched
        exact p.bare_right hsearched hgapLines
      have hnewline : '\n' ∉ z := by
        intro hmem
        exact notBare (by rw [hv, lineRest_append_of_mem hmem]) hbare
      rw [hv, List.append_assoc, first?_lineRest wf hnewline hbare] at hfirst
      cases hfirst
      exact Or.inl ⟨_, List.mem_cons_self, by rw [hz, List.append_assoc], rfl⟩
    · rw [hyw, ← List.append_assoc] at hlines
      have hnewline := hlines.right.mem_newline hw
      rcases append_cases hbody with ⟨z, hz, hv⟩ | ⟨w', hw', hww, hafter⟩
      · by_cases hzne : z = []
        · -- no line starts right behind a closed table
          exfalso
          rw [hzne, List.nil_append] at hv
          rw [hzne, List.append_nil] at hz
          rw [← hz, ← List.append_assoc] at hlines
          refine Table.not_isLines_of_read htable (fun hnil => ?_) _ hlines
          exact notBare (congrArg lineRest (hv.trans hnil)) bare_nil
        · -- the line starts inside the header or the table of `b`
          rw [hyw]
          exact Or.inr ⟨_, List.mem_cons_self, b.reaches_of_split front hz hzne hnewline⟩
      · -- the line starts behind the table of `b`
        have hfront : front ++ y = front ++ b.text ++ w' := by
          rw [hyw, hww, Visit.text]
          simp only [List.append_assoc]
        rw [hfront]
        rw [List.append_assoc, ← hyw, hfront] at hlines
        rcases ih hafter hlines fun _ => hw' with ⟨s, hs, hsite⟩ | ⟨s, hs, hsite⟩
        · exact Or.inl ⟨s, List.mem_cons_of_mem _ hs, hsite⟩
        · exact Or.inr ⟨s, List.mem_cons_of_mem _ hs, hsite⟩

/-! ## The lines of layers -/

theorem Visit.Stands.lastLine_placed {t : Text} {s : Text × Visit} (h : Stands t s) :
    (s.2.placed s.1).lastLine t = newlines (through s).dropLast := by
  obtain ⟨after, ht⟩ := h.eq_through_append
  have hne : through s ≠ [] := by simp [through, spelled_ne_nil]
  have hlast := List.dropLast_concat_getLast hne
  rw [Layer.lastLine, h.tableStop_placed]
  calc newlines (takeBytes (byteSize (through s) - 1) t)
      = newlines (takeBytes (byteSize ((through s).dropLast ++ [(through s).getLast hne]) - 1)
          ((through s).dropLast ++ (through s).getLast hne :: after)) := by
        rw [hlast, List.append_cons, hlast, ← ht]
    _ = newlines (through s).dropLast := newlines_takeBytes_sub_one _ _ _

theorem Keymap.line_le_lastLine {t : Text} {l : Layer} (h : l ∈ declared t) :
    l.line ≤ l.lastLine t := by
  obtain ⟨s, hs, rfl⟩ := exists_stands_of_mem_declared h
  have hne : s.2.header.spelled ++ s.2.table.text ≠ [] := by simp [spelled_ne_nil]
  rw [hs.lastLine_placed, Visit.through, List.dropLast_append_of_ne_nil hne]
  exact newlines_le_of_append _ _

theorem Keymap.pairwise_line (t : Text) :
    (declared t).Pairwise fun l l' => l.line < l'.line :=
  (pairwise_declared t).imp_of_mem fun hl _ h => Nat.lt_of_le_of_lt (line_le_lastLine hl) h.line

/-- Of a list with rising keys, the part with one of the keys. -/
theorem filter_eq_singleton_of_pairwise {α : Type} {key : α → Nat} {xs : List α} {a : α}
    (h : xs.Pairwise fun x y => key x < key y) (ha : a ∈ xs) :
    xs.filter (fun x => key x = key a) = [a] := by
  induction xs with
  | nil => cases ha
  | cons x xs ih =>
    rw [List.pairwise_cons] at h
    rcases List.mem_cons.1 ha with rfl | ha
    · have hrest : xs.filter (fun x => key x = key a) = [] := by
        apply List.filter_eq_nil_iff.2
        intro y hy
        have hlt := h.1 y hy
        simp only [decide_eq_true_eq]
        omega
      rw [List.filter_cons_of_pos (by simp), hrest]
    · have hlt := h.1 a ha
      rw [List.filter_cons_of_neg (by simp only [decide_eq_true_eq]; omega)]
      exact ih h.2 ha

namespace Keymap

theorem not_covers_of_mem_declared {t : Text} {l : Layer} (h : l ∈ declared t) :
    ¬ Covers t l.line := by
  intro hcovers
  obtain ⟨d, hd, hlt, hle⟩ := hcovers
  rcases eq_or_precedes h hd with rfl | hbefore | hbehind
  · exact Nat.lt_irrefl _ hlt
  · have hfirst := line_le_lastLine h
    have hline := hbefore.line
    omega
  · have hline := hbehind.line
    omega

theorem Reports.mem_layers {t : Text} {l : Layer} (h : Reports t l) : l ∈ layers t := by
  have hmem : l ∈ (layers t).filter fun l' => l'.line = l.line := by
    rw [h]
    exact List.mem_singleton.2 rfl
  exact (List.mem_filter.1 hmem).1

theorem reports_of_mem_layers {t : Text} {l : Layer} (h : l ∈ layers t) : Reports t l :=
  filter_eq_singleton_of_pairwise ((pairwise_line t).filter _) h

/-- A declaration is reported or dropped, and its line is not covered. -/
theorem exactlyOne_of_mem_declared {t : Text} {l : Layer} (h : l ∈ declared t) :
    ExactlyOne (Reports t l) (Drops t l) (Covers t l.line) := by
  have hnot := not_covers_of_mem_declared h
  by_cases hempty : l.tokens = []
  · refine Or.inr (Or.inl ⟨fun hreports => ?_, ⟨h, hempty⟩, hnot⟩)
    exact (mem_layers_iff.1 hreports.mem_layers).2 hempty
  · exact Or.inl ⟨reports_of_mem_layers (mem_layers_iff.2 ⟨h, hempty⟩),
      fun hdrops => hempty hdrops.2, hnot⟩

/-- A layer on a covered line is not declared. -/
theorem exactlyOne_of_covers {t : Text} {l : Layer} (h : Covers t l.line) :
    ExactlyOne (Reports t l) (Drops t l) (Covers t l.line) :=
  Or.inr (Or.inr ⟨fun hreports =>
    not_covers_of_mem_declared (mem_layers_iff.1 hreports.mem_layers).1 h,
    fun hdrops => not_covers_of_mem_declared hdrops.1 h, h⟩)

end Keymap

/-! ## Every line -/

theorem Text.IsLineOf.not_mem_newline {t before line after lead trail : Text} {h : Header}
    (hline : IsLineOf t before line after) (hfirst : first? line = some (lead, h, trail)) :
    '\n' ∉ lead := by
  obtain ⟨hlead, -, -⟩ := first?_eq_some_iff_bare.1 hfirst
  intro hmem
  -- the line would end in `lead`, before its header
  have hwhole := hline.whole
  rw [hlead, List.append_assoc, lineRest_append_of_mem hmem] at hwhole
  have hlength := congrArg List.length hwhole
  have hsplit := congrArg List.length (lineRest_append_nextLines lead)
  have hpos := List.length_pos_iff.2 h.spelled_ne_nil
  simp only [List.length_append] at hlength hsplit
  omega

/-- The visit of the first header of a line finds the layer of that header. -/
theorem Visit.Stands.placed_eq_layerAt {t before lead behind : Text} {s : Text × Visit}
    (h : Stands t s) (hsite : s.1 = before ++ lead) (hlead : '\n' ∉ lead)
    (htext : t = before ++ (lead ++ (s.2.header.spelled ++ behind))) :
    s.2.placed s.1 = s.2.header.layerAt before lead behind := by
  obtain ⟨after, ht, hread⟩ := h.text
  have hbehind : s.2.table.text ++ after = behind := by
    rw [hsite, List.append_assoc] at ht
    have hcancel := List.append_cancel_left (List.append_cancel_left (ht.symm.trans htext))
    exact List.append_cancel_left hcancel
  rw [Visit.placed, Header.layerAt, ← hbehind, hread, hsite, byteSize_append (before ++ lead),
    newlines_append, newlines_eq_zero_iff.2 hlead, Nat.add_zero]

theorem exactlyOne_of_first? {t before line after lead trail : Text} {h : Header}
    (hline : IsLineOf t before line after) (hfirst : first? line = some (lead, h, trail)) :
    ExactlyOne (Keymap.Reports t (h.layerAt before lead (trail ++ after)))
      (Keymap.Drops t (h.layerAt before lead (trail ++ after)))
      (Keymap.Covers t (newlines before)) := by
  have hnewline := hline.not_mem_newline hfirst
  obtain ⟨hlead, -, -⟩ := first?_eq_some_iff_bare.1 hfirst
  have hrest : first? (lineRest (line ++ after)) = some (lead, h, trail) := by
    rw [hline.whole, hfirst]
  have hstart : IsLines ([] ++ before) := hline.starts
  have hvisits := visits_read t
  rcases hvisits.visited_or_covered hline.text hstart (fun hp => by cases hp) hrest with
    ⟨s, hs, hsite, rfl⟩ | ⟨s, hs, hlt, hle⟩
  · have hstands := stands_of_mem_sites hs
    rw [List.nil_append] at hsite
    have htext : t = before ++ (lead ++ (s.2.header.spelled ++ (trail ++ after))) := by
      rw [hline.text, hlead]
      simp only [List.append_assoc]
    apply Keymap.exactlyOne_of_mem_declared
    rw [← hstands.placed_eq_layerAt hsite hnewline htext]
    exact mem_declared_of_mem_sites hs
  · have hstands := stands_of_mem_sites hs
    apply Keymap.exactlyOne_of_covers
    refine ⟨s.2.placed s.1, mem_declared_of_mem_sites hs, hlt, ?_⟩
    rw [hstands.lastLine_placed]
    exact hle

theorem line_ne_of_bare {t before line after : Text} (hline : IsLineOf t before line after)
    (hbare : Bare line) {l : Layer} (hl : l ∈ Keymap.layers t) : l.line ≠ newlines before := by
  obtain ⟨s, hs, rfl⟩ := exists_stands_of_mem_declared (mem_layers_iff.1 hl).1
  obtain ⟨u, lead, hsite, hu, hlead, hbareLead⟩ := hs.line
  obtain ⟨behind, ht, -⟩ := hs.text
  intro hsame
  have hnewlines : newlines u = newlines before := by
    calc newlines u = newlines (u ++ lead) := by
          rw [newlines_append, newlines_eq_zero_iff.2 hlead, Nat.add_zero]
      _ = newlines before := by rw [← hsite]; exact hsame
  rw [hsite, List.append_assoc] at ht
  have hbefore := hu.unique hline.starts (ht.symm.trans hline.text) hnewlines
  rw [hbefore] at ht
  -- both are the one line behind `before`
  have hrest := List.append_cancel_left (ht.symm.trans hline.text)
  have hfirst : first? (lineRest (lead ++ (s.2.header.spelled ++ (s.2.table.text ++ behind)))) = _ :=
    first?_lineRest hs.wf hlead hbareLead
  rw [hrest, hline.whole, hbare] at hfirst
  cases hfirst

theorem lines_settled (t : Text) :
    (∀ (before line after lead : Text) (h : Header) (trail : Text), IsLineOf t before line after →
      first? line = some (lead, h, trail) →
      ExactlyOne (Keymap.Reports t (h.layerAt before lead (trail ++ after)))
        (Keymap.Drops t (h.layerAt before lead (trail ++ after)))
        (Keymap.Covers t (newlines before))) ∧
      ∀ before line after : Text, IsLineOf t before line after → Bare line →
        ∀ l ∈ Keymap.layers t, l.line ≠ newlines before :=
  ⟨fun _ _ _ _ _ _ hline hfirst => exactlyOne_of_first? hline hfirst,
    fun _ _ _ hline hbare _ hl => line_ne_of_bare hline hbare hl⟩

theorem lines_settled_sample : Keymap.Covers Sample.layout 1 ∧
    ∀ l ∈ Keymap.layers Sample.layout, l.line ≠ 3 := by
  obtain ⟨hheader, hbare⟩ := lines_settled Sample.layout
  refine ⟨?_, hbare Sample.layout [] [] ⟨by simp, by decide, rfl⟩ bare_nil⟩
  have hsecond := hheader "/* é */ [A] = LAYOUT(K, // [B] = LAYOUT(\n".toList
    "), [C] = LAYOUT(K)\n".toList Sample.unclosed.text "), ".toList (Header.canonical ['C'])
    "K)\n".toList ⟨by decide, by decide, by decide +kernel⟩ (by decide +kernel)
  have hlayer : ∀ l ∈ Keymap.declared Sample.layout, l.line ≠ 1 := by
    rw [declared_eq_map_placed, Sample.visits_layout]
    decide +kernel
  rcases hsecond with ⟨hreports, -⟩ | ⟨-, hdrops, -⟩ | ⟨-, -, hcovers⟩
  · exact absurd (by decide +kernel) (hlayer _ (mem_layers_iff.1 hreports.mem_layers).1)
  · exact absurd (by decide +kernel) (hlayer _ hdrops.1)
  · exact hcovers

end KeyChart
