import KeyChart.Proofs.Keymap.Visits
import KeyChart.Proofs.Text.Lines

/-!
Where the layers of a text stand. Main statements: a visit stands behind whole lines and a bare start of
its own line (`Visits.stands_of_mem_sites`), each visit is on a line behind the table of the one before
(`Visits.pairwise_sites`), and so each layer is the leftmost header of its line with the table behind it,
and no two layers share a line (`layers_placed`).
-/

namespace KeyChart

open Text Header

/-! ## Layers and their tables -/

namespace Layer

/-- The table that stands behind the header of the layer. -/
def table (l : Layer) (t : Text) : Table := (Table.read (dropBytes l.declaration.stop t)).1

/-- The byte behind that table, or the end of the text if the table is never closed. -/
def tableStop (l : Layer) (t : Text) : Nat := l.declaration.stop + byteSize (l.table t).text

/-- The line of the last byte of header and table. -/
def lastLine (l : Layer) (t : Text) : Nat := newlines (takeBytes (l.tableStop t - 1) t)

/-- The layer is a header of the text, the first on its line, and the tokens of the table behind it. -/
structure IsPlaced (l : Layer) (t : Text) : Prop where
  nonempty : l.declaration.start < l.declaration.stop
  inBounds : l.declaration.stop ≤ byteSize t
  boundaries : IsBoundary t l.declaration.start ∧ IsBoundary t l.declaration.stop
  header : ∃ h : Header, h.WellFormed ∧ h.name = l.name ∧ within l.declaration t = h.spelled
  leftmost : ∀ (u : Text) (h : Header) (r : Text), h.WellFormed → t = u ++ (h.spelled ++ r) →
    newlines u = l.line → l.declaration.start ≤ byteSize u
  line : l.line = newlines (takeBytes l.declaration.start t)
  tokens_ne_nil : l.tokens ≠ []
  tokens : l.tokens = (l.table t).tokens

/-- One layer ends before another begins, and on an earlier line. -/
structure Precedes (t : Text) (l l' : Layer) : Prop where
  line : l.lastLine t < l'.line
  bytes : l.tableStop t ≤ l'.declaration.start
  apart : ∀ m n, m < l.tableStop t → l'.declaration.start ≤ n →
    newlines (takeBytes m t) < newlines (takeBytes n t)

end Layer

/-- The layer of a visit behind a text. -/
def Visit.placed (v : Visit) (before : Text) : Layer where
  name := v.header.name
  tokens := v.table.tokens
  line := newlines before
  declaration := ⟨byteSize before, byteSize before + byteSize v.header.spelled⟩

/-- The text through the table of a visit. -/
def Visit.through (s : Text × Visit) : Text := s.1 ++ (s.2.header.spelled ++ s.2.table.text)

/-! ## The leftmost header -/

theorem Header.length_le_of_first? {t lead rest u r : Text} {h h' : Header}
    (hf : first? t = some (lead, h, rest)) (wf : h'.WellFormed) (ht : t = u ++ (h'.spelled ++ r)) :
    lead.length ≤ u.length := by
  obtain ⟨hlead, -, hnone⟩ := first?_eq_some_iff.1 hf
  rcases List.append_eq_append_iff.1 (hlead.symm.trans ht) with ⟨w, hu, -⟩ | ⟨w, hu, hw⟩
  · rw [hu, List.length_append]
    omega
  · cases w with
    | nil =>
      rw [List.append_nil] at hu
      exact Nat.le_of_eq (congrArg List.length hu)
    | cons c w =>
      -- a header is read inside `lead`
      have hread := hnone u c w hu
      rw [← hw, read?_spelled_append wf] at hread
      cases hread

/-! ## Where visits stand -/

/-- Before a visit there are whole lines and the start of its own line, without a header; behind that
come its header, its table and what follows. -/
structure Visit.Stands (t : Text) (s : Text × Visit) : Prop where
  wf : s.2.header.WellFormed
  line : ∃ u lead, s.1 = u ++ lead ∧ IsLines u ∧ '\n' ∉ lead ∧ Bare lead
  text : ∃ after, t = s.1 ++ (s.2.header.spelled ++ (s.2.table.text ++ after)) ∧
    Table.read (s.2.table.text ++ after) = (s.2.table, after)

theorem Text.exists_lineRest_eq {t : Text} (h : '\n' ∈ t) : ∃ u, lineRest t = u ++ ['\n'] := by
  induction t with
  | nil => cases h
  | cons c t ih =>
    by_cases hc : c = '\n'
    · exact ⟨[], by simp [lineRest, hc]⟩
    · obtain ⟨u, hu⟩ := ih ((List.mem_cons.1 h).resolve_left (Ne.symm hc))
      exact ⟨c :: u, by rw [lineRest, if_neg hc, hu]; rfl⟩

theorem Place.Admits.exists_line {p : Place} {front gap : Text} (h : p.Admits gap)
    (hfront : p = .lineStart → IsLines front) :
    ∃ u lead, front ++ gap = u ++ lead ∧ IsLines u ∧ '\n' ∉ lead ∧ Bare lead := by
  obtain ⟨u, lead, hsearched, hu, hlead⟩ := Text.exists_line (p.searched gap)
  have hbare := h.bare
  rw [hsearched] at hbare
  refine ⟨front ++ p.passed gap ++ u, lead, ?_, IsLines.append ?_ hu, hlead, hbare.right⟩
  · rw [List.append_assoc, ← hsearched, List.append_assoc, p.passed_append_searched]
  · cases p with
    | lineStart =>
      show IsLines (front ++ [])
      rw [List.append_nil]
      exact hfront rfl
    | tableEnd =>
      obtain ⟨w, hw⟩ := exists_lineRest_eq h.1
      show IsLines (front ++ lineRest gap)
      rw [hw, ← List.append_assoc]
      exact isLines_concat _

theorem Visits.stands_of_mem_sites {p : Place} {x : Text} {vs : List Visit} (h : Visits p x vs)
    {front : Text} (hfront : p = .lineStart → IsLines front) {s : Text × Visit}
    (hs : s ∈ Visit.sites front vs) : Visit.Stands (front ++ x) s := by
  induction h generalizing front with
  | none _ => cases hs
  | @visit p v after vs hgap wf htable _ ih =>
    rw [Visit.sites, List.mem_cons] at hs
    rcases hs with rfl | hs
    · refine ⟨wf, hgap.exists_line hfront, after, ?_, htable⟩
      rw [Visit.text]
      simp only [List.append_assoc]
    · rw [← List.append_assoc]
      exact ih (fun hp => by cases hp) hs

theorem stands_of_mem_sites {t : Text} {s : Text × Visit}
    (hs : s ∈ Visit.sites [] (Keymap.visits t)) : Visit.Stands t s := by
  have h := (visits_read t).stands_of_mem_sites (fun _ => isLines_nil) hs
  rwa [List.nil_append] at h

namespace Visit.Stands

variable {t : Text} {s : Text × Visit}

theorem takeBytes_before (h : Stands t s) : takeBytes (byteSize s.1) t = s.1 := by
  obtain ⟨after, ht, -⟩ := h.text
  rw [ht, takeBytes_append]

theorem lineAt_before (h : Stands t s) : lineAt (lineStarts t) (byteSize s.1) = newlines s.1 := by
  obtain ⟨after, ht, -⟩ := h.text
  rw [ht, lineAt_byteSize]
  simp [spelled_ne_nil]

theorem table_placed (h : Stands t s) : (s.2.placed s.1).table t = s.2.table := by
  obtain ⟨after, ht, hread⟩ := h.text
  have hcut : dropBytes (byteSize s.1 + byteSize s.2.header.spelled) t = s.2.table.text ++ after := by
    rw [ht, ← List.append_assoc, ← byteSize_append, dropBytes_append]
  rw [Layer.table, Visit.placed]
  dsimp only
  rw [hcut, hread]

theorem tableStop_placed (h : Stands t s) :
    (s.2.placed s.1).tableStop t = byteSize (through s) := by
  rw [Layer.tableStop, h.table_placed, through, byteSize_append, byteSize_append, ← Nat.add_assoc]
  rfl

theorem eq_through_append (h : Stands t s) : ∃ after, t = through s ++ after := by
  obtain ⟨after, ht, -⟩ := h.text
  exact ⟨after, by rw [ht, through]; simp only [List.append_assoc]⟩

/-- The header of a visit is the first one on its line. -/
theorem byteSize_le (h : Stands t s) {u r : Text} {h' : Header} (wf : h'.WellFormed)
    (ht : t = u ++ (h'.spelled ++ r)) (hline : newlines u = newlines s.1) :
    byteSize s.1 ≤ byteSize u := by
  obtain ⟨a, lead, hs, ha, hlead, hbare⟩ := h.line
  obtain ⟨b, lead', rfl, hb, hlead'⟩ := exists_line u
  obtain ⟨after, htext, -⟩ := h.text
  rw [hs, List.append_assoc] at htext
  rw [List.append_assoc] at ht
  have hsame : a = b := by
    refine ha.unique hb (htext.symm.trans ht) ?_
    rw [hs, newlines_append, newlines_append, newlines_eq_zero_iff.2 hlead,
      newlines_eq_zero_iff.2 hlead'] at hline
    exact hline.symm
  subst hsame
  have hrest := List.append_cancel_left (htext.symm.trans ht)
  have hfirst : first? (lead ++ (s.2.header.spelled ++ (s.2.table.text ++ after))) =
      some (lead, s.2.header, s.2.table.text ++ after) :=
    first?_eq_some_iff_bare.2 ⟨rfl, h.wf, hbare⟩
  have hle := length_le_of_first? hfirst wf hrest
  -- both are front parts of one text
  rcases List.append_eq_append_iff.1 hrest with ⟨w, rfl, -⟩ | ⟨w, rfl, -⟩
  · rw [hs]
    simp only [byteSize_append]
    omega
  · rw [List.length_append] at hle
    have hw : w = [] := List.length_eq_zero_iff.1 (by omega)
    exact Nat.le_of_eq (by rw [hs, hw, List.append_nil])

theorem isPlaced (h : Stands t s) (hne : s.2.table.tokens ≠ []) :
    (s.2.placed s.1).IsPlaced t := by
  obtain ⟨after, ht, -⟩ := h.text
  refine ⟨?_, ?_, ⟨⟨_, _, ht, rfl⟩, s.1 ++ s.2.header.spelled, s.2.table.text ++ after, ?_, ?_⟩,
    ⟨s.2.header, h.wf, rfl, ?_⟩, fun u h' r wf htext hline => h.byteSize_le wf htext hline, ?_,
    hne, ?_⟩
  · exact Nat.lt_add_of_pos_right s.2.header.byteSize_spelled_pos
  · rw [ht]
    simp only [placed, byteSize_append]
    omega
  · rw [ht, List.append_assoc]
  · exact byteSize_append _ _
  · rw [ht]
    exact within_append _ _ _
  · exact congrArg newlines h.takeBytes_before.symm
  · rw [h.table_placed]
    rfl

end Visit.Stands

theorem declared_eq_map_placed (t : Text) :
    Keymap.declared t = (Visit.sites [] (Keymap.visits t)).map fun s => s.2.placed s.1 := by
  rw [declared_eq_map_sites]
  apply List.map_congr_left
  intro s hs
  rw [Visit.layer, (stands_of_mem_sites hs).lineAt_before]
  rfl

theorem mem_declared_of_mem_sites {t : Text} {s : Text × Visit}
    (hs : s ∈ Visit.sites [] (Keymap.visits t)) : s.2.placed s.1 ∈ Keymap.declared t := by
  rw [declared_eq_map_placed]
  exact List.mem_map_of_mem hs

theorem exists_stands_of_mem_declared {t : Text} {l : Layer} (h : l ∈ Keymap.declared t) :
    ∃ s, Visit.Stands t s ∧ l = s.2.placed s.1 := by
  rw [declared_eq_map_placed] at h
  obtain ⟨s, hs, rfl⟩ := List.mem_map.1 h
  exact ⟨s, stands_of_mem_sites hs, rfl⟩

theorem mem_layers_iff {t : Text} {l : Layer} :
    l ∈ Keymap.layers t ↔ l ∈ Keymap.declared t ∧ l.tokens ≠ [] := by
  rw [Keymap.layers, List.mem_filter, decide_eq_true_eq]

theorem isPlaced_of_mem_layers {t : Text} {l : Layer} (h : l ∈ Keymap.layers t) : l.IsPlaced t := by
  obtain ⟨hdeclared, htokens⟩ := mem_layers_iff.1 h
  obtain ⟨s, hs, rfl⟩ := exists_stands_of_mem_declared hdeclared
  exact hs.isPlaced htokens

/-! ## The order of visits -/

theorem Visits.newlines_lt_of_mem_sites {x : Text} {vs : List Visit} (h : Visits .tableEnd x vs)
    {front : Text} {s : Text × Visit} (hs : s ∈ Visit.sites front vs) :
    newlines front < newlines s.1 := by
  induction vs generalizing front x with
  | nil => cases hs
  | cons v vs ih =>
    obtain ⟨after, -, hgap, -, -, hlater⟩ := h.inv
    rw [Visit.sites, List.mem_cons] at hs
    rcases hs with rfl | hs
    · -- the line of the table before is passed over
      have hpos : 0 < newlines v.gap := List.count_pos_iff.2 hgap.1
      rw [newlines_append]
      omega
    · exact Nat.lt_of_le_of_lt (newlines_le_of_append front v.text) (ih hlater hs)

theorem Visits.pairwise_sites {p : Place} {x : Text} {vs : List Visit} (h : Visits p x vs)
    (front : Text) : (Visit.sites front vs).Pairwise fun s s' =>
      newlines (Visit.through s) < newlines s'.1 ∧ byteSize (Visit.through s) ≤ byteSize s'.1 := by
  induction h generalizing front with
  | none _ => exact List.Pairwise.nil
  | @visit p v after vs hgap wf htable hlater ih =>
    rw [Visit.sites, List.pairwise_cons]
    refine ⟨fun s hs => ?_, ih _⟩
    have hthrough : Visit.through (front ++ v.gap, v) = front ++ v.text := by
      rw [Visit.through, Visit.text, List.append_assoc]
    rw [hthrough]
    exact ⟨hlater.newlines_lt_of_mem_sites hs, (Visit.bounds_of_mem_sites hs).1⟩

theorem Visit.Stands.precedes {t : Text} {s s' : Text × Visit} (h : Stands t s) (h' : Stands t s')
    (hlines : newlines (through s) < newlines s'.1)
    (hbytes : byteSize (through s) ≤ byteSize s'.1) :
    (s.2.placed s.1).Precedes t (s'.2.placed s'.1) := by
  obtain ⟨after, ht⟩ := h.eq_through_append
  have hstop := h.tableStop_placed
  -- up to the end of the one and from the start of the other
  have hfirst : ∀ m, m ≤ byteSize (through s) → newlines (takeBytes m t) ≤ newlines (through s) := by
    intro m hm
    have hle := newlines_takeBytes_le hm t
    rwa [ht, takeBytes_append, ← ht] at hle
  have hlast : ∀ n, byteSize s'.1 ≤ n → newlines s'.1 ≤ newlines (takeBytes n t) := by
    intro n hn
    have hle := newlines_takeBytes_le hn t
    rwa [h'.takeBytes_before] at hle
  refine ⟨?_, by rw [hstop]; exact hbytes, fun m n hm hn => ?_⟩
  · rw [Layer.lastLine, hstop]
    exact Nat.lt_of_le_of_lt (hfirst _ (Nat.sub_le _ _)) hlines
  · rw [hstop] at hm
    have hle := hfirst m (Nat.le_of_lt hm)
    have hge := hlast n hn
    omega

theorem pairwise_declared (t : Text) : (Keymap.declared t).Pairwise (Layer.Precedes t) := by
  rw [declared_eq_map_placed, List.pairwise_map]
  refine ((visits_read t).pairwise_sites []).imp_of_mem ?_
  intro s s' hs hs' hlines
  exact (stands_of_mem_sites hs).precedes (stands_of_mem_sites hs') hlines.1 hlines.2

theorem eq_or_precedes {t : Text} {l d : Layer} (hl : l ∈ Keymap.declared t)
    (hd : d ∈ Keymap.declared t) : l = d ∨ l.Precedes t d ∨ d.Precedes t l := by
  have hpairs := pairwise_declared t
  exact List.Pairwise.forall_of_forall_of_flip (R := fun l d => l = d ∨ l.Precedes t d ∨ d.Precedes t l)
    (fun _ _ => Or.inl rfl) (hpairs.imp fun h => Or.inr (Or.inl h))
    (hpairs.imp fun h => Or.inr (Or.inr h)) hl hd

theorem layers_placed (t : Text) :
    (∀ l ∈ Keymap.layers t, l.IsPlaced t) ∧
      (Keymap.layers t).Pairwise (Layer.Precedes t) ∧
      ∀ l ∈ Keymap.layers t, ∀ d ∈ Keymap.declared t,
        l.declaration.start ≤ d.declaration.start ∨ d.tableStop t ≤ l.declaration.start := by
  have hplaced : ∀ l ∈ Keymap.layers t, l.IsPlaced t := by
    intro l hl
    obtain ⟨hdeclared, htokens⟩ := mem_layers_iff.1 hl
    obtain ⟨s, hs, rfl⟩ := exists_stands_of_mem_declared hdeclared
    exact hs.isPlaced htokens
  refine ⟨hplaced, (pairwise_declared t).filter _, fun l hl d hd => ?_⟩
  rcases eq_or_precedes (mem_layers_iff.1 hl).1 hd with rfl | h | h
  · exact Or.inl (Nat.le_refl _)
  · have hstop : l.declaration.start ≤ l.tableStop t :=
      Nat.le_trans (Nat.le_of_lt (hplaced l hl).nonempty) (Nat.le_add_right _ _)
    exact Or.inl (Nat.le_trans hstop h.bytes)
  · exact Or.inr h.bytes

/-! ## A text with headers that are no layers -/

namespace Sample

/-- A declaration behind a comment, with a header in a comment of its table. -/
def crowded : Visit where
  gap := "/* é */ ".toList
  header := Header.canonical ['A']
  table := ⟨"K, // [B] = LAYOUT(\n)".toList, [['K']], true⟩

/-- The rest of the line that the table ends on, with a header. -/
def hidden : Text := ", [C] = LAYOUT(K)\n".toList

/-- A declaration that is never closed, with a header among its tokens. -/
def unclosed : Visit where
  gap := []
  header := ⟨['D'], [' '], [' '], [], ['\t'], []⟩
  table := ⟨"K, [E] = LAYOUT(K)\n".toList, [['K'], "[E] = LAYOUT(K)".toList], false⟩

def layout : Text := crowded.text ++ hidden ++ unclosed.text

theorem wellFormed_unclosed : unclosed.header.WellFormed :=
  (Header.read?_eq_some_iff.1
    (show Header.read? unclosed.header.spelled = some (unclosed.header, []) by decide)).2

theorem visits_layout : Keymap.visits layout = [crowded, { unclosed with gap := hidden }] := by
  have hlast : Visits .tableEnd (Visit.text { unclosed with gap := hidden } ++ [])
      [{ unclosed with gap := hidden }] :=
    .visit ⟨by decide, by decide +kernel⟩ wellFormed_unclosed (by decide +kernel)
      (.none Header.bare_nil)
  have hall : Visits .lineStart (crowded.text ++ (Visit.text { unclosed with gap := hidden } ++ []))
      [crowded, { unclosed with gap := hidden }] :=
    .visit (show Header.Bare _ by decide)
      (Header.wellFormed_canonical (Header.isName_singleton rfl)) (by decide +kernel) hlast
  exact hall.eq_visits

theorem layers_layout : Keymap.layers layout =
    [crowded.placed crowded.gap, unclosed.placed (crowded.text ++ hidden)] := by
  rw [Keymap.layers, declared_eq_map_placed, visits_layout]
  decide +kernel

end Sample

theorem layers_placed_sample : ∃ a d, Keymap.layers Sample.layout = [a, d] ∧
    a.name = ['A'] ∧ d.name = ['D'] ∧ d.line = 2 ∧ a.IsPlaced Sample.layout ∧
    d.IsPlaced Sample.layout ∧ a.Precedes Sample.layout d := by
  obtain ⟨hplaced, hpairs, _⟩ := layers_placed Sample.layout
  rw [Sample.layers_layout] at hplaced hpairs
  rw [List.pairwise_pair] at hpairs
  refine ⟨_, _, Sample.layers_layout, rfl, rfl, ?_, hplaced _ ?_, hplaced _ ?_, hpairs⟩
  · decide
  · simp
  · simp

end KeyChart
