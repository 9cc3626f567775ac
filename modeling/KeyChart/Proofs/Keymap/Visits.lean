import KeyChart.Keymap.Layer
import KeyChart.Proofs.Keymap.Bare
import KeyChart.Proofs.Keymap.Closed
import KeyChart.Proofs.Text.Cuts

/-!
The reading of a source as a relation. A visit is a declaration with all the text since the table
before it; `Visits p t vs` says that a reading of `t` from place `p` makes the visits `vs`. Main
statements: the relation has one answer for each text (`Visits.unique`), it is what the reader finds
(`visits_read`), and the layers of a text are those of its visits, each at the place where the visit
stands (`declared_eq_map_sites`).
-/

namespace KeyChart

/-- A declaration that a reading comes to, behind all the text since the table before it. -/
structure Visit where
  gap : Text
  header : Header
  table : Table
  deriving DecidableEq, Repr

/-- Where a reading goes on: at the start of a line, or behind a table, whose line it passes over. -/
inductive Place
  | lineStart
  | tableEnd
  deriving DecidableEq, Repr

namespace Place

def passed : Place → Text → Text
  | lineStart, _ => []
  | tableEnd, t => Text.lineRest t

def searched : Place → Text → Text
  | lineStart, t => t
  | tableEnd, t => Text.nextLines t

/-- A header behind this text is the first one that is seen. -/
def Admits : Place → Text → Prop
  | lineStart, gap => Header.Bare gap
  | tableEnd, gap => '\n' ∈ gap ∧ Header.Bare (Text.nextLines gap)

theorem passed_append_searched (p : Place) (t : Text) : p.passed t ++ p.searched t = t := by
  cases p with
  | lineStart => rfl
  | tableEnd => exact Text.lineRest_append_nextLines t

theorem Admits.bare {p : Place} {gap : Text} (h : p.Admits gap) : Header.Bare (p.searched gap) := by
  cases p with
  | lineStart => exact h
  | tableEnd => exact h.2

theorem Admits.searched_append {p : Place} {gap : Text} (h : p.Admits gap) (t : Text) :
    p.searched (gap ++ t) = p.searched gap ++ t := by
  cases p with
  | lineStart => rfl
  | tableEnd => exact Text.nextLines_append_of_mem h.1 t

theorem Admits.passed_append {p : Place} {gap : Text} (h : p.Admits gap) (t : Text) :
    p.passed (gap ++ t) = p.passed gap := by
  cases p with
  | lineStart => rfl
  | tableEnd => exact Text.lineRest_append_of_mem h.1 t

end Place

namespace Visit

def text (v : Visit) : Text := v.gap ++ (v.header.spelled ++ v.table.text)

/-- The bytes of header and table, given the text before the header. -/
def extent (v : Visit) (before : Text) : Text.Span where
  start := Text.byteSize before
  stop := Text.byteSize before + Text.byteSize v.header.spelled + Text.byteSize v.table.text

/-- The layer that the visit finds, given the text before the header. -/
def layer (v : Visit) (lineStarts : Array Nat) (before : Text) : Layer where
  name := v.header.name
  tokens := v.table.tokens
  line := Text.lineAt lineStarts (Text.byteSize before)
  declaration := ⟨Text.byteSize before, Text.byteSize before + Text.byteSize v.header.spelled⟩

theorem text_ne_nil (v : Visit) : v.text ≠ [] := by
  simp [text, Header.spelled_ne_nil]

end Visit

/-- The visits that a reading of a text makes from a place on. -/
inductive Visits : Place → Text → List Visit → Prop
  | none {p : Place} {t : Text} (hbare : Header.Bare (p.searched t)) : Visits p t []
  | visit {p : Place} {v : Visit} {after : Text} {vs : List Visit} (hgap : p.Admits v.gap)
      (wf : v.header.WellFormed) (htable : Table.read (v.table.text ++ after) = (v.table, after))
      (hlater : Visits .tableEnd after vs) : Visits p (v.text ++ after) (v :: vs)

/-! ## One answer for each text -/

theorem Table.read_append_of_read {table : Table} {after after' : Text}
    (h : read (table.text ++ after) = (table, after)) (hnil : after = [] → after' = []) :
    read (table.text ++ after') = (table, after') := by
  have hfst : (read (table.text ++ after)).1 = table := by rw [h]
  cases hc : table.closed with
  | true =>
    have hread := read_append_of_closed (t := table.text ++ after) (by rw [hfst, hc]) after'
    rwa [hfst] at hread
  | false =>
    -- nothing follows a table that is not closed
    have hrest := (text_of_not_closed (t := table.text ++ after) (by rw [hfst, hc])).2
    rw [h] at hrest
    have hafter : after = [] := hrest
    rw [hnil hafter, ← hafter]
    exact h

theorem Visits.bare {p : Place} {t : Text} (h : Visits p t []) : Header.Bare (p.searched t) := by
  cases h with
  | none hbare => exact hbare

theorem Visits.inv {p : Place} {t : Text} {v : Visit} {vs : List Visit}
    (h : Visits p t (v :: vs)) : ∃ after, t = v.text ++ after ∧ p.Admits v.gap ∧
      v.header.WellFormed ∧ Table.read (v.table.text ++ after) = (v.table, after) ∧
      Visits .tableEnd after vs := by
  cases h with
  | visit hgap wf htable hlater => exact ⟨_, rfl, hgap, wf, htable, hlater⟩

theorem Visits.first? {p : Place} {t : Text} {v : Visit} {vs : List Visit}
    (h : Visits p t (v :: vs)) : ∃ after,
      Header.first? (p.searched t) = some (p.searched v.gap, v.header, v.table.text ++ after) ∧
      p.passed t = p.passed v.gap ∧ Table.read (v.table.text ++ after) = (v.table, after) ∧
      Visits .tableEnd after vs := by
  obtain ⟨after, rfl, hgap, wf, htable, hlater⟩ := h.inv
  refine ⟨after, ?_, ?_, htable, hlater⟩
  · rw [Visit.text, List.append_assoc, List.append_assoc, hgap.searched_append]
    exact Header.first?_eq_some_iff_bare.2 ⟨rfl, wf, hgap.bare⟩
  · rw [Visit.text, List.append_assoc, hgap.passed_append]

theorem Visits.unique {p : Place} {t : Text} {vs ws : List Visit} (hv : Visits p t vs)
    (hw : Visits p t ws) : vs = ws := by
  induction vs generalizing p t ws with
  | nil =>
    cases ws with
    | nil => rfl
    | cons w ws =>
      obtain ⟨after, hfirst, _⟩ := hw.first?
      have hbare := hv.bare
      rw [Header.Bare, hfirst] at hbare
      cases hbare
  | cons v vs ih =>
    obtain ⟨after, hfirst, hpass, htable, hlater⟩ := hv.first?
    cases ws with
    | nil =>
      have hbare := hw.bare
      rw [Header.Bare, hfirst] at hbare
      cases hbare
    | cons w ws =>
      obtain ⟨after', hfirst', hpass', htable', hlater'⟩ := hw.first?
      -- both find the same first header behind the same text, and the table is read from the rest
      rw [hfirst, Option.some.injEq, Prod.mk.injEq, Prod.mk.injEq] at hfirst'
      obtain ⟨hgap, hheader, hrest⟩ := hfirst'
      rw [← hrest, htable, Prod.mk.injEq] at htable'
      obtain ⟨htab, hafter⟩ := htable'
      have hgaps : v.gap = w.gap := by
        rw [← p.passed_append_searched v.gap, ← p.passed_append_searched w.gap, ← hpass, ← hpass',
          hgap]
      have hvw : v = w := by
        cases v
        cases w
        simp_all
      rw [hvw, ih hlater (hafter ▸ hlater')]

/-! ## What the reader finds -/

/-- Declarations as visits; `carry` is the text from the table before on. -/
def Visit.ofDeclarations (carry : Text) : List Declaration → List Visit
  | [] => []
  | d :: ds => ⟨carry ++ d.lead, d.header, d.table⟩ :: ofDeclarations d.trail ds

/-- The visits of a reading of a whole text. -/
def Keymap.visits (t : Text) : List Visit := Visit.ofDeclarations [] (Keymap.read t).declarations

theorem Visits.behind_line {t : Text} {ds : List Declaration}
    (h : Visits .lineStart (Text.nextLines t) (Visit.ofDeclarations [] ds)) :
    Visits .tableEnd t (Visit.ofDeclarations (Text.lineRest t) ds) := by
  cases ds with
  | nil => exact .none h.bare
  | cons d ds =>
    rw [Visit.ofDeclarations] at h ⊢
    obtain ⟨after, hs, hgap, wf, htable, hlater⟩ := h.inv
    rw [List.nil_append] at hgap
    -- what follows the line is not empty, so the line has its newline
    have hne : Text.nextLines t ≠ [] := by
      rw [hs]
      simp [Visit.text_ne_nil]
    have hmem := Text.mem_lineRest_of_nextLines_ne_nil hne
    have hv : Visits .tableEnd
        (Visit.text ⟨Text.lineRest t ++ d.lead, d.header, d.table⟩ ++ after)
        (⟨Text.lineRest t ++ d.lead, d.header, d.table⟩ :: Visit.ofDeclarations d.trail ds) := by
      refine .visit ⟨List.mem_append_left _ hmem, ?_⟩ wf htable hlater
      rw [Text.nextLines_lineRest_append hmem]
      exact hgap
    have ht : Visit.text ⟨Text.lineRest t ++ d.lead, d.header, d.table⟩ ++ after = t := by
      calc Visit.text ⟨Text.lineRest t ++ d.lead, d.header, d.table⟩ ++ after
          = Text.lineRest t ++ (Visit.text ⟨[] ++ d.lead, d.header, d.table⟩ ++ after) := by
            simp [Visit.text]
        _ = Text.lineRest t ++ Text.nextLines t := by rw [hs]
        _ = t := Text.lineRest_append_nextLines t
    rwa [ht] at hv

theorem visits_read (t : Text) : Visits .lineStart t (Keymap.visits t) := by
  rw [Keymap.visits]
  fun_induction Keymap.read t with
  | case1 t hfirst => exact .none hfirst
  | case2 t lead header rest hfirst table later ih =>
    obtain ⟨ht, wf, hbare⟩ := Header.first?_eq_some_iff_bare.1 hfirst
    have hrest := Table.text_append_rest rest
    have hread : Table.read ((Table.read rest).1.text ++ (Table.read rest).2) =
        ((Table.read rest).1, (Table.read rest).2) := by rw [hrest]
    have hv := Visits.visit (p := .lineStart) (v := ⟨lead, header, table.1⟩) hbare wf hread
      (Visits.behind_line ih)
    have htext : Visit.text ⟨lead, header, table.1⟩ ++ (Table.read rest).2 = t := by
      rw [ht, Visit.text, List.append_assoc, List.append_assoc, hrest]
    rwa [htext] at hv

theorem Visits.eq_visits {t : Text} {vs : List Visit} (h : Visits .lineStart t vs) :
    Keymap.visits t = vs :=
  (visits_read t).unique h

theorem Visits.exists_tail {p : Place} {t : Text} {vs : List Visit} (h : Visits p t vs) :
    ∃ tail, t = vs.flatMap Visit.text ++ tail := by
  induction h with
  | none _ => exact ⟨_, rfl⟩
  | visit _ _ _ _ ih =>
    obtain ⟨tail, ht⟩ := ih
    exact ⟨tail, by rw [ht, List.flatMap_cons, List.append_assoc]⟩

/-! ## Other visits behind the first ones -/

theorem Visits.exists_place {p : Place} {tail : Text} {us vs : List Visit}
    (h : Visits p ((us ++ vs).flatMap Visit.text ++ tail) (us ++ vs)) :
    ∃ q, Visits q (vs.flatMap Visit.text ++ tail) vs := by
  induction us generalizing p with
  | nil => exact ⟨p, h⟩
  | cons u us ih =>
    rw [List.cons_append, List.flatMap_cons, List.append_assoc] at h
    obtain ⟨after, htext, _, _, _, hlater⟩ := h.inv
    rw [← List.append_cancel_left htext] at hlater
    exact ih hlater

/-- The first visits are made again in front of a text whose reading makes other visits. -/
theorem Visits.append_congr {p : Place} {tail tail' : Text} {us vs ws : List Visit}
    (h : Visits p ((us ++ vs).flatMap Visit.text ++ tail) (us ++ vs))
    (hnil : vs.flatMap Visit.text ++ tail = [] → ws.flatMap Visit.text ++ tail' = [])
    (hend : ∀ q, Visits q (vs.flatMap Visit.text ++ tail) vs →
      Visits q (ws.flatMap Visit.text ++ tail') ws) :
    Visits p ((us ++ ws).flatMap Visit.text ++ tail') (us ++ ws) := by
  induction us generalizing p with
  | nil => exact hend p h
  | cons u us ih =>
    rw [List.cons_append, List.flatMap_cons, List.append_assoc] at h ⊢
    obtain ⟨after, htext, hgap, wf, htable, hlater⟩ := h.inv
    rw [← List.append_cancel_left htext] at htable hlater
    -- the table of `u` is read as before if it is closed; otherwise it is the end of both texts
    refine .visit hgap wf (Table.read_append_of_read htable fun hempty => ?_) (ih hlater)
    rw [List.flatMap_append, List.append_assoc, List.append_eq_nil_iff] at hempty ⊢
    exact ⟨hempty.1, hnil hempty.2⟩

/-! ## Where visits stand -/

/-- Visits with the text before each of their headers, for a text with `before` in front of it. -/
def Visit.sites (before : Text) : List Visit → List (Text × Visit)
  | [] => []
  | v :: vs => (before ++ v.gap, v) :: sites (before ++ v.text) vs

theorem Visit.sites_append (before : Text) (vs ws : List Visit) :
    sites before (vs ++ ws) = sites before vs ++ sites (before ++ vs.flatMap text) ws := by
  induction vs generalizing before with
  | nil => simp [sites]
  | cons v vs ih => simp [sites, ih]

theorem Header.byteSize_spelled_pos (h : Header) : 0 < Text.byteSize h.spelled :=
  Text.byteSize_pos h.spelled_ne_nil

theorem Visit.exists_append_of_mem_sites {before : Text} {vs : List Visit} {s : Text × Visit}
    (h : s ∈ sites before vs) : ∃ vs₁ vs₂, vs = vs₁ ++ s.2 :: vs₂ ∧
      s.1 = before ++ vs₁.flatMap text ++ s.2.gap := by
  induction vs generalizing before with
  | nil => cases h
  | cons v vs ih =>
    rw [sites, List.mem_cons] at h
    rcases h with rfl | h
    · exact ⟨[], vs, rfl, by simp⟩
    · obtain ⟨vs₁, vs₂, hvs, hs⟩ := ih h
      exact ⟨v :: vs₁, vs₂, by rw [hvs]; rfl, by rw [hs]; simp⟩

theorem Visit.bounds_of_mem_sites {before : Text} {vs : List Visit} {s : Text × Visit}
    (h : s ∈ sites before vs) : Text.byteSize before ≤ Text.byteSize s.1 ∧
      Text.byteSize s.1 + Text.byteSize s.2.header.spelled ≤ Text.byteSize (before ++ vs.flatMap text) := by
  obtain ⟨vs₁, vs₂, hvs, hs⟩ := exists_append_of_mem_sites h
  rw [hs, hvs]
  simp only [List.flatMap_append, List.flatMap_cons, text, Text.byteSize_append]
  omega

theorem Visit.byteSize_gap_le_of_mem_sites {before : Text} {b : Visit} {vs : List Visit}
    {s : Text × Visit} (h : s ∈ sites before (b :: vs)) :
    Text.byteSize (before ++ b.gap) ≤ Text.byteSize s.1 := by
  rw [sites, List.mem_cons] at h
  rcases h with rfl | h
  · exact Nat.le_refl _
  · have hle := (bounds_of_mem_sites h).1
    simp only [text, Text.byteSize_append] at hle ⊢
    omega

/-- Of two visits the first one ends before the header of the other. -/
theorem Visit.extent_stop_le_of_mem_sites {before : Text} {vs : List Visit} {s s' : Text × Visit}
    (h : s ∈ sites before vs) (h' : s' ∈ sites before vs)
    (hlt : Text.byteSize s.1 < Text.byteSize s'.1) :
    (s.2.extent s.1).stop ≤ Text.byteSize s'.1 := by
  induction vs generalizing before with
  | nil => cases h
  | cons v vs ih =>
    rw [sites, List.mem_cons] at h h'
    rcases h with rfl | h
    · rcases h' with rfl | h'
      · exact absurd hlt (Nat.lt_irrefl _)
      · have hle := (bounds_of_mem_sites h').1
        simp only [extent, text, Text.byteSize_append] at hle ⊢
        omega
    · rcases h' with rfl | h'
      · have hle := (bounds_of_mem_sites h).1
        simp only [text, Text.byteSize_append] at hle hlt
        omega
      · exact ih h h'

theorem map_placed_eq_map_sites (lineStarts : Array Nat) (before carry : Text)
    (ds : List Declaration) :
    (Keymap.placed (Text.byteSize (before ++ carry)) ds).map
        (fun p => (p.2.layer lineStarts p.1, p.2.extent p.1)) =
      (Visit.sites before (Visit.ofDeclarations carry ds)).map
        (fun s => (s.2.layer lineStarts s.1, s.2.extent s.1)) := by
  induction ds generalizing before carry with
  | nil => rfl
  | cons d ds ih =>
    have hnext : Text.byteSize (before ++ carry) + Text.byteSize d.text =
        Text.byteSize ((before ++ Visit.text ⟨carry ++ d.lead, d.header, d.table⟩) ++ d.trail) := by
      simp only [Declaration.text, Visit.text, Text.byteSize_append]
      omega
    rw [Visit.ofDeclarations, Visit.sites, Keymap.placed, List.map_cons, List.map_cons, hnext, ih]
    simp only [Declaration.layer, Declaration.headerSpan, Declaration.extent, Visit.layer,
      Visit.extent, Text.byteSize_append, Nat.add_assoc]

theorem map_placed_read (t : Text) :
    (Keymap.placed 0 (Keymap.read t).declarations).map
        (fun p => (p.2.layer (Text.lineStarts t) p.1, p.2.extent p.1)) =
      (Visit.sites [] (Keymap.visits t)).map
        (fun s => (s.2.layer (Text.lineStarts t) s.1, s.2.extent s.1)) :=
  map_placed_eq_map_sites (Text.lineStarts t) [] [] (Keymap.read t).declarations

theorem declared_eq_map_sites (t : Text) :
    Keymap.declared t =
      (Visit.sites [] (Keymap.visits t)).map fun s => s.2.layer (Text.lineStarts t) s.1 := by
  have h := congrArg (List.map Prod.fst) (map_placed_read t)
  rw [List.map_map, List.map_map] at h
  exact h

end KeyChart
