import KeyChart.Proofs.Keymap.Placement

/-!
The layers of a text put behind another. If the first text consists of whole lines and each of its tables
ends inside it, the reading makes the visits of the first text and then those of the second
(`visits_append`), and the layers are those of both, the second ones moved by the size of the first text
(`layers_append`).
-/

namespace KeyChart

open Text Header

/-- The layer as it stands once `front` is put in front of its text. -/
def Layer.behind (front : Text) (l : Layer) : Layer where
  name := l.name
  tokens := l.tokens
  line := newlines front + l.line
  declaration := ⟨byteSize front + l.declaration.start, byteSize front + l.declaration.stop⟩

/-- Visits with more text in front of the first one. -/
def Visit.ahead (tail : Text) : List Visit → List Visit
  | [] => []
  | v :: vs => { v with gap := tail ++ v.gap } :: vs

/-! ## The border of the two texts -/

/-- No header reaches over the end of a line. -/
theorem Text.IsLines.bare_append {u v : Text} (h : IsLines u) (hu : Bare u) (hv : Bare v) :
    Bare (u ++ v) := by
  rcases h.eq_nil_or_concat with rfl | ⟨w, rfl⟩
  · exact hv
  · have hline : Bare ('\n' :: v) := hv.cons (by decide)
    rw [List.append_assoc, List.singleton_append]
    exact hu.left.append_stop hline (by decide)

theorem Place.searched_append {p : Place} {tail : Text} (hmem : '\n' ∈ tail) (v : Text) :
    p.searched (tail ++ v) = p.searched tail ++ v := by
  cases p with
  | lineStart => rfl
  | tableEnd => exact nextLines_append_of_mem hmem v

theorem Place.isLines_searched {p : Place} {tail : Text} (h : IsLines tail) :
    IsLines (p.searched tail) := by
  rw [← p.passed_append_searched tail] at h
  exact h.right

theorem Place.admits_append {p : Place} {tail gap : Text} (hlines : IsLines tail)
    (hne : tail ≠ []) (htail : Bare (p.searched tail)) (hgap : Bare gap) :
    p.Admits (tail ++ gap) := by
  have hmem := hlines.mem_newline hne
  have hbare : Bare (p.searched (tail ++ gap)) := by
    rw [searched_append hmem]
    exact (isLines_searched hlines).bare_append htail hgap
  cases p with
  | lineStart => exact hbare
  | tableEnd => exact ⟨List.mem_append_left gap hmem, hbare⟩

/-- Behind whole lines without a visit, the visits are those from the start of a line. -/
theorem Visits.ahead {p : Place} {tail t : Text} {vs : List Visit} (h : Visits p tail [])
    (hlines : IsLines tail) (hne : tail ≠ []) (hv : Visits .lineStart t vs) :
    Visits p (tail ++ t) (Visit.ahead tail vs) := by
  cases vs with
  | nil =>
    have hbare : Bare t := hv.bare
    refine .none ?_
    rw [Place.searched_append (hlines.mem_newline hne)]
    exact (Place.isLines_searched hlines).bare_append h.bare hbare
  | cons v vs =>
    obtain ⟨after, rfl, hgap, wf, htable, hlater⟩ := hv.inv
    have hvisit : Visits p (Visit.text { v with gap := tail ++ v.gap } ++ after)
        ({ v with gap := tail ++ v.gap } :: vs) :=
      .visit (Place.admits_append hlines hne h.bare hgap) wf htable hlater
    rw [Visit.text, List.append_assoc, List.append_assoc, ← List.append_assoc v.gap] at hvisit
    exact hvisit

/-- A reading of whole lines goes on as it would start in the text behind them. -/
theorem Visits.append {p : Place} {tail t : Text} {us vs : List Visit}
    (h : Visits p (us.flatMap Visit.text ++ tail) us) (hlines : IsLines tail) (hne : tail ≠ [])
    (hv : Visits .lineStart t vs) :
    Visits p (us.flatMap Visit.text ++ (tail ++ t)) (us ++ Visit.ahead tail vs) := by
  have hnone : Visits p ((us ++ []).flatMap Visit.text ++ tail) (us ++ []) := by
    rwa [List.append_nil]
  have hstart : ∃ q, Visits q tail [] := hnone.exists_place
  obtain ⟨q, hq⟩ := hstart
  obtain ⟨rest, hrest⟩ := (hq.ahead hlines hne hv).exists_tail
  have hmore : ∀ q, Visits q tail [] →
      Visits q ((Visit.ahead tail vs).flatMap Visit.text ++ rest) (Visit.ahead tail vs) := by
    intro q hq
    have hahead := hq.ahead hlines hne hv
    rwa [hrest] at hahead
  have hall : Visits p ((us ++ Visit.ahead tail vs).flatMap Visit.text ++ rest)
      (us ++ Visit.ahead tail vs) :=
    hnone.append_congr (fun hnil => absurd hnil hne) hmore
  rwa [List.flatMap_append, List.append_assoc, ← hrest] at hall

/-! ## Both readings -/

variable {a : Text}

/-- Behind the last table there are whole lines, unless the text is empty. -/
theorem exists_tail (hlines : IsLines a)
    (hclosed : ∀ l ∈ Keymap.declared a, l.tableStop a < byteSize a) :
    ∃ tail, a = (Keymap.visits a).flatMap Visit.text ++ tail ∧ IsLines tail ∧
      (tail = [] → a = []) := by
  obtain ⟨tail, ha⟩ := (visits_read a).exists_tail
  refine ⟨tail, ha, ?_, fun hnil => ?_⟩
  · rw [ha] at hlines
    exact hlines.right
  · rw [hnil, List.append_nil] at ha
    rcases List.eq_nil_or_concat (Keymap.visits a) with hvisits | ⟨vs, v, hvisits⟩
    · rw [ha, hvisits]
      rfl
    · exfalso
      -- the table of the last visit would end with the text
      have hsites : (vs.flatMap Visit.text ++ v.gap, v) ∈ Visit.sites [] (Keymap.visits a) := by
        rw [hvisits, List.concat_eq_append, Visit.sites_append]
        exact List.mem_append_right _ List.mem_cons_self
      have hlt := hclosed _ (mem_declared_of_mem_sites hsites)
      have hstop := (stands_of_mem_sites hsites).tableStop_placed
      have hthrough : Visit.through (vs.flatMap Visit.text ++ v.gap, v) = a := by
        calc Visit.through (vs.flatMap Visit.text ++ v.gap, v)
            = (vs.concat v).flatMap Visit.text := by simp [Visit.through, Visit.text]
          _ = a := by rw [← hvisits, ← ha]
      rw [hthrough] at hstop
      omega

theorem visits_append {tail : Text} (b : Text)
    (ha : a = (Keymap.visits a).flatMap Visit.text ++ tail) (hlines : IsLines tail)
    (hne : tail ≠ []) :
    Keymap.visits (a ++ b) = Keymap.visits a ++ Visit.ahead tail (Keymap.visits b) := by
  have hread : Visits .lineStart ((Keymap.visits a).flatMap Visit.text ++ tail) (Keymap.visits a) := by
    rw [← ha]
    exact visits_read a
  have hall := hread.append hlines hne (visits_read b)
  rw [← List.append_assoc, ← ha] at hall
  exact hall.eq_visits

/-! ## Both lists of layers -/

theorem Visit.placed_append (v : Visit) (front before : Text) :
    v.placed (front ++ before) = (v.placed before).behind front := by
  simp only [placed, Layer.behind, newlines_append, byteSize_append, Nat.add_assoc]

theorem Visit.map_placed_sites (front before : Text) (vs : List Visit) :
    (sites (front ++ before) vs).map (fun s => s.2.placed s.1) =
      ((sites before vs).map fun s => s.2.placed s.1).map (Layer.behind front) := by
  induction vs generalizing before with
  | nil => rfl
  | cons v vs ih =>
    simp only [sites, List.map_cons, List.append_assoc, ih]
    rw [v.placed_append]

theorem Visit.map_placed_ahead (front tail : Text) (vs : List Visit) :
    (sites front (ahead tail vs)).map (fun s => s.2.placed s.1) =
      (sites (front ++ tail) vs).map fun s => s.2.placed s.1 := by
  cases vs with
  | nil => rfl
  | cons v vs =>
    simp only [ahead, sites, List.map_cons, placed, text, List.append_assoc]

theorem declared_of_bare {t : Text} (h : Bare t) : Keymap.declared t = [] := by
  have hvisits : Keymap.visits t = [] := Visits.eq_visits (.none h)
  rw [declared_eq_map_placed, hvisits]
  rfl

theorem declared_append (b : Text) (hlines : IsLines a)
    (hclosed : ∀ l ∈ Keymap.declared a, l.tableStop a < byteSize a) :
    Keymap.declared (a ++ b) =
      Keymap.declared a ++ (Keymap.declared b).map (Layer.behind a) := by
  obtain ⟨tail, ha, htail, hnil⟩ := exists_tail hlines hclosed
  by_cases hne : tail = []
  · have hnone : Keymap.declared [] = [] := declared_of_bare bare_nil
    have hsame : Layer.behind [] = id := by
      funext l
      simp [Layer.behind, byteSize]
    rw [hnil hne, hnone, hsame, List.map_id, List.nil_append, List.nil_append]
  · have hfront : [] ++ (Keymap.visits a).flatMap Visit.text ++ tail = a ++ [] := by
      rw [List.nil_append, List.append_nil, ← ha]
    simp only [declared_eq_map_placed]
    rw [visits_append b ha htail hne, Visit.sites_append, List.map_append, Visit.map_placed_ahead,
      hfront, Visit.map_placed_sites]

theorem layers_append (b : Text) (hlines : IsLines a)
    (hclosed : ∀ l ∈ Keymap.declared a, l.tableStop a < byteSize a) :
    Keymap.layers (a ++ b) = Keymap.layers a ++ (Keymap.layers b).map (Layer.behind a) := by
  rw [Keymap.layers, declared_append b hlines hclosed, List.filter_append, List.filter_map]
  rfl

/-- Whole lines without a header move the layers behind them and have none of their own. -/
theorem layers_append_of_bare (hlines : IsLines a) (hbare : Bare a) (b : Text) :
    Keymap.layers (a ++ b) = (Keymap.layers b).map (Layer.behind a) := by
  have hnone := declared_of_bare hbare
  have hclosed : ∀ l ∈ Keymap.declared a, l.tableStop a < byteSize a := by simp [hnone]
  rw [Keymap.layers, declared_append b hlines hclosed, hnone, List.nil_append, List.filter_map]
  rfl

namespace Sample

/-- A declaration whose table ends before the line does. -/
def front : Text := crowded.text ++ hidden

theorem visits_front : Keymap.visits front = [crowded] := by
  have hlast : Visits .tableEnd hidden [] := .none (show Bare (nextLines hidden) by decide)
  have hall : Visits .lineStart (crowded.text ++ hidden) [crowded] :=
    .visit (show Bare _ by decide) (wellFormed_canonical (isName_singleton rfl))
      (by decide) hlast
  exact hall.eq_visits

theorem declared_front : Keymap.declared front = [crowded.placed crowded.gap] := by
  rw [declared_eq_map_placed, visits_front]
  rfl

theorem layers_front : Keymap.layers front = [⟨['A'], [['K']], 0, ⟨9, 22⟩⟩] := by
  rw [Keymap.layers, declared_front]
  decide

theorem layers_unclosed : Keymap.layers unclosed.text =
    [⟨['D'], [['K'], "[E] = LAYOUT(K)".toList], 0, ⟨0, 14⟩⟩] := by
  have hvisits : Keymap.visits unclosed.text = [unclosed] := by
    have hall : Visits .lineStart (unclosed.text ++ []) [unclosed] :=
      .visit (show Bare _ by decide) wellFormed_unclosed (by decide) (.none bare_nil)
    exact hall.eq_visits
  rw [Keymap.layers, declared_eq_map_placed, hvisits]
  decide

end Sample

theorem layers_append_sample : IsLines Sample.front ∧
    (∀ l ∈ Keymap.declared Sample.front, l.tableStop Sample.front < byteSize Sample.front) ∧
    Keymap.layers Sample.front = [⟨['A'], [['K']], 0, ⟨9, 22⟩⟩] ∧
    Keymap.layers Sample.unclosed.text = [⟨['D'], [['K'], "[E] = LAYOUT(K)".toList], 0, ⟨0, 14⟩⟩] ∧
    Keymap.layers (Sample.front ++ Sample.unclosed.text) =
      [⟨['A'], [['K']], 0, ⟨9, 22⟩⟩,
        ⟨['D'], [['K'], "[E] = LAYOUT(K)".toList], 2, ⟨61, 75⟩⟩] := by
  have hlines : IsLines Sample.front := by decide
  have hclosed : ∀ l ∈ Keymap.declared Sample.front,
      l.tableStop Sample.front < byteSize Sample.front := by
    rw [Sample.declared_front]
    decide
  refine ⟨hlines, hclosed, Sample.layers_front, Sample.layers_unclosed, ?_⟩
  rw [layers_append _ hlines hclosed, Sample.layers_front, Sample.layers_unclosed]
  decide

end KeyChart
