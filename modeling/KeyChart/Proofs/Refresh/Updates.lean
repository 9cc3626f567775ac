import KeyChart.Proofs.Refresh.Plan
import KeyChart.Refresh.Outcome

/-!
The updated layers of a text and their edits. Main statements: they are the plan of the text's visits,
each redrawing at its place (`updates_eq_map_sites`), and a refresh gives the text with each redrawing
drawn (`exists_splice_eq`, `content_eq_splice`).
-/

namespace KeyChart

open Text Comment

/-- The layer and the edit of an update. -/
def Verdict.update? : Verdict → Option (Layer × Edit)
  | updated l e => some (l, e)
  | skipped _ _ => none

/-- The updated layers of a text in order, each with its edit. -/
def updates (t : Text) : List (Layer × Edit) := (verdicts t).filterMap Verdict.update?

theorem sublist_layers (t : Text) : ((updates t).map Prod.fst).Sublist (Keymap.layers t) := by
  have hsub : ∀ vs : List Verdict,
      ((vs.filterMap Verdict.update?).map Prod.fst).Sublist (vs.map Verdict.layer) := by
    intro vs
    induction vs with
    | nil => exact List.Sublist.slnil
    | cons v vs ih =>
      cases v with
      | updated l e => exact ih.cons_cons l
      | skipped l reason => exact ih.cons l
  have hlayers := hsub (verdicts t)
  rwa [verdicts, Verdict.map_layer_judge] at hlayers

/-! ## One verdict -/

theorem Layer.edit_eq_error_of_keyCount {l : Layer} {t : Text}
    (h : l.tokens.length ≠ Diagram.keyCount) : l.edit t = .error (.keyCount l.keyCount) := by
  have hnone : l.diagram? = none := Diagram.draw?_eq_none_iff.2 h
  rw [Layer.edit, hnone]

/-- A visit without a comment behind the last redrawing is skipped, or its edit begins too early. -/
theorem Visit.edit_layer_of_none {t front since rest : Text} {v : Visit} (lineStarts : Array Nat)
    (ht : t = front ++ (since ++ v.gap) ++ rest) (h : v.kept? since = none) :
    (∃ reason, (v.layer lineStarts (front ++ (since ++ v.gap))).edit t = .error reason) ∨
      ∃ e, (v.layer lineStarts (front ++ (since ++ v.gap))).edit t = .ok e ∧
        e.span.start < byteSize front := by
  by_cases hcount : v.table.tokens.length = Diagram.keyCount
  · have hnone : beforeComment? (since ++ v.gap) = none := by
      rwa [Visit.kept?, if_pos hcount] at h
    have hdraw : (v.layer lineStarts (front ++ (since ++ v.gap))).diagram? = _ :=
      Diagram.draw?_of_length hcount
    have hcut : takeBytes (v.layer lineStarts (front ++ (since ++ v.gap))).declaration.start t =
        front ++ (since ++ v.gap) := by
      rw [ht]
      exact takeBytes_append _ _
    rw [Layer.edit, hdraw, hcut]
    cases hb : beforeComment? (front ++ (since ++ v.gap)) with
    | none => exact Or.inl ⟨_, rfl⟩
    | some u =>
      rcases eq_append_or_lt_of_beforeComment? hb with ⟨x, _, hx⟩ | hlt
      · rw [hnone] at hx
        cases hx
      · exact Or.inr ⟨_, rfl, hlt⟩
  · exact Or.inl ⟨_, Layer.edit_eq_error_of_keyCount hcount⟩

/-- A visit with such a comment has the edit of its redrawing. -/
theorem Visit.edit_layer_of_some {t front since kept comment rest : Text} {v : Visit}
    (lineStarts : Array Nat) (ht : t = front ++ (since ++ v.gap) ++ rest)
    (h : v.kept? since = some kept) (hgap : since ++ v.gap = kept ++ comment) :
    (v.layer lineStarts (front ++ (since ++ v.gap))).edit t =
      .ok (Redrawing.edit ⟨kept, comment, v.header, v.table.tokens⟩ .abbreviated
        (front ++ kept)) := by
  obtain ⟨hcount, hb⟩ := Visit.kept?_eq_some_iff.1 h
  have hdraw : (v.layer lineStarts (front ++ (since ++ v.gap))).diagram? = _ :=
    Diagram.draw?_of_length hcount
  have hcut : takeBytes (v.layer lineStarts (front ++ (since ++ v.gap))).declaration.start t =
      front ++ (since ++ v.gap) := by
    rw [ht]
    exact takeBytes_append _ _
  rw [Layer.edit, hdraw, hcut, beforeComment?_append hb]
  simp only [Visit.layer, Redrawing.edit, Redrawing.new, Labelling.abbreviated, Layer.header, hgap,
    List.append_assoc]

/-! ## All verdicts -/

theorem Verdict.filterMap_update?_judge_filter (t : Text) (free : Nat) (ls : List Layer) :
    (judge t free (ls.filter fun l => l.tokens ≠ [])).filterMap update? =
      (judge t free ls).filterMap update? := by
  induction ls generalizing free with
  | nil => rfl
  | cons l ls ih =>
    -- an empty table is skipped for its size, so it may as well be left out
    by_cases hl : l.tokens = []
    · have hcount : l.tokens.length ≠ Diagram.keyCount := by rw [hl]; decide
      rw [List.filter_cons_of_neg (by simp [hl]), ih, judge, Layer.edit_eq_error_of_keyCount hcount]
      rfl
    · rw [List.filter_cons_of_pos (by simp [hl]), judge, judge]
      split
      · exact ih free
      · split
        · exact ih free
        · rw [List.filterMap_cons, List.filterMap_cons, ih]

/-- The judge accepts the planned redrawings, given where the last accepted edit ended. -/
theorem Verdict.filterMap_update?_judge (lineStarts : Array Nat) {t front since tail : Text}
    {vs : List Visit} (ht : t = front ++ (since ++ (vs.flatMap Visit.text ++ tail))) :
    (judge t (byteSize front)
        ((Visit.sites (front ++ since) vs).map fun s => s.2.layer lineStarts s.1)).filterMap update? =
      (Redrawing.sites front (plan since vs).1).map fun p =>
        (p.2.layer lineStarts p.1, p.2.edit .abbreviated p.1) := by
  induction vs generalizing front since with
  | nil => rfl
  | cons v vs ih =>
    have htext : t = front ++ (since ++ v.gap) ++
        (v.header.spelled ++ (v.table.text ++ (vs.flatMap Visit.text ++ tail))) := by
      rw [ht]
      simp only [List.flatMap_cons, Visit.text, List.append_assoc]
    rw [Visit.sites, List.map_cons, judge, List.append_assoc front since v.gap]
    cases hv : v.kept? since with
    | none =>
      -- the layer is skipped, and nothing moves the place where the last edit ended
      have hrest := @ih front (since ++ v.text) (by
        rw [ht]
        simp only [List.flatMap_cons, List.append_assoc])
      rw [plan_cons_of_none hv, ← hrest, List.append_assoc front since v.text]
      rcases Visit.edit_layer_of_none lineStarts htext hv with ⟨reason, he⟩ | ⟨e, he, hlt⟩
      · rw [he]
        rfl
      · simp only [he, if_pos hlt]
        rfl
    | some kept =>
      -- the layer is updated, and judge and plan go on behind its header
      obtain ⟨comment, hgap, _, hplan⟩ := plan_cons_of_some hv vs
      let r : Redrawing := ⟨kept, comment, v.header, v.table.tokens⟩
      have he : (v.layer lineStarts (front ++ (since ++ v.gap))).edit t =
          .ok (r.edit .abbreviated (front ++ kept)) :=
        Visit.edit_layer_of_some lineStarts htext hv hgap
      have hstart : ¬ (r.edit .abbreviated (front ++ kept)).span.start < byteSize front := by
        show ¬ byteSize (front ++ kept) < byteSize front
        rw [byteSize_append]
        omega
      have hstop : (r.edit .abbreviated (front ++ kept)).span.stop =
          byteSize (front ++ (kept ++ r.old)) := by
        simp only [Redrawing.edit, Redrawing.old, r, byteSize_append, Nat.add_assoc]
      have hbehind : front ++ since ++ v.text = front ++ (kept ++ r.old) ++ v.table.text := by
        rw [Visit.text, Redrawing.old, List.append_assoc, ← List.append_assoc since, hgap]
        simp only [List.append_assoc, r]
      have hrest := @ih (front ++ (kept ++ r.old)) v.table.text (by
        rw [htext, hgap]
        simp only [Redrawing.old, List.append_assoc, r])
      have hlayer : v.layer lineStarts (front ++ (since ++ v.gap)) =
          r.layer lineStarts (front ++ kept) := by
        rw [hgap, ← List.append_assoc]
        rfl
      simp only [he, if_neg hstart]
      rw [hplan, hstop, hbehind, List.filterMap_cons, hrest, hlayer]
      rfl

/-! ## The refreshed text -/

/-- The redrawings of a whole text. -/
def redrawings (t : Text) : List Redrawing := (plan [] (Keymap.visits t)).1

theorem updates_eq_map_sites (t : Text) :
    updates t = (Redrawing.sites [] (redrawings t)).map fun p =>
      (p.2.layer (lineStarts t) p.1, p.2.edit .abbreviated p.1) := by
  obtain ⟨tail, ht⟩ := (visits_read t).exists_tail
  rw [updates, verdicts, Keymap.layers, Verdict.filterMap_update?_judge_filter,
    declared_eq_map_sites]
  exact @Verdict.filterMap_update?_judge (lineStarts t) t [] [] tail _ ht

theorem mem_updates_of_mem_sites {t : Text} {p : Text × Redrawing}
    (h : p ∈ Redrawing.sites [] (redrawings t)) :
    (p.2.layer (lineStarts t) p.1, p.2.edit .abbreviated p.1) ∈ updates t := by
  rw [updates_eq_map_sites]
  exact List.mem_map.2 ⟨p, h, rfl⟩

theorem filterMap_edit? (vs : List Verdict) :
    vs.filterMap Verdict.edit? = (vs.filterMap Verdict.update?).map Prod.snd := by
  rw [List.map_filterMap]
  congr 1
  funext v
  cases v <;> rfl

theorem filterMap_updatedName? (vs : List Verdict) :
    vs.filterMap Verdict.updatedName? = (vs.filterMap Verdict.update?).map fun u => u.1.name := by
  rw [List.map_filterMap]
  congr 1
  funext v
  cases v <;> rfl

theorem refresh_eq_ok_iff {t : Text} {o : Outcome} :
    refresh t = .ok o ↔ Keymap.layers t ≠ [] ∧ o = Outcome.ofVerdicts t (verdicts t) := by
  rw [refresh]
  split
  · next h => simp [h]
  · next h => simp [h, eq_comm]

theorem updated_eq {t : Text} {o : Outcome} (h : refresh t = .ok o) :
    o.updated = (redrawings t).map fun r => r.header.name := by
  have hnames : (Redrawing.sites [] (redrawings t)).map (fun p => p.2.header.name) =
      (redrawings t).map fun r => r.header.name := by
    conv => rhs; rw [← Redrawing.map_snd_sites [] (redrawings t), List.map_map]
    rfl
  rw [(refresh_eq_ok_iff.1 h).2, Outcome.ofVerdicts, filterMap_updatedName?, ← updates,
    updates_eq_map_sites, List.map_map, ← hnames]
  rfl

/-- The edits of a text, each drawn with labels of one's choice. -/
def editsWith (label : Labelling) (t : Text) : List Edit :=
  (updates t).map fun u => { u.2 with
    replacement := Diagram.draw u.1.name (label u.1.name u.1.tokens) ++ '\n' :: u.1.header }

theorem editsWith_eq_map_sites (label : Labelling) (t : Text) :
    editsWith label t = (Redrawing.sites [] (redrawings t)).map fun p => p.2.edit label p.1 := by
  rw [editsWith, updates_eq_map_sites, List.map_map]
  rfl

theorem eq_before_append {t tail : Text} (ht : t = (Keymap.visits t).flatMap Visit.text ++ tail) :
    t = Redrawing.before (redrawings t) ++ ((plan [] (Keymap.visits t)).2 ++ tail) := by
  rw [← List.append_assoc, redrawings, plan_text]
  exact ht

theorem splice_editsWith (label : Labelling) {t tail : Text}
    (ht : t = (Keymap.visits t).flatMap Visit.text ++ tail) :
    Edit.splice (editsWith label t) t =
      Redrawing.after label (redrawings t) ++ ((plan [] (Keymap.visits t)).2 ++ tail) := by
  rw [editsWith_eq_map_sites, ← Redrawing.splice_edits, ← eq_before_append ht]

theorem exists_splice_eq (t : Text) :
    ∃ rest, t = Redrawing.before (redrawings t) ++ rest ∧ ∀ label,
      Edit.splice (editsWith label t) t = Redrawing.after label (redrawings t) ++ rest := by
  obtain ⟨tail, ht⟩ := (visits_read t).exists_tail
  exact ⟨_, eq_before_append ht, fun label => splice_editsWith label ht⟩

/-- Where a redrawing stands in the text. -/
theorem exists_eq_append_of_mem_sites {t : Text} {p : Text × Redrawing}
    (hp : p ∈ Redrawing.sites [] (redrawings t)) :
    ∃ rest, t = (p.1 ++ p.2.comment) ++ (p.2.header.spelled ++ rest) := by
  obtain ⟨rest, ht, _⟩ := exists_splice_eq t
  obtain ⟨rs₁, rs₂, hrs, hfront⟩ := Redrawing.exists_append_of_mem_sites hp
  refine ⟨Redrawing.before rs₂ ++ rest, ?_⟩
  rw [hrs, Redrawing.before_append, Redrawing.before_cons] at ht
  rw [hfront]
  simpa [Redrawing.old] using ht

theorem mem_redrawings_of_mem_sites {t : Text} {p : Text × Redrawing}
    (hp : p ∈ Redrawing.sites [] (redrawings t)) : p.2 ∈ redrawings t := by
  have hmem := List.mem_map_of_mem (f := Prod.snd) hp
  rwa [Redrawing.map_snd_sites] at hmem

theorem takeBytes_declaration {t : Text} {p : Text × Redrawing}
    (hp : p ∈ Redrawing.sites [] (redrawings t)) :
    takeBytes (p.2.layer (lineStarts t) p.1).declaration.start t = p.1 ++ p.2.comment := by
  obtain ⟨rest, ht⟩ := exists_eq_append_of_mem_sites hp
  have hcut := takeBytes_append (p.1 ++ p.2.comment) (p.2.header.spelled ++ rest)
  rwa [← ht] at hcut

theorem within_declaration {t : Text} {p : Text × Redrawing}
    (hp : p ∈ Redrawing.sites [] (redrawings t)) :
    within (p.2.layer (lineStarts t) p.1).declaration t = p.2.header.spelled := by
  obtain ⟨rest, ht⟩ := exists_eq_append_of_mem_sites hp
  have hcut := within_append (p.1 ++ p.2.comment) p.2.header.spelled rest
  rwa [← ht] at hcut

theorem within_span {t : Text} {p : Text × Redrawing}
    (hp : p ∈ Redrawing.sites [] (redrawings t)) (label : Labelling) :
    within (p.2.edit label p.1).span t = p.2.old := by
  obtain ⟨rest, ht⟩ := exists_eq_append_of_mem_sites hp
  have hcut := within_append p.1 p.2.old rest
  have hspan : (p.2.edit label p.1).span =
      ⟨byteSize p.1, byteSize p.1 + byteSize p.2.old⟩ := by
    simp only [Redrawing.edit, Redrawing.old, byteSize_append, Nat.add_assoc]
  have htext : p.1 ++ (p.2.old ++ rest) = t := by
    rw [ht, Redrawing.old]
    simp only [List.append_assoc]
  rwa [htext, ← hspan] at hcut

theorem content_eq_splice {t : Text} {o : Outcome} (h : refresh t = .ok o) :
    o.content = Edit.splice (editsWith .abbreviated t) t := by
  rw [(refresh_eq_ok_iff.1 h).2, Outcome.ofVerdicts, filterMap_edit?, ← updates,
    editsWith_eq_map_sites, updates_eq_map_sites, List.map_map]
  rfl

/-! ## A small text -/

namespace Sample

/-- A declaration with one key. -/
def first : Visit := ⟨[], Header.canonical ['A'], ⟨['K', ')'], [['K']], true⟩⟩

/-- A comment and a declaration with a key for each physical one. -/
def second : Visit where
  gap := ['\n', '/', '*', ' ', '*', '/', ' ']
  header := Header.canonical ['B']
  table := ⟨(List.replicate 57 ['K', ',']).flatten ++ ['K', ')'], List.replicate 58 ['K'], true⟩

def source : Text := first.text ++ (second.text ++ ['\n'])

theorem wellFormed_canonical {c : Char} (hc : Header.isNameChar c = true) :
    (Header.canonical [c]).WellFormed := by
  refine Header.wellFormed_canonical ⟨List.cons_ne_nil _ _, fun d hd => ?_⟩
  rw [List.mem_singleton.1 hd]
  exact hc

theorem visits_pair {a b : Visit} (hgap : Place.lineStart.Admits a.gap) (ha : a.header.WellFormed)
    (hread : Table.read (a.table.text ++ (b.text ++ ['\n'])) = (a.table, b.text ++ ['\n']))
    (hgap' : Place.tableEnd.Admits b.gap) (hb : b.header.WellFormed)
    (hread' : Table.read (b.table.text ++ ['\n']) = (b.table, ['\n'])) :
    Keymap.visits (a.text ++ (b.text ++ ['\n'])) = [a, b] := by
  have hlast : Visits .tableEnd ['\n'] [] := .none Header.bare_nil
  exact Visits.eq_visits (.visit hgap ha hread (.visit hgap' hb hread' hlast))

theorem visits_source : Keymap.visits source = [first, second] :=
  visits_pair (show Header.Bare _ by decide) (wellFormed_canonical rfl) (by decide +kernel)
    ⟨by decide, by decide⟩ (wellFormed_canonical rfl) (by decide)

theorem refresh_source : ∃ o, refresh source = .ok o ∧ o.updated = [['B']] := by
  have hlayers : Keymap.layers source ≠ [] := by
    rw [Keymap.layers, declared_eq_map_sites, visits_source]
    simp [Visit.sites, Visit.layer, first]
  have hnames : (redrawings source).map (fun r => r.header.name) = [['B']] := by
    rw [redrawings, visits_source]
    decide
  have hok : refresh source = .ok (Outcome.ofVerdicts source (verdicts source)) :=
    refresh_eq_ok_iff.2 ⟨hlayers, rfl⟩
  exact ⟨_, hok, by rw [updated_eq hok, hnames]⟩

end Sample
end KeyChart
