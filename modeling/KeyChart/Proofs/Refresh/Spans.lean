import KeyChart.Proofs.Refresh.Updates

/-!
What a refresh changes. Main statement: the text is a row of kept pieces with one replaced piece
behind each, the refreshed text is the same row with each replaced piece redrawn, and each replaced
piece is a comment, blanks and the header of the layer that is drawn in its place
(`refresh_replaces_spans`).
-/

namespace KeyChart

open Text Comment

/-- One replaced piece of a text: the layer it is replaced for, the piece kept in front of it, what it
was and what it becomes. -/
structure Replacement where
  layer : Layer
  kept : Text
  old : Text
  new : Text

/-- The piece is the comment of the layer, blanks and the layer's header as it is written in the text,
and a drawing of the layer with a canonical header takes its place. -/
structure Replacement.Redraws (r : Replacement) (t : Text) : Prop where
  keyCount : r.layer.tokens.length = 58
  old : ∃ v w, r.old = "/*".toList ++ v ++ "*/".toList ++ w ++ within r.layer.declaration t ∧
    ¬ Holds "/*".toList v ∧ IsBlank w
  new : ∃ diagram, Diagram.draw? r.layer.name r.layer.tokens = some diagram ∧
    r.new = diagram ++ "\n[".toList ++ r.layer.name ++ "] = LAYOUT(".toList

/-- The replaced piece of a redrawing, given the text in front of its comment. -/
def Redrawing.replacement (r : Redrawing) (lineStarts : Array Nat) (front : Text) : Replacement :=
  ⟨r.layer lineStarts front, r.kept, r.old, r.new .abbreviated⟩

theorem Redrawing.flatMap_sites (front : Text) (rs : List Redrawing) (f : Redrawing → Text) :
    (sites front rs).flatMap (fun p => f p.2) = rs.flatMap f := by
  conv => rhs; rw [← map_snd_sites front rs, List.flatMap_map]

theorem new_eq (label : Labelling) (r : Redrawing) :
    r.new label = Diagram.draw r.header.name (label r.header.name r.tokens) ++ "\n[".toList ++
      r.header.name ++ "] = LAYOUT(".toList := by
  have hword : Header.word = "LAYOUT".toList := rfl
  simp only [Redrawing.new, Header.canonical, Header.spelled, hword]
  repeat rw [String.toList_ofList]
  simp only [List.append_assoc, List.cons_append, List.nil_append]

theorem redraws_of_mem_sites {t : Text} {p : Text × Redrawing}
    (hp : p ∈ Redrawing.sites [] (redrawings t)) :
    (p.2.replacement (lineStarts t) p.1).Redraws t := by
  obtain ⟨⟨v, w, hcomment, hnot, hblank⟩, hcount⟩ :=
    isCommented_of_mem_plan (mem_redrawings_of_mem_sites hp)
  refine ⟨hcount, ⟨v, w, ?_, hnot, hblank⟩, ⟨_, Diagram.draw?_of_length hcount, new_eq _ p.2⟩⟩
  show p.2.comment ++ p.2.header.spelled = _
  rw [show within (p.2.replacement (lineStarts t) p.1).layer.declaration t = _ from
    within_declaration hp, hcomment]
  rfl

/-- The replacements of a text, in order. -/
def replacements (t : Text) : List Replacement :=
  (Redrawing.sites [] (redrawings t)).map fun p => p.2.replacement (lineStarts t) p.1

theorem flatMap_replacements (t : Text) {f : Replacement → Text} {g : Redrawing → Text}
    (hfg : ∀ r front, f (r.replacement (lineStarts t) front) = g r) :
    (replacements t).flatMap f = (redrawings t).flatMap g := by
  rw [replacements, List.flatMap_map, ← Redrawing.flatMap_sites []]
  simp only [hfg]

theorem map_name_replacements {t : Text} {o : Outcome} (h : refresh t = .ok o) :
    o.updated = (replacements t).map fun r => r.layer.name := by
  rw [updated_eq h, ← Redrawing.map_snd_sites [] (redrawings t), replacements, List.map_map,
    List.map_map]
  rfl

theorem map_layer_replacements (t : Text) :
    (replacements t).map Replacement.layer = (updates t).map Prod.fst := by
  rw [updates_eq_map_sites, replacements, List.map_map, List.map_map]
  rfl

/-- Each replaced piece ends where the declaration of its layer does. -/
theorem byteSize_replacements {t : Text} {rs₁ rs₂ : List Replacement} {r : Replacement}
    (h : replacements t = rs₁ ++ r :: rs₂) :
    byteSize (rs₁.flatMap (fun r => r.kept ++ r.old) ++ r.kept ++ r.old) =
      r.layer.declaration.stop := by
  -- by induction on the redrawings, with the text in front of the first of them
  have hsites : ∀ (front : Text) (rs : List Redrawing) (rs₁ : List Replacement),
      ((Redrawing.sites front rs).map fun p => p.2.replacement (lineStarts t) p.1) =
        rs₁ ++ r :: rs₂ →
      byteSize (front ++ rs₁.flatMap (fun r => r.kept ++ r.old) ++ r.kept ++ r.old) =
        r.layer.declaration.stop := by
    intro front rs
    induction rs generalizing front with
    | nil =>
      intro rs₁ heq
      exact absurd heq.symm (List.append_ne_nil_of_right_ne_nil rs₁ (List.cons_ne_nil r rs₂))
    | cons x rs ih =>
      intro rs₁ heq
      rw [Redrawing.sites, List.map_cons] at heq
      cases rs₁ with
      | nil =>
        obtain ⟨rfl, -⟩ := List.cons.inj heq
        simp only [Redrawing.replacement, Redrawing.layer, Redrawing.old, List.flatMap_nil,
          List.append_nil, byteSize_append]
        omega
      | cons y rs₁ =>
        obtain ⟨rfl, hlater⟩ := List.cons.inj heq
        have hstop := ih (front ++ (x.kept ++ x.old)) rs₁ hlater
        rw [← hstop, List.flatMap_cons, ← List.append_assoc front]
        rfl
  exact hsites [] (redrawings t) rs₁ h

theorem refresh_replaces_spans {t : Text} {o : Outcome} (h : refresh t = .ok o) :
    ∃ (rs : List Replacement) (rest : Text),
      t = rs.flatMap (fun r => r.kept ++ r.old) ++ rest ∧
      o.content = rs.flatMap (fun r => r.kept ++ r.new) ++ rest ∧
      o.updated = rs.map (fun r => r.layer.name) ∧
      (rs.map fun r => r.layer).Sublist (Keymap.layers t) ∧
      (∀ r ∈ rs, r.Redraws t) ∧
      (∀ rs₁ r rs₂, rs = rs₁ ++ r :: rs₂ →
        byteSize (rs₁.flatMap (fun r => r.kept ++ r.old) ++ r.kept ++ r.old) =
          r.layer.declaration.stop) ∧
      (o.updated = [] → o.content = t) := by
  obtain ⟨rest, ht, hsplice⟩ := exists_splice_eq t
  have hold : (replacements t).flatMap (fun r => r.kept ++ r.old) =
      Redrawing.before (redrawings t) := flatMap_replacements t fun _ _ => rfl
  have hnew : (replacements t).flatMap (fun r => r.kept ++ r.new) =
      Redrawing.after .abbreviated (redrawings t) := flatMap_replacements t fun _ _ => rfl
  have hcontent : o.content = Redrawing.after .abbreviated (redrawings t) ++ rest := by
    rw [content_eq_splice h, hsplice]
  refine ⟨replacements t, rest, ?_, ?_, map_name_replacements h, ?_, ?_, ?_, ?_⟩
  · rw [hold]
    exact ht
  · rw [hnew, hcontent]
  · exact map_layer_replacements t ▸ sublist_layers t
  · intro r hr
    obtain ⟨p, hp, rfl⟩ := List.mem_map.1 hr
    exact redraws_of_mem_sites hp
  · intro rs₁ r rs₂ hrs
    exact byteSize_replacements hrs
  · intro hnil
    rw [updated_eq h, List.map_eq_nil_iff] at hnil
    calc o.content = Redrawing.after .abbreviated (redrawings t) ++ rest := hcontent
      _ = Redrawing.before (redrawings t) ++ rest := by rw [hnil]; rfl
      _ = t := ht.symm

theorem refresh_replaces_spans_sample : ∃ o, refresh Sample.source = .ok o ∧ o.updated = [['B']] ∧
    ∃ (rs : List Replacement) (rest : Text),
      Sample.source = rs.flatMap (fun r => r.kept ++ r.old) ++ rest ∧
      o.content = rs.flatMap (fun r => r.kept ++ r.new) ++ rest ∧
      rs.map (fun r => r.layer.name) = [['B']] ∧ ∀ r ∈ rs, r.Redraws Sample.source := by
  obtain ⟨o, hok, hupdated⟩ := Sample.refresh_source
  obtain ⟨rs, rest, hold, hnew, hnames, _, hredraws, _⟩ := refresh_replaces_spans hok
  exact ⟨o, hok, hupdated, rs, rest, hold, hnew, hnames ▸ hupdated, hredraws⟩

end KeyChart
