import KeyChart.Proofs.Refresh.Renewal

/-!
The visits that a redrawing leaves in a text. A redrawing covers a visit if the header of the visit
lies in the comment that is replaced. Main statement: a renewal writes down the name and the keys of
every visit that is not covered (`Renewal.map_contents`).
-/

namespace KeyChart

open Text

/-- The name and the keys of a visit. -/
def Visit.contents (v : Visit) : Text × List Text := (v.header.name, v.table.tokens)

/-- The comment of a redrawing covers the header of a visit. -/
def covers (p : Text × Redrawing) (s : Text × Visit) : Bool :=
  byteSize p.1 ≤ byteSize s.1 &&
    byteSize s.1 + byteSize s.2.header.spelled ≤ byteSize (p.1 ++ p.2.comment)

/-- The contents of the visits that no redrawing covers. -/
def survivors (ps : List (Text × Redrawing)) (ss : List (Text × Visit)) : List (Text × List Text) :=
  (ss.filter fun s => !ps.any fun p => covers p s).map fun s => s.2.contents

section Covers

variable {p : Text × Redrawing} {s : Text × Visit}

theorem covers_iff : covers p s = true ↔ byteSize p.1 ≤ byteSize s.1 ∧
    byteSize s.1 + byteSize s.2.header.spelled ≤ byteSize (p.1 ++ p.2.comment) := by
  rw [covers, Bool.and_eq_true, decide_eq_true_iff, decide_eq_true_iff]

/-- A comment that opens behind a header does not cover it. -/
theorem not_covers_of_opens_behind
    (h : byteSize s.1 + byteSize s.2.header.spelled ≤ byteSize p.1) : ¬ covers p s := by
  intro hcovers
  have hstart := (covers_iff.1 hcovers).1
  have hpos := s.2.header.byteSize_spelled_pos
  omega

/-- A comment that ends before a header does not cover it. -/
theorem not_covers_of_ends_before (h : byteSize (p.1 ++ p.2.comment) ≤ byteSize s.1) :
    ¬ covers p s := by
  intro hcovers
  have hstop := (covers_iff.1 hcovers).2
  have hpos := s.2.header.byteSize_spelled_pos
  omega

end Covers

/-! ## Survivors of a list of sites -/

theorem survivors_append (ps : List (Text × Redrawing)) (ss ss' : List (Text × Visit)) :
    survivors ps (ss ++ ss') = survivors ps ss ++ survivors ps ss' := by
  simp [survivors]

theorem survivors_cons {p : Text × Redrawing} {ss : List (Text × Visit)}
    (h : ∀ s ∈ ss, ¬ covers p s) (ps : List (Text × Redrawing)) :
    survivors (p :: ps) ss = survivors ps ss := by
  rw [survivors, survivors]
  congr 1
  apply List.filter_congr
  intro s hs
  rw [List.any_cons, Bool.eq_false_iff.2 (h s hs), Bool.false_or]

theorem survivors_cons_site {ps : List (Text × Redrawing)} {s : Text × Visit}
    (h : ∀ p ∈ ps, ¬ covers p s) (ss : List (Text × Visit)) :
    survivors ps (s :: ss) = s.2.contents :: survivors ps ss := by
  have hany : (ps.any fun p => covers p s) = false := by
    rw [List.any_eq_false]
    exact h
  rw [survivors, List.filter_cons_of_pos (by rw [hany]; rfl), List.map_cons]
  rfl

theorem survivors_of_covered {p : Text × Redrawing} {ss : List (Text × Visit)}
    (h : ∀ s ∈ ss, covers p s) (ps : List (Text × Redrawing)) : survivors (p :: ps) ss = [] := by
  rw [survivors, List.map_eq_nil_iff, List.filter_eq_nil_iff]
  intro s hs
  rw [List.any_cons, h s hs, Bool.true_or]
  exact Bool.false_ne_true

theorem survivors_sites {ps : List (Text × Redrawing)} {before : Text} {vs : List Visit}
    (h : ∀ p ∈ ps, ∀ s ∈ Visit.sites before vs, ¬ covers p s) :
    survivors ps (Visit.sites before vs) = vs.map Visit.contents := by
  induction vs generalizing before with
  | nil => rfl
  | cons v vs ih =>
    rw [Visit.sites, survivors_cons_site fun p hp => h p hp _ List.mem_cons_self, List.map_cons, ih]
    intro p hp s hs
    exact h p hp s (List.mem_cons_of_mem _ hs)

/-- Visits that end before every comment opens survive. -/
theorem survivors_of_ends_before {ps : List (Text × Redrawing)} {before : Text} {vs : List Visit}
    (h : ∀ p ∈ ps, byteSize (before ++ vs.flatMap Visit.text) ≤ byteSize p.1) :
    survivors ps (Visit.sites before vs) = vs.map Visit.contents := by
  apply survivors_sites
  intro p hp s hs
  apply not_covers_of_opens_behind
  have hstop := (Visit.bounds_of_mem_sites hs).2
  have hopen := h p hp
  omega

/-- A comment covers the visits from the gap in which it opens up to its end. -/
theorem covers_of_lost {p : Text × Redrawing} {s : Text × Visit} {before lead rest : Text}
    {lost behind : List Visit} {v b : Visit} (hlost : lost ++ [v] = b :: behind)
    (hgap : b.gap = lead ++ rest) (hopen : byteSize p.1 ≤ byteSize (before ++ lead))
    (hend : byteSize (before ++ lost.flatMap Visit.text) ≤ byteSize (p.1 ++ p.2.comment))
    (hs : s ∈ Visit.sites before lost) : covers p s := by
  have hstop := (Visit.bounds_of_mem_sites hs).2
  have hstart : byteSize (before ++ b.gap) ≤ byteSize s.1 := by
    cases lost with
    | nil => cases hs
    | cons u us =>
      rw [List.cons_append] at hlost
      obtain ⟨rfl, -⟩ := List.cons.inj hlost
      exact Visit.byteSize_gap_le_of_mem_sites hs
  rw [hgap] at hstart
  simp only [byteSize_append] at hstart hopen
  exact covers_iff.2 ⟨by omega, by omega⟩

/-! ## Survivors of a plan -/

/-- Of the visits up to a redrawn one, those before the gap in which its comment opens survive and it
survives itself, if the later redrawings are behind its header. -/
theorem survivors_redrawn {front since lead rest : Text} {spared lost behind vs : List Visit}
    {v b : Visit} {r : Redrawing} {later : List (Text × Redrawing)}
    (hlost : lost ++ [v] = b :: behind) (hgap : b.gap = lead ++ rest)
    (hkept : r.kept = since ++ (spared.flatMap Visit.text ++ lead)) (hheader : r.header = v.header)
    (hcomment : since ++ (spared ++ lost).flatMap Visit.text ++ v.gap = r.kept ++ r.comment)
    (hlater : ∀ p ∈ later, byteSize (front ++ (r.kept ++ r.old)) ≤ byteSize p.1) :
    survivors ((front ++ r.kept, r) :: later)
        (Visit.sites (front ++ since) (spared ++ lost ++ v :: vs)) =
      spared.map Visit.contents ++ v.contents ::
        survivors later (Visit.sites (front ++ (r.kept ++ r.old) ++ v.table.text) vs) := by
  have hsizes := congrArg byteSize hcomment
  have hkeptSize := congrArg byteSize hkept
  have holdSize : byteSize r.old = byteSize r.comment + byteSize v.header.spelled := by
    rw [Redrawing.old, byteSize_append, hheader]
  simp only [List.flatMap_append, byteSize_append] at hsizes hkeptSize hlater
  have hsites : Visit.sites (front ++ since) (spared ++ lost ++ v :: vs) =
      Visit.sites (front ++ since) spared ++
        (Visit.sites (front ++ since ++ spared.flatMap Visit.text) lost ++
          ((front ++ (r.kept ++ r.comment), v) ::
            Visit.sites (front ++ (r.kept ++ r.old) ++ v.table.text) vs)) := by
    rw [Visit.sites_append_cons hheader hcomment, Visit.sites_append, List.append_assoc]
  have hspared : survivors ((front ++ r.kept, r) :: later)
      (Visit.sites (front ++ since) spared) = spared.map Visit.contents := by
    apply survivors_of_ends_before
    intro p hp
    rw [byteSize_append, byteSize_append]
    rcases List.mem_cons.1 hp with rfl | hp
    · rw [byteSize_append]
      omega
    · have hfar := hlater p hp
      omega
  have hgone : survivors ((front ++ r.kept, r) :: later)
      (Visit.sites (front ++ since ++ spared.flatMap Visit.text) lost) = [] := by
    apply survivors_of_covered
    intro s hs
    refine covers_of_lost hlost hgap ?_ ?_ hs
    · simp only [byteSize_append]
      omega
    · show _ ≤ byteSize (front ++ r.kept ++ r.comment)
      simp only [byteSize_append]
      omega
  -- the comment ends before the header of `v`, and the later ones open behind it
  have hself : ∀ p ∈ (front ++ r.kept, r) :: later,
      ¬ covers p (front ++ (r.kept ++ r.comment), v) := by
    intro p hp
    rcases List.mem_cons.1 hp with rfl | hp
    · apply not_covers_of_ends_before
      exact Nat.le_of_eq (congrArg byteSize (List.append_assoc _ _ _))
    · apply not_covers_of_opens_behind
      have hfar := hlater p hp
      simp only [byteSize_append]
      omega
  have hbehind : ∀ s ∈ Visit.sites (front ++ (r.kept ++ r.old) ++ v.table.text) vs,
      ¬ covers (front ++ r.kept, r) s := by
    intro s hs
    apply not_covers_of_ends_before
    have hstart := (Visit.bounds_of_mem_sites hs).1
    simp only [byteSize_append] at hstart ⊢
    omega
  rw [hsites, survivors_append, survivors_append, hspared, hgone, survivors_cons_site hself,
    survivors_cons hbehind]
  rfl

/-- A renewal keeps the name and the keys of every visit that no redrawing covers. -/
theorem Renewal.map_contents {label : Labelling} {since : Text} {pending vs ws : List Visit}
    (h : Renewal label since pending vs ws) (front : Text) :
    ws.map Visit.contents =
      survivors (Redrawing.sites front (plan (since ++ pending.flatMap Visit.text) vs).1)
        (Visit.sites (front ++ since) (pending ++ vs)) := by
  induction h generalizing front with
  | done =>
    rw [List.append_nil, survivors_sites]
    intro p hp
    cases hp
  | keep hkept _ ih =>
    rw [plan_cons_of_none hkept, ih front]
    simp only [List.flatMap_append, List.flatMap_cons, List.flatMap_nil, List.append_nil,
      List.append_assoc, List.cons_append, List.nil_append]
  | @draw since lead rest spared lost behind v b vs ws hlost hgap hkept _ ih =>
    obtain ⟨comment, hcomment, _, hplan⟩ := plan_cons_of_some hkept vs
    have hlater : ∀ x, ws.map Visit.contents =
        survivors (Redrawing.sites x (plan v.table.text vs).1)
          (Visit.sites (x ++ v.table.text) vs) := by
      intro x
      have hws := ih x
      rwa [List.flatMap_nil, List.append_nil, List.nil_append] at hws
    rw [hplan, Redrawing.sites,
      survivors_redrawn hlost hgap rfl rfl hcomment fun p hp => Redrawing.byteSize_front_le hp,
      List.map_append, List.map_cons, ← hlater]
    rfl

end KeyChart
