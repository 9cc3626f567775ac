import KeyChart.Proofs.Refresh.Renewal
import KeyChart.Proofs.Refresh.Updates

/-!
Edits that reach back. The nearest comment opening above a declaration may stand inside an earlier
declaration, in a comment of its table or behind the last key; an edit from there on takes the end of
that table away. Main statement: without such an edit the visits of a text have a renewal
(`exists_renewal`),
and they are what becomes of the visits when the text is redrawn (`exists_renewal_splice`).
-/

namespace KeyChart

open Text

/-- The bytes of each declaration of a text, header and table, empty tables included. -/
def Keymap.extents (t : Text) : List Span :=
  (placed 0 (read t).declarations).map fun p => p.2.extent p.1

/-- The edit of an updated layer starts inside the extent of an earlier declaration. -/
def reachesInto (u : Layer × Edit) (extent : Span) : Bool :=
  extent.start < u.1.declaration.start && extent.start ≤ u.2.span.start &&
    u.2.span.start < extent.stop

/-- Some edit of the text starts inside an earlier declaration. -/
def ReachesBack (t : Text) : Prop :=
  ∃ u ∈ updates t, ∃ extent ∈ Keymap.extents t, reachesInto u extent

/-- The same of a redrawing and a visit, each with the text in front of it. -/
def Redrawing.Reaches (p : Text × Redrawing) (s : Text × Visit) : Prop :=
  byteSize s.1 < byteSize (p.1 ++ p.2.comment) ∧ byteSize s.1 ≤ byteSize p.1 ∧
    byteSize p.1 < (s.2.extent s.1).stop

instance (p : Text × Redrawing) (s : Text × Visit) : Decidable (Redrawing.Reaches p s) :=
  inferInstanceAs (Decidable (_ ∧ _))

theorem Keymap.extents_eq_map_sites (t : Text) :
    extents t = (Visit.sites [] (visits t)).map fun s => s.2.extent s.1 := by
  have h := congrArg (List.map Prod.snd) (map_placed_read t)
  rw [List.map_map, List.map_map] at h
  exact h

theorem reachesBack_iff {t : Text} : ReachesBack t ↔
    ∃ p ∈ Redrawing.sites [] (redrawings t), ∃ s ∈ Visit.sites [] (Keymap.visits t),
      Redrawing.Reaches p s := by
  have hreach : ∀ (p : Text × Redrawing) (s : Text × Visit),
      reachesInto (p.2.layer (lineStarts t) p.1, p.2.edit .abbreviated p.1) (s.2.extent s.1) = true ↔
        Redrawing.Reaches p s := by
    intro p s
    rw [reachesInto, Bool.and_eq_true, Bool.and_eq_true, decide_eq_true_iff, decide_eq_true_iff,
      decide_eq_true_iff, and_assoc]
    rfl
  rw [ReachesBack, updates_eq_map_sites, Keymap.extents_eq_map_sites]
  constructor
  · intro hback
    obtain ⟨u, hu, extent, hextent, hinto⟩ := hback
    obtain ⟨p, hp, rfl⟩ := List.mem_map.1 hu
    obtain ⟨s, hs, rfl⟩ := List.mem_map.1 hextent
    exact ⟨p, hp, s, hs, (hreach p s).1 hinto⟩
  · intro hback
    obtain ⟨p, hp, s, hs, hinto⟩ := hback
    exact ⟨_, List.mem_map.2 ⟨p, hp, rfl⟩, _, List.mem_map.2 ⟨s, hs, rfl⟩, (hreach p s).2 hinto⟩

/-- A comment that opens behind the start of an earlier declaration and does not reach into it opens
behind its end. -/
theorem Redrawing.stop_le_of_not_reaches {p : Text × Redrawing} {s : Text × Visit}
    (h : ¬ Reaches p s) (hearlier : byteSize s.1 < byteSize (p.1 ++ p.2.comment))
    (hopen : byteSize s.1 ≤ byteSize p.1) : (s.2.extent s.1).stop ≤ byteSize p.1 := by
  apply Nat.le_of_not_lt
  intro hlt
  exact h ⟨hearlier, hopen, hlt⟩

/-- A front part of visits and a gap that ends inside no visit ends in a gap. -/
theorem Visit.exists_cut {before kept rest : Text} {pending : List Visit} {v : Visit}
    (h : pending.flatMap text ++ v.gap = kept ++ rest)
    (hout : ∀ s ∈ sites before pending, byteSize s.1 ≤ byteSize (before ++ kept) →
      (s.2.extent s.1).stop ≤ byteSize (before ++ kept)) :
    ∃ spared lost b behind lead tail, pending = spared ++ lost ∧ lost ++ [v] = b :: behind ∧
      b.gap = lead ++ tail ∧ kept = spared.flatMap text ++ lead := by
  induction pending generalizing before kept with
  | nil => exact ⟨[], [], v, [], kept, rest, rfl, rfl, h, rfl⟩
  | cons u us ih =>
    rw [List.flatMap_cons, List.append_assoc] at h
    by_cases hle : byteSize kept ≤ byteSize u.gap
    · -- the front part ends in the gap of `u`, from where on all visits are lost
      have hgap : u.gap ++ (u.header.spelled ++ u.table.text ++ (us.flatMap text ++ v.gap)) =
          kept ++ rest := by
        rw [← h, text]
        simp only [List.append_assoc]
      obtain ⟨tail, hu, _⟩ := exists_append_of_byteSize_le hgap hle
      exact ⟨[], u :: us, u, us ++ [v], kept, tail, rfl, rfl, hu, rfl⟩
    · -- it ends behind the header of `u`, so behind its table
      have hstop := hout (before ++ u.gap, u) List.mem_cons_self (by
        simp only [byteSize_append]
        omega)
      have hpast : byteSize u.text ≤ byteSize kept := by
        simp only [extent, text, byteSize_append] at hstop ⊢
        omega
      obtain ⟨kept', hkept, hus⟩ := exists_append_of_byteSize_le h.symm hpast
      obtain ⟨spared, lost, b, behind, lead, tail, hpending, hlost, hgap, hlead⟩ :=
        @ih (before ++ u.text) kept' hus (by
          intro s hs hstart
          rw [List.append_assoc, ← hkept] at hstart ⊢
          exact hout s (List.mem_cons_of_mem _ hs) hstart)
      refine ⟨u :: spared, lost, b, behind, lead, tail, ?_, hlost, hgap, ?_⟩
      · rw [hpending, List.cons_append]
      · rw [hkept, hlead, List.flatMap_cons, List.append_assoc]

/-- The visits that are lost to a redrawing whose comment opens behind `since` and does not reach
into a visit before it. -/
theorem Redrawing.exists_lost {front since : Text} {pending : List Visit} {v : Visit} {r : Redrawing}
    (hcomment : since ++ pending.flatMap Visit.text ++ v.gap = r.kept ++ r.comment)
    (hkept : byteSize since ≤ byteSize r.kept)
    (hreach : ∀ s ∈ Visit.sites (front ++ since) pending, ¬ Reaches (front ++ r.kept, r) s) :
    ∃ spared lost b behind lead tail, pending = spared ++ lost ∧ lost ++ [v] = b :: behind ∧
      b.gap = lead ++ tail ∧ r.kept = since ++ (spared.flatMap Visit.text ++ lead) := by
  have hsizes := congrArg byteSize hcomment
  simp only [byteSize_append] at hsizes
  rw [List.append_assoc] at hcomment
  obtain ⟨cut, hcut, hpending⟩ := exists_append_of_byteSize_le hcomment.symm hkept
  have hout : ∀ s ∈ Visit.sites (front ++ since) pending,
      byteSize s.1 ≤ byteSize (front ++ since ++ cut) →
        (s.2.extent s.1).stop ≤ byteSize (front ++ since ++ cut) := by
    intro s hs hstart
    rw [List.append_assoc, ← hcut] at hstart ⊢
    refine stop_le_of_not_reaches (hreach s hs) ?_ hstart
    have hbounds := (Visit.bounds_of_mem_sites hs).2
    have hpos := s.2.header.byteSize_spelled_pos
    simp only [byteSize_append] at hbounds ⊢
    omega
  obtain ⟨spared, lost, b, behind, lead, tail, hsplit, hlost, hgap, hlead⟩ :=
    Visit.exists_cut hpending hout
  exact ⟨spared, lost, b, behind, lead, tail, hsplit, hlost, hgap, by rw [hcut, hlead]⟩

/-- A later comment that does not reach into the table of a redrawn visit opens behind it. -/
theorem Redrawing.byteSize_table_le {front : Text} {v : Visit} {r : Redrawing}
    {rs : List Redrawing} {p : Text × Redrawing} (hheader : r.header = v.header)
    (hp : p ∈ sites (front ++ (r.kept ++ r.old)) rs)
    (hreach : ¬ Reaches p (front ++ (r.kept ++ r.comment), v)) :
    byteSize (front ++ (r.kept ++ r.old) ++ v.table.text) ≤ byteSize p.1 := by
  have hle := byteSize_front_le hp
  have hpos := v.header.byteSize_spelled_pos
  rw [old, hheader] at hle ⊢
  simp only [byteSize_append] at hle
  have hstop := stop_le_of_not_reaches hreach
    (by simp only [byteSize_append]; omega) (by simp only [byteSize_append]; omega)
  simp only [Visit.extent, byteSize_append] at hstop ⊢
  omega

/-- Visits have a renewal if no planned comment opens before `since` or inside a visit. -/
theorem exists_renewal (label : Labelling) {front since : Text} {pending vs : List Visit}
    (hfront : ∀ p ∈ Redrawing.sites front (plan (since ++ pending.flatMap Visit.text) vs).1,
      byteSize (front ++ since) ≤ byteSize p.1)
    (hreach : ∀ p ∈ Redrawing.sites front (plan (since ++ pending.flatMap Visit.text) vs).1,
      ∀ s ∈ Visit.sites (front ++ since) (pending ++ vs), ¬ Redrawing.Reaches p s) :
    ∃ ws, Renewal label since pending vs ws := by
  induction vs generalizing front since pending with
  | nil => exact ⟨pending, .done⟩
  | cons v vs ih =>
    cases hv : v.kept? (since ++ pending.flatMap Visit.text) with
    | none =>
      have hpending : since ++ (pending ++ [v]).flatMap Visit.text =
          since ++ pending.flatMap Visit.text ++ v.text := by simp
      have hsplit : pending ++ v :: vs = pending ++ [v] ++ vs := by simp
      rw [plan_cons_of_none hv, ← hpending] at hfront hreach
      rw [hsplit] at hreach
      obtain ⟨ws, hws⟩ := ih hfront hreach
      exact ⟨ws, .keep hv hws⟩
    | some kept =>
      obtain ⟨comment, hcomment, _, hplan⟩ := plan_cons_of_some hv vs
      let r : Redrawing := ⟨kept, comment, v.header, v.table.tokens⟩
      rw [hplan, Redrawing.sites] at hfront hreach
      rw [@Visit.sites_append_cons front since pending v r rfl hcomment] at hreach
      -- this comment opens behind `since` and in a gap
      have hkept : byteSize since ≤ byteSize kept := by
        have hle := hfront _ List.mem_cons_self
        simp only [byteSize_append] at hle
        omega
      obtain ⟨spared, lost, b, behind, lead, tail, hsplit, hlost, hgap, hlead⟩ :=
        @Redrawing.exists_lost front since pending v r hcomment hkept fun s hs =>
          hreach _ List.mem_cons_self s (List.mem_append_left _ hs)
      -- the later ones open behind the table of `v` and in gaps
      have hlater : ∀ p ∈ Redrawing.sites (front ++ (kept ++ r.old))
          (plan (v.table.text ++ [].flatMap Visit.text) vs).1,
          p ∈ Redrawing.sites (front ++ (kept ++ r.old)) (plan v.table.text vs).1 := by
        intro p hp
        rwa [List.flatMap_nil, List.append_nil] at hp
      obtain ⟨ws, hws⟩ := ih (fun p hp => @Redrawing.byteSize_table_le front v r _ p rfl
          (hlater p hp) (hreach p (List.mem_cons_of_mem _ (hlater p hp)) _
            (List.mem_append_right _ List.mem_cons_self)))
        (fun p hp s hs => hreach p (List.mem_cons_of_mem _ (hlater p hp)) s
          (List.mem_append_right _ (List.mem_cons_of_mem _ hs)))
      have hv' : v.kept? (since ++ (spared ++ lost).flatMap Visit.text) =
          some (since ++ (spared.flatMap Visit.text ++ lead)) := by
        rw [← hsplit, hv]
        exact congrArg some hlead
      rw [hsplit]
      exact ⟨_, .draw hlost hgap hv' hws⟩

/-- The visits of a text that no edit of it reaches back in, once it is redrawn. -/
theorem exists_renewal_splice (label : Labelling) {t : Text} (h : ¬ ReachesBack t) :
    ∃ ws tail, Renewal label [] [] (Keymap.visits t) ws ∧
      t = (Keymap.visits t).flatMap Visit.text ++ tail ∧
      Edit.splice (editsWith label t) t = ws.flatMap Visit.text ++ tail ∧
      Keymap.visits (Edit.splice (editsWith label t) t) = ws := by
  obtain ⟨tail, ht⟩ := (visits_read t).exists_tail
  obtain ⟨ws, hws⟩ := @exists_renewal label [] [] [] (Keymap.visits t)
    (fun p _ => Nat.zero_le _)
    (fun p hp s hs hreach => h (reachesBack_iff.2 ⟨p, hp, s, hs, hreach⟩))
  have htext : Edit.splice (editsWith label t) t = ws.flatMap Visit.text ++ tail := by
    have hplan : Redrawing.after label (redrawings t) ++ (plan [] (Keymap.visits t)).2 =
        ws.flatMap Visit.text := hws.text.symm
    calc Edit.splice (editsWith label t) t
        = Redrawing.after label (redrawings t) ++ ((plan [] (Keymap.visits t)).2 ++ tail) :=
          splice_editsWith label ht
      _ = ws.flatMap Visit.text ++ tail := by rw [← List.append_assoc, hplan]
  refine ⟨ws, tail, hws, ht, htext, ?_⟩
  rw [htext]
  apply Visits.eq_visits
  apply hws.visits
  rw [List.nil_append, ← ht]
  exact visits_read t

theorem Sample.not_reachesBack : ¬ ReachesBack source := by
  rw [reachesBack_iff, redrawings, visits_source]
  decide

end KeyChart
