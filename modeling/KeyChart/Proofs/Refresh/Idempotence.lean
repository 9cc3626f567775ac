import KeyChart.Proofs.Refresh.Reach

/-!
A second refresh. If no edit reaches back and no diagram opens a comment inside itself, each
redrawing of the refreshed text is that of a new comment at its old place (`Renewal.plan_eq`). Main
statement: a second refresh then succeeds with the same text and the same updated layers
(`refresh_refresh`).
-/

namespace KeyChart

open Text Comment

/-! ## Visits that are left as they are -/

/-- None of the visits is redrawn, given the text between the last redrawing and the first of them. -/
def Still : Text → List Visit → Prop
  | _, [] => True
  | since, v :: vs => v.kept? since = none ∧ Still (since ++ v.text) vs

theorem still_append {since : Text} {us vs : List Visit} :
    Still since (us ++ vs) ↔ Still since us ∧ Still (since ++ us.flatMap Visit.text) vs := by
  induction us generalizing since with
  | nil => simp [Still]
  | cons u us ih =>
    rw [List.cons_append, Still, Still, ih, List.flatMap_cons, List.append_assoc, and_assoc]

theorem plan_append_of_still {since : Text} {us : List Visit} (h : Still since us)
    (vs : List Visit) : plan since (us ++ vs) = plan (since ++ us.flatMap Visit.text) vs := by
  induction us generalizing since with
  | nil => simp
  | cons u us ih =>
    rw [List.cons_append, plan_cons_of_none h.1, ih h.2, List.flatMap_cons, List.append_assoc]

/-! ## Redrawings of the redrawn text -/

namespace Redrawing

/-- The diagram of the redrawing opens no comment inside itself. -/
def OpensOnce (label : Labelling) (r : Redrawing) : Prop :=
  Diagram.OpensOnlyAtStart (Diagram.draw r.header.name (label r.header.name r.tokens))

/-- The redrawing that takes the place of `r` in the redrawn text. -/
def settled (label : Labelling) (r : Redrawing) : Redrawing where
  kept := r.kept
  comment := Diagram.draw r.header.name (label r.header.name r.tokens) ++ ['\n']
  header := Header.canonical r.header.name
  tokens := r.tokens

theorem after_map_settled (label : Labelling) (rs : List Redrawing) :
    after label (rs.map (settled label)) = after label rs := by
  rw [after, List.flatMap_map]
  rfl

end Redrawing

/-- The comment above a redrawn visit is its drawing. -/
theorem kept?_redrawn {label : Labelling} {v : Visit}
    (hcount : v.table.tokens.length = Diagram.keyCount)
    (hopen : Diagram.OpensOnlyAtStart
      (Diagram.draw v.header.name (label v.header.name v.table.tokens))) (since lead : Text) :
    (v.redrawn label lead).kept? since = some (since ++ lead) := by
  obtain ⟨x, hx⟩ := Diagram.exists_draw_eq v.header.name (label v.header.name v.table.tokens)
  rw [hx] at hopen
  refine Visit.kept?_eq_some_iff.2 ⟨hcount, beforeComment?_eq_some_iff.2 ⟨x, ['\n'], ?_,
    Diagram.not_holds_of_opensOnlyAtStart hopen, ?_⟩⟩
  · simp only [Visit.redrawn, Visit.drawing, hx, List.append_assoc]
  · intro c hc
    rw [List.mem_singleton.1 hc]
    decide

theorem Renewal.plan_eq {label : Labelling} {since : Text} {pending vs ws : List Visit}
    (h : Renewal label since pending vs ws) (hstill : Still since pending)
    (hopen : ∀ r ∈ (plan (since ++ pending.flatMap Visit.text) vs).1, r.OpensOnce label) :
    plan since ws =
      ((plan (since ++ pending.flatMap Visit.text) vs).1.map (Redrawing.settled label),
        (plan (since ++ pending.flatMap Visit.text) vs).2) := by
  induction h with
  | @done since pending =>
    have hplan := plan_append_of_still hstill []
    rw [List.append_nil] at hplan
    rw [hplan]
    rfl
  | @keep since pending v vs ws hkept _ ih =>
    have hpending : since ++ (pending ++ [v]).flatMap Visit.text =
        since ++ pending.flatMap Visit.text ++ v.text := by simp
    rw [plan_cons_of_none hkept, ← hpending] at hopen ⊢
    exact ih (still_append.2 ⟨hstill, hkept, trivial⟩) hopen
  | @draw since lead rest spared lost behind v b vs ws _ _ hkept _ ih =>
    obtain ⟨comment, _, _, hplan⟩ := plan_cons_of_some hkept vs
    rw [hplan] at hopen ⊢
    have hlater := ih trivial (by
      intro r hr
      rw [List.flatMap_nil, List.append_nil] at hr
      exact hopen r (List.mem_cons_of_mem _ hr))
    rw [List.flatMap_nil, List.append_nil] at hlater
    have hnew := kept?_redrawn (Visit.kept?_eq_some_iff.1 hkept).1 (hopen _ List.mem_cons_self)
      (since ++ spared.flatMap Visit.text) lead
    -- the comment that is now above `v` is all of its gap behind `lead`
    obtain ⟨comment', hcomment', _, hplan'⟩ := plan_cons_of_some hnew ws
    have hdrawing : comment' = v.drawing label := by
      rw [Visit.redrawn, ← List.append_assoc] at hcomment'
      exact (List.append_cancel_left hcomment').symm
    rw [plan_append_of_still (still_append.1 hstill).1, hplan', hdrawing,
      show (v.redrawn label lead).table.text = v.table.text from rfl, hlater, List.append_assoc]
    rfl

/-! ## The second refresh -/

theorem opensOnce_of_updates {t : Text}
    (h : ¬ ∃ u ∈ updates t, ∃ diagram, u.1.diagram? = some diagram ∧
      ¬ Diagram.OpensOnlyAtStart diagram) :
    ∀ r ∈ redrawings t, r.OpensOnce .abbreviated := by
  intro r hr
  have hsites := hr
  rw [← Redrawing.map_snd_sites [] (redrawings t)] at hsites
  obtain ⟨p, hp, rfl⟩ := List.mem_map.1 hsites
  have hdraw : (p.2.layer (lineStarts t) p.1).diagram? = some _ :=
    Diagram.draw?_of_length (isCommented_of_mem_plan hr).2
  by_cases hopen : p.2.OpensOnce .abbreviated
  · exact hopen
  · exact absurd ⟨_, mem_updates_of_mem_sites hp, _, hdraw, hopen⟩ h

theorem layers_ne_nil_of_redrawings {t : Text} (h : redrawings t ≠ []) : Keymap.layers t ≠ [] := by
  intro hnil
  have hsub := sublist_layers t
  rw [hnil, List.sublist_nil, List.map_eq_nil_iff, updates_eq_map_sites, List.map_eq_nil_iff] at hsub
  apply h
  rw [← Redrawing.map_snd_sites [] (redrawings t), hsub]
  rfl

/-- The plan of a refreshed text: each redrawing settled, and the same text behind the last one. -/
theorem exists_plan_content {t : Text} {o : Outcome} (h : refresh t = .ok o)
    (hreach : ¬ ReachesBack t) (hopen : ∀ r ∈ redrawings t, r.OpensOnce .abbreviated) :
    ∃ tail, t = (Keymap.visits t).flatMap Visit.text ++ tail ∧
      o.content = (Keymap.visits o.content).flatMap Visit.text ++ tail ∧
      plan [] (Keymap.visits o.content) =
        ((redrawings t).map (Redrawing.settled .abbreviated), (plan [] (Keymap.visits t)).2) := by
  obtain ⟨ws, tail, hws, ht, htext, hvisits⟩ := exists_renewal_splice .abbreviated hreach
  rw [← content_eq_splice h] at htext hvisits
  refine ⟨tail, ht, ?_, ?_⟩
  · rw [hvisits]
    exact htext
  · rw [hvisits]
    exact hws.plan_eq trivial hopen

/-- There is a layer to refresh again: an updated one, or any if nothing was redrawn. -/
theorem layers_content_ne_nil {t : Text} {o : Outcome} (h : refresh t = .ok o)
    (hsettled : redrawings o.content = (redrawings t).map (Redrawing.settled .abbreviated)) :
    Keymap.layers o.content ≠ [] := by
  by_cases hnil : redrawings t = []
  · have hcontent : o.content = t := by
      rw [content_eq_splice h, editsWith_eq_map_sites, hnil]
      rfl
    rw [hcontent]
    exact (refresh_eq_ok_iff.1 h).1
  · apply layers_ne_nil_of_redrawings
    rw [hsettled]
    intro hmap
    exact hnil (List.map_eq_nil_iff.1 hmap)

theorem exists_refresh_content {t : Text} {o : Outcome} (h : refresh t = .ok o)
    (hreach : ¬ ReachesBack t) (hopen : ∀ r ∈ redrawings t, r.OpensOnce .abbreviated) :
    ∃ o', refresh o.content = .ok o' ∧ o'.content = o.content ∧ o'.updated = o.updated := by
  obtain ⟨tail, ht, hcontent, hplan⟩ := exists_plan_content h hreach hopen
  have hsettled : redrawings o.content =
      (redrawings t).map (Redrawing.settled .abbreviated) := by
    rw [redrawings, hplan]
  have hok : refresh o.content = .ok (Outcome.ofVerdicts o.content (verdicts o.content)) :=
    refresh_eq_ok_iff.2 ⟨layers_content_ne_nil h hsettled, rfl⟩
  refine ⟨_, hok, ?_, ?_⟩
  · calc (Outcome.ofVerdicts o.content (verdicts o.content)).content
        = Edit.splice (editsWith .abbreviated o.content) o.content := content_eq_splice hok
      _ = Redrawing.after .abbreviated (redrawings o.content) ++
            ((plan [] (Keymap.visits o.content)).2 ++ tail) := splice_editsWith _ hcontent
      _ = Redrawing.after .abbreviated (redrawings t) ++
            ((plan [] (Keymap.visits t)).2 ++ tail) := by
          rw [hsettled, hplan, Redrawing.after_map_settled]
      _ = Edit.splice (editsWith .abbreviated t) t := (splice_editsWith _ ht).symm
      _ = o.content := (content_eq_splice h).symm
  · rw [updated_eq hok, updated_eq h, hsettled, List.map_map]
    rfl

theorem refresh_refresh {t : Text} {o : Outcome} (h : refresh t = .ok o) :
    (∃ o', refresh o.content = .ok o' ∧ o'.content = o.content ∧ o'.updated = o.updated) ∨
      ReachesBack t ∨
      ∃ u ∈ updates t, ∃ diagram, u.1.diagram? = some diagram ∧
        ¬ Diagram.OpensOnlyAtStart diagram := by
  by_cases hreach : ReachesBack t
  · exact Or.inr (Or.inl hreach)
  · by_cases hopen : ∃ u ∈ updates t, ∃ diagram, u.1.diagram? = some diagram ∧
        ¬ Diagram.OpensOnlyAtStart diagram
    · exact Or.inr (Or.inr hopen)
    · exact Or.inl (exists_refresh_content h hreach (opensOnce_of_updates hopen))

theorem Sample.opensOnlyAtStart :
    Diagram.OpensOnlyAtStart (Diagram.draw ['B'] (Diagram.keyLabel (List.replicate 58 ['K']))) := by
  have hlabel : Diagram.keyLabel (List.replicate 58 ['K']) = fun _ => ['K'] := by
    funext index
    rw [Diagram.keyLabel, List.getD_eq_getElem?_getD, List.getElem?_replicate_of_lt index.isLt]
    decide +kernel
  apply Diagram.opensOnlyAtStart_of_beforeLast?
  rw [hlabel]
  simp only [Diagram.draw, Diagram.template, Diagram.frame, Diagram.rows, List.flatMap_cons,
    List.flatMap_nil, openMark]
  repeat rw [String.toList_ofList]
  decide +kernel

theorem refresh_refresh_sample : ∃ o o', refresh Sample.source = .ok o ∧
    refresh o.content = .ok o' ∧ o'.content = o.content ∧ o'.updated = [['B']] := by
  obtain ⟨o, hok, hupdated⟩ := Sample.refresh_source
  rcases refresh_refresh hok with
    ⟨o', hok', hcontent, hnames⟩ | hreach | ⟨u, hu, diagram, hdraw, hopen⟩
  · exact ⟨o, o', hok, hok', hcontent, hnames.trans hupdated⟩
  · exact absurd hreach Sample.not_reachesBack
  · rw [updates_eq_map_sites, redrawings, Sample.visits_source] at hu
    have hlayer : ∀ u ∈ (Redrawing.sites [] (plan [] [Sample.first, Sample.second]).1).map
        (fun p => (p.2.layer (lineStarts Sample.source) p.1, p.2.edit .abbreviated p.1)),
        u.1.name = ['B'] ∧ u.1.tokens = List.replicate 58 ['K'] := by decide
    rw [Layer.diagram?, (hlayer u hu).1, (hlayer u hu).2,
      Diagram.draw?_of_length List.length_replicate, Option.some.injEq] at hdraw
    exact absurd (hdraw ▸ Sample.opensOnlyAtStart) hopen

end KeyChart
