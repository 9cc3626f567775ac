import KeyChart.Proofs.Refresh.Updates

/-!
The verdict on each layer. Layers are judged in order, and all that a judgement knows of the earlier
ones is the last updated layer. Main statement: a refresh fails exactly on a text without layers, and
otherwise its report tells of every layer once and in order, each with the reason that applies to it
(`refresh_classifies`).
-/

namespace KeyChart

open Text Comment

/-- The text in front of a layer's declaration. -/
def Layer.above (l : Layer) (t : Text) : Text := takeBytes l.declaration.start t

/-- The last updated layer after these verdicts, given the one before them. -/
def lastUpdated (last : Option Layer) : List Verdict → Option Layer
  | [] => last
  | .updated l _ :: vs => lastUpdated (some l) vs
  | .skipped _ _ :: vs => lastUpdated last vs

/-- The verdict gives the reason that applies to its layer, given the last updated layer before it:
another number of keys, no comment above the declaration, or one whose nearest opening lies before the
end of that layer's header. The layer is updated if none applies. -/
structure Verdict.IsDue (v : Verdict) (t : Text) (last : Option Layer) : Prop where
  keyCount : ∀ n, v.reason? = some (.keyCount n) ↔ n = v.layer.keyCount ∧ n ≠ 58
  missingComment : v.reason? = some .missingComment ↔
    v.layer.keyCount = 58 ∧ ∀ u, ¬ OpensBehind u (v.layer.above t)
  overlap : v.reason? = some .overlap ↔
    v.layer.keyCount = 58 ∧ ∃ u, OpensLastBehind u (v.layer.above t) ∧
      ∃ l, last = some l ∧ byteSize u < l.declaration.stop
  updated : v.reason? = none ↔
    v.layer.keyCount = 58 ∧ ∃ u, OpensLastBehind u (v.layer.above t) ∧
      ∀ l, last = some l → l.declaration.stop ≤ byteSize u

/-! ## One layer -/

/-- The three ways in which the edit of a layer comes out. -/
theorem Layer.edit_cases (l : Layer) (t : Text) :
    (l.keyCount ≠ 58 ∧ l.edit t = .error (.keyCount l.keyCount)) ∨
      (l.keyCount = 58 ∧ (∀ u, ¬ OpensBehind u (l.above t)) ∧ l.edit t = .error .missingComment) ∨
      (l.keyCount = 58 ∧ ∃ u e, OpensLastBehind u (l.above t) ∧ l.edit t = .ok e ∧
        e.span = ⟨byteSize u, l.declaration.stop⟩) := by
  by_cases hcount : l.keyCount = 58
  · right
    obtain ⟨diagram, hdraw⟩ : ∃ diagram, l.diagram? = some diagram :=
      ⟨_, Diagram.draw?_of_length hcount⟩
    cases hbefore : beforeComment? (takeBytes l.declaration.start t) with
    | none =>
      left
      refine ⟨hcount, beforeComment?_eq_none_iff.1 hbefore, ?_⟩
      rw [Layer.edit, hdraw, hbefore]
    | some u =>
      right
      have hedit : l.edit t =
          .ok ⟨⟨byteSize u, l.declaration.stop⟩, diagram ++ '\n' :: l.header⟩ := by
        rw [Layer.edit, hdraw, hbefore]
      exact ⟨hcount, u, _, beforeComment?_eq_some_iff_last.1 hbefore, hedit, rfl⟩
  · left
    exact ⟨hcount, Layer.edit_eq_error_of_keyCount hcount⟩

/-- Where the edits of earlier layers end. -/
def freeFrom (last : Option Layer) : Nat := last.elim 0 fun l => l.declaration.stop

theorem lt_freeFrom_iff {last : Option Layer} {n : Nat} :
    n < freeFrom last ↔ ∃ l, last = some l ∧ n < l.declaration.stop := by
  cases last with
  | none => simp [freeFrom]
  | some l => simp [freeFrom]

theorem not_lt_freeFrom_iff {last : Option Layer} {n : Nat} :
    ¬ n < freeFrom last ↔ ∀ l, last = some l → l.declaration.stop ≤ n := by
  rw [lt_freeFrom_iff]
  simp

section Due

variable {l : Layer} {t u : Text} {last : Option Layer}

theorem isDue_keyCount (hcount : l.keyCount ≠ 58) :
    (Verdict.skipped l (.keyCount l.keyCount)).IsDue t last where
  keyCount n := by
    simp only [Verdict.reason?, Verdict.layer, Option.some.injEq, SkipReason.keyCount.injEq]
    constructor
    · rintro rfl
      exact ⟨rfl, hcount⟩
    · intro h
      exact h.1.symm
  missingComment := by simp [Verdict.reason?, Verdict.layer, hcount]
  overlap := by simp [Verdict.reason?, Verdict.layer, hcount]
  updated := by simp [Verdict.reason?, Verdict.layer, hcount]

theorem isDue_missingComment (hcount : l.keyCount = 58)
    (hnone : ∀ u, ¬ OpensBehind u (l.above t)) :
    (Verdict.skipped l .missingComment).IsDue t last where
  keyCount := by simp [Verdict.reason?, Verdict.layer, hcount]
  missingComment := by simp [Verdict.reason?, Verdict.layer, hcount, hnone]
  overlap := by simp [Verdict.reason?, Verdict.layer, OpensLastBehind, hnone]
  updated := by simp [Verdict.reason?, Verdict.layer, OpensLastBehind, hnone]

theorem isDue_overlap (hcount : l.keyCount = 58) (hu : OpensLastBehind u (l.above t))
    (hlt : byteSize u < freeFrom last) : (Verdict.skipped l .overlap).IsDue t last where
  keyCount := by simp [Verdict.reason?, Verdict.layer, hcount]
  missingComment := by
    simp only [Verdict.reason?, Verdict.layer, Option.some.injEq, reduceCtorEq, false_iff]
    intro hmissing
    exact hmissing.2 u hu.1
  overlap := by
    simp only [Verdict.reason?, Verdict.layer, true_iff]
    exact ⟨hcount, u, hu, lt_freeFrom_iff.1 hlt⟩
  updated := by
    simp only [Verdict.reason?, Verdict.layer, reduceCtorEq, false_iff]
    intro hupdated
    obtain ⟨_, u', hu', hle⟩ := hupdated
    rw [hu'.unique hu] at hle
    exact not_lt_freeFrom_iff.2 hle hlt

theorem isDue_updated (hcount : l.keyCount = 58) (hu : OpensLastBehind u (l.above t))
    (hlt : ¬ byteSize u < freeFrom last) (e : Edit) : (Verdict.updated l e).IsDue t last where
  keyCount := by simp [Verdict.reason?, Verdict.layer, hcount]
  missingComment := by
    simp only [Verdict.reason?, Verdict.layer, reduceCtorEq, false_iff]
    intro hmissing
    exact hmissing.2 u hu.1
  overlap := by
    simp only [Verdict.reason?, Verdict.layer, reduceCtorEq, false_iff]
    intro hoverlap
    obtain ⟨_, u', hu', hbehind⟩ := hoverlap
    rw [hu'.unique hu] at hbehind
    exact hlt (lt_freeFrom_iff.2 hbehind)
  updated := by
    simp only [Verdict.reason?, Verdict.layer, true_iff]
    exact ⟨hcount, u, hu, not_lt_freeFrom_iff.1 hlt⟩

end Due

/-! ## All layers -/

/-- One judgement: the first verdict is due, and the others are those of a judge that knows of its
layer if that was updated. -/
theorem Verdict.judge_cons (t : Text) (last : Option Layer) (l : Layer) (ls : List Layer) :
    ∃ v, judge t (freeFrom last) (l :: ls) =
        v :: judge t (freeFrom (lastUpdated last [v])) ls ∧ v.IsDue t last := by
  rcases l.edit_cases t with ⟨hcount, he⟩ | ⟨hcount, hnone, he⟩ | ⟨hcount, u, e, hu, he, hspan⟩
  · exact ⟨_, by rw [judge, he]; rfl, isDue_keyCount hcount⟩
  · exact ⟨_, by rw [judge, he]; rfl, isDue_missingComment hcount hnone⟩
  · by_cases hlt : byteSize u < freeFrom last
    · refine ⟨_, ?_, isDue_overlap hcount hu hlt⟩
      simp only [judge, he, hspan, if_pos hlt]
      rfl
    · refine ⟨_, ?_, isDue_updated hcount hu hlt e⟩
      simp only [judge, he, hspan, if_neg hlt]
      rfl

theorem lastUpdated_of_updated {v : Verdict} (h : v.reason? = none) (last : Option Layer)
    (vs : List Verdict) : lastUpdated last (v :: vs) = lastUpdated (some v.layer) vs := by
  cases v with
  | updated l e => rfl
  | skipped l reason => cases h

theorem lastUpdated_of_skipped {v : Verdict} {reason : SkipReason} (h : v.reason? = some reason)
    (last : Option Layer) (vs : List Verdict) :
    lastUpdated last (v :: vs) = lastUpdated last vs := by
  cases v with
  | updated l e => cases h
  | skipped l reason => rfl

theorem lastUpdated_cons (last : Option Layer) (v : Verdict) (vs : List Verdict) :
    lastUpdated last (v :: vs) = lastUpdated (lastUpdated last [v]) vs := by
  cases v <;> rfl

/-- Every verdict of a judge is due. -/
theorem Verdict.isDue_of_judge {t : Text} {last : Option Layer} {ls : List Layer}
    {before after : List Verdict} {v : Verdict}
    (h : judge t (freeFrom last) ls = before ++ v :: after) :
    v.IsDue t (lastUpdated last before) := by
  induction ls generalizing last before with
  | nil => exact absurd h.symm (List.append_ne_nil_of_right_ne_nil before (List.cons_ne_nil v after))
  | cons l ls ih =>
    obtain ⟨w, hjudge, hdue⟩ := judge_cons t last l ls
    rw [hjudge] at h
    cases before with
    | nil =>
      obtain ⟨rfl, -⟩ := List.cons.inj h
      exact hdue
    | cons b before =>
      obtain ⟨rfl, hlater⟩ := List.cons.inj h
      rw [lastUpdated_cons]
      exact ih hlater

theorem map_layer_verdicts (t : Text) : (verdicts t).map Verdict.layer = Keymap.layers t :=
  Verdict.map_layer_judge t 0 (Keymap.layers t)

theorem isDue_of_verdicts {t : Text} {before after : List Verdict} {v : Verdict}
    (h : verdicts t = before ++ v :: after) : v.IsDue t (lastUpdated none before) :=
  Verdict.isDue_of_judge h

theorem filterMap_updatedName?_eq (vs : List Verdict) :
    vs.filterMap Verdict.updatedName? =
      (vs.filter fun v => v.reason? = none).map fun v => v.layer.name := by
  induction vs with
  | nil => rfl
  | cons v vs ih =>
    cases v with
    | updated l e => exact congrArg (l.name :: ·) ih
    | skipped l reason => exact ih

theorem refresh_classifies (t : Text) :
    (refresh t = .error .noLayers ↔ Keymap.layers t = []) ∧
      (Keymap.layers t ≠ [] → ∃ o, refresh t = .ok o ∧
        (verdicts t).map Verdict.layer = Keymap.layers t ∧
        o.updated = ((verdicts t).filter fun v => v.reason? = none).map (fun v => v.layer.name) ∧
        o.skipped = (verdicts t).filterMap
          (fun v => v.reason?.map fun reason => ⟨v.layer.name, reason⟩) ∧
        ∀ before v after, verdicts t = before ++ v :: after →
          v.IsDue t (lastUpdated none before)) := by
  refine ⟨refresh_eq_error_iff, fun hlayers => ?_⟩
  refine ⟨_, refresh_eq_ok_iff.2 ⟨hlayers, rfl⟩, map_layer_verdicts t, ?_, rfl, ?_⟩
  · exact filterMap_updatedName?_eq (verdicts t)
  · intro before v after hsplit
    exact isDue_of_verdicts hsplit

/-! ## A text with every verdict -/

namespace Sample

/-- A declaration with a key for each physical one and no comment. -/
def uncommented : Visit := { second with gap := ['\n'], header := Header.canonical ['C'] }

/-- The end mark in the line comment makes a pair with the opening above `second`. -/
def overlapping : Visit :=
  { second with gap := [' ', '/', '/', ' ', '*', '/', '\n'], header := Header.canonical ['D'] }

def mixed : Text :=
  first.text ++ (second.text ++ (uncommented.text ++ (overlapping.text ++ ['\n'])))

theorem visits_mixed : Keymap.visits mixed = [first, second, uncommented, overlapping] := by
  have hlast : Visits .tableEnd (overlapping.text ++ ['\n']) [overlapping] :=
    .visit ⟨by decide, by decide⟩ (wellFormed_canonical rfl) (by decide)
      (.none Header.bare_nil)
  exact Visits.eq_visits (.visit (show Header.Bare _ by decide) (wellFormed_canonical rfl)
    (by decide +kernel) (.visit ⟨by decide, by decide⟩ (wellFormed_canonical rfl)
      (by decide +kernel) (.visit ⟨by decide, by decide⟩ (wellFormed_canonical rfl)
        (by decide +kernel) hlast)))

theorem layers_mixed : Keymap.layers mixed =
    [first.layer (lineStarts mixed) [],
      second.layer (lineStarts mixed) (first.text ++ second.gap),
      uncommented.layer (lineStarts mixed) (first.text ++ second.text ++ uncommented.gap),
      overlapping.layer (lineStarts mixed)
        (first.text ++ second.text ++ uncommented.text ++ overlapping.gap)] := by
  rw [Keymap.layers, declared_eq_map_sites, visits_mixed]
  rfl

end Sample

theorem refresh_classifies_sample : ∃ o, refresh Sample.mixed = .ok o ∧ o.updated = [['B']] ∧
    o.skipped = [⟨['A'], .keyCount 1⟩, ⟨['C'], .missingComment⟩, ⟨['D'], .overlap⟩] := by
  obtain ⟨o, hok, hlayers, hupdated, hskipped, hdue⟩ :=
    (refresh_classifies Sample.mixed).2 (by rw [Sample.layers_mixed]; exact List.cons_ne_nil _ _)
  rw [Sample.layers_mixed] at hlayers
  obtain ⟨a, vs, hvs, ha, hlayers⟩ := List.map_eq_cons_iff.1 hlayers
  obtain ⟨b, vs, rfl, hb, hlayers⟩ := List.map_eq_cons_iff.1 hlayers
  obtain ⟨c, vs, rfl, hc, hlayers⟩ := List.map_eq_cons_iff.1 hlayers
  obtain ⟨d, vs, rfl, hd, hlayers⟩ := List.map_eq_cons_iff.1 hlayers
  obtain rfl := List.map_eq_nil_iff.1 hlayers
  have hra : a.reason? = some (.keyCount 1) :=
    ((hdue [] a [b, c, d] hvs).keyCount 1).2 ⟨by rw [ha]; rfl, by decide⟩
  have hrb : b.reason? = none := by
    refine (hdue [a] b [c, d] hvs).updated.2 ⟨by rw [hb]; decide, Sample.first.text ++ ['\n'], ?_, ?_⟩
    · rw [hb]
      exact beforeComment?_eq_some_iff_last.1 (by decide)
    · rw [lastUpdated_of_skipped hra]
      simp [lastUpdated]
  have hrc : c.reason? = some .missingComment := by
    refine (hdue [a, b] c [d] hvs).missingComment.2 ⟨by rw [hc]; decide, ?_⟩
    rw [hc]
    exact beforeComment?_eq_none_iff.1 (by decide +kernel)
  have hrd : d.reason? = some .overlap := by
    refine (hdue [a, b, c] d [] hvs).overlap.2
      ⟨by rw [hd]; decide, Sample.first.text ++ ['\n'], ?_, b.layer, ?_, ?_⟩
    · rw [hd]
      exact beforeComment?_eq_some_iff_last.1 (by decide +kernel)
    · rw [lastUpdated_of_skipped hra, lastUpdated_of_updated hrb, lastUpdated_of_skipped hrc]
      rfl
    · rw [hb]
      decide
  have hnames : a.layer.name = ['A'] ∧ b.layer.name = ['B'] ∧ c.layer.name = ['C'] ∧
      d.layer.name = ['D'] := by
    rw [ha, hb, hc, hd]
    exact ⟨rfl, rfl, rfl, rfl⟩
  refine ⟨o, hok, ?_, ?_⟩
  · rw [hupdated, hvs]
    simp [hra, hrb, hrc, hrd, hnames]
  · rw [hskipped, hvs]
    simp [hra, hrb, hrc, hrd, hnames]

end KeyChart
