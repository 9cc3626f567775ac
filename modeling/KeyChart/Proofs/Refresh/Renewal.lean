import KeyChart.Proofs.Refresh.Plan

/-!
The visits of a redrawn text. A renewal goes through visits as their plan does and writes down what
they become: a redrawn visit keeps the part of a gap in front of its comment, and the visits between
that gap and its own header are lost. Main statements: the visits it writes down have the redrawn text
(`Renewal.text`), and they are the visits of that text (`Renewal.visits`).
-/

namespace KeyChart

open Text Comment

/-- A drawing on lines of its own. -/
def Visit.drawing (label : Labelling) (v : Visit) : Text :=
  Diagram.draw v.header.name (label v.header.name v.table.tokens) ++ ['\n']

/-- A visit once it is redrawn behind this text. -/
def Visit.redrawn (label : Labelling) (lead : Text) (v : Visit) : Visit where
  gap := lead ++ v.drawing label
  header := Header.canonical v.header.name
  table := v.table

/-- What visits become, given the text from the last redrawing on and the visits left as they are
behind that text. A redrawn visit is lost together with those behind the place where its comment
opens, which lies in the gap of the first of them. -/
inductive Renewal (label : Labelling) : Text → List Visit → List Visit → List Visit → Prop
  | done {since : Text} {pending : List Visit} : Renewal label since pending [] pending
  | keep {since : Text} {pending : List Visit} {v : Visit} {vs ws : List Visit}
      (hkept : v.kept? (since ++ pending.flatMap Visit.text) = none)
      (hlater : Renewal label since (pending ++ [v]) vs ws) : Renewal label since pending (v :: vs) ws
  | draw {since lead rest : Text} {spared lost behind : List Visit} {v b : Visit}
      {vs ws : List Visit} (hlost : lost ++ [v] = b :: behind) (hgap : b.gap = lead ++ rest)
      (hkept : v.kept? (since ++ (spared ++ lost).flatMap Visit.text) =
        some (since ++ (spared.flatMap Visit.text ++ lead)))
      (hlater : Renewal label v.table.text [] vs ws) :
      Renewal label since (spared ++ lost) (v :: vs) (spared ++ v.redrawn label lead :: ws)

namespace Renewal

variable {label : Labelling} {since : Text} {pending vs ws : List Visit}

theorem text (h : Renewal label since pending vs ws) :
    since ++ ws.flatMap Visit.text =
      Redrawing.after label (plan (since ++ pending.flatMap Visit.text) vs).1 ++
        (plan (since ++ pending.flatMap Visit.text) vs).2 := by
  induction h with
  | done => rfl
  | @keep since pending v vs ws hkept _ ih =>
    rw [plan_cons_of_none hkept, ih, List.flatMap_append, List.append_assoc]
    simp only [List.flatMap_cons, List.flatMap_nil, List.append_nil]
  | @draw since lead rest spared lost behind v b vs ws _ _ hkept _ ih =>
    obtain ⟨comment, _, _, hplan⟩ := plan_cons_of_some hkept vs
    rw [List.flatMap_nil, List.append_nil] at ih
    rw [hplan, Redrawing.after_cons, List.append_assoc, ← ih]
    simp only [List.flatMap_append, List.flatMap_cons, Visit.text, Visit.redrawn, Visit.drawing,
      Redrawing.new, List.append_assoc, List.cons_append, List.nil_append]

theorem eq_of_nil (h : Renewal label since pending [] ws) : ws = pending := by
  cases h with
  | done => rfl

/-! ## The reading of the redrawn text -/

theorem bare_drawing {v : Visit} (wf : v.header.WellFormed) (label : Labelling) :
    Header.Bare (v.drawing label) :=
  (Diagram.bare_draw wf.name _).append_stop (Header.bare_of_length_lt (by decide)) (by decide)

/-- A drawing is seen as no declaration wherever it stands behind a front part of a gap. -/
theorem admits_redrawn {p : Place} {lead rest : Text} {v : Visit} (wf : v.header.WellFormed)
    (h : p.Admits (lead ++ rest)) (label : Labelling) : p.Admits (lead ++ v.drawing label) := by
  have hdraw := bare_drawing wf label
  obtain ⟨x, hx⟩ : ∃ x, v.drawing label = '/' :: x := ⟨_, rfl⟩
  have hjoin : ∀ {u : Text}, Header.Bare u → Header.Bare (u ++ v.drawing label) := by
    intro u hu
    rw [hx] at hdraw ⊢
    exact hu.append_stop hdraw (by decide)
  cases p with
  | lineStart => exact hjoin (Header.Bare.left h)
  | tableEnd =>
    have hmem : '\n' ∈ v.drawing label := List.mem_append_right _ List.mem_cons_self
    refine ⟨List.mem_append_right lead hmem, ?_⟩
    by_cases hline : '\n' ∈ lead
    · have hlead := h.2
      rw [nextLines_append_of_mem hline] at hlead ⊢
      exact hjoin hlead.left
    · rw [nextLines_append_of_not_mem hline]
      rw [← lineRest_append_nextLines (v.drawing label)] at hdraw
      exact hdraw.right

/-- The visits of a renewal are those of its text. -/
theorem visits {p : Place} {tail : Text} (h : Renewal label since pending vs ws)
    (hv : Visits p ((pending ++ vs).flatMap Visit.text ++ tail) (pending ++ vs)) :
    Visits p (ws.flatMap Visit.text ++ tail) ws := by
  induction h generalizing p with
  | done => rwa [List.append_nil] at hv
  | @keep since pending v vs ws _ _ ih =>
    apply ih
    rwa [List.append_assoc, List.singleton_append]
  | @draw since lead rest spared lost behind v b vs ws hlost hgap _ hlater ih =>
    have hnil : vs.flatMap Visit.text ++ tail = [] → ws.flatMap Visit.text ++ tail = [] := by
      intro hempty
      cases vs with
      | nil => rwa [eq_of_nil hlater]
      | cons u us => simp [Visit.text_ne_nil] at hempty
    -- the table of `v` and what follows it are read as before
    obtain ⟨q, hq⟩ := hv.exists_place
    obtain ⟨after, htext, _, wf, htable, hbehind⟩ := hq.inv
    rw [List.flatMap_cons, List.append_assoc] at htext
    rw [← List.append_cancel_left htext] at htable hbehind
    have hws := ih hbehind
    have hsplit : spared ++ lost ++ v :: vs = spared ++ (b :: behind ++ vs) := by
      rw [← hlost, List.append_assoc, List.append_assoc, List.singleton_append]
    rw [hsplit] at hv
    -- up to `spared` nothing changes; the drawing is read where the first lost gap was
    apply hv.append_congr
    · intro hempty
      simp [Visit.text_ne_nil] at hempty
    · intro q hq
      obtain ⟨_, _, hb, _⟩ := hq.inv
      rw [hgap] at hb
      rw [List.flatMap_cons, List.append_assoc]
      exact .visit (admits_redrawn wf hb label) (Header.wellFormed_canonical wf.name)
        (Table.read_append_of_read htable hnil) hws

end Renewal
end KeyChart
