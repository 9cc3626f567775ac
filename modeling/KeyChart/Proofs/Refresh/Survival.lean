import KeyChart.Proofs.Refresh.Reach
import KeyChart.Proofs.Refresh.Survivors

/-!
The layers of a refreshed text. Main statement: unless an edit reaches back, they are the layers of the
text in order, each with its name and its keys, without those that were declared in a replaced comment;
what the new diagrams show does not matter (`refresh_keeps_tables`).
-/

namespace KeyChart

open Text

/-- The name and the keys of a layer. -/
def Layer.contents (l : Layer) : Text × List Text := (l.name, l.tokens)

/-- The declaration of a layer lies in the comment that the edit of an updated layer replaces. -/
def hides (u : Layer × Edit) (l : Layer) : Bool :=
  u.2.span.start ≤ l.declaration.start && l.declaration.stop ≤ u.1.declaration.start

/-- The layers of a text that no edit hides. -/
def unhidden (t : Text) : List Layer :=
  (Keymap.layers t).filter fun l => !(updates t).any fun u => hides u l

theorem map_contents_layers (t : Text) : (Keymap.layers t).map Layer.contents =
    ((Keymap.visits t).map Visit.contents).filter fun c => c.2 ≠ [] := by
  have hsites : ∀ before vs, (Visit.sites before vs).map (fun s => s.2.contents) =
      vs.map Visit.contents := by
    intro before vs
    induction vs generalizing before with
    | nil => rfl
    | cons v vs ih => rw [Visit.sites, List.map_cons, List.map_cons, ih]
  rw [← hsites [], Keymap.layers, declared_eq_map_sites, List.filter_map, List.filter_map,
    List.map_map]
  rfl

theorem map_contents_unhidden (t : Text) : (unhidden t).map Layer.contents =
    (survivors (Redrawing.sites [] (redrawings t)) (Visit.sites [] (Keymap.visits t))).filter
      fun c => c.2 ≠ [] := by
  have hhides : ∀ s : Text × Visit,
      ((updates t).any fun u => hides u (s.2.layer (lineStarts t) s.1)) =
        (Redrawing.sites [] (redrawings t)).any fun p => covers p s := by
    intro s
    rw [updates_eq_map_sites, List.any_map]
    rfl
  rw [unhidden, survivors, Keymap.layers, declared_eq_map_sites, List.filter_filter, List.filter_map,
    List.filter_map, List.filter_filter, List.map_map]
  -- empty tables are left out first on one side and last on the other
  congr 1
  apply List.filter_congr
  intro s _
  show (!(updates t).any _ && _) = (_ && !List.any _ _)
  rw [hhides, Bool.and_comm]
  rfl

theorem layers_splice (label : Labelling) {t : Text} (h : ¬ ReachesBack t) :
    (Keymap.layers (Edit.splice (editsWith label t) t)).map Layer.contents =
      (unhidden t).map Layer.contents := by
  obtain ⟨ws, tail, hws, _, _, hvisits⟩ := exists_renewal_splice label h
  have hcontents : ws.map Visit.contents =
      survivors (Redrawing.sites [] (redrawings t)) (Visit.sites [] (Keymap.visits t)) :=
    hws.map_contents []
  calc (Keymap.layers (Edit.splice (editsWith label t) t)).map Layer.contents
      = (ws.map Visit.contents).filter fun c => c.2 ≠ [] := by rw [map_contents_layers, hvisits]
    _ = (unhidden t).map Layer.contents := by rw [hcontents, map_contents_unhidden]

theorem refresh_keeps_tables {t : Text} {o : Outcome} (h : refresh t = .ok o)
    (hreach : ¬ ReachesBack t) :
    (Keymap.layers o.content).map Layer.contents = (unhidden t).map Layer.contents ∧
      ∀ label : Labelling, (Keymap.layers (Edit.splice (editsWith label t) t)).map Layer.contents =
        (unhidden t).map Layer.contents := by
  constructor
  · rw [content_eq_splice h]
    exact layers_splice .abbreviated hreach
  · intro label
    exact layers_splice label hreach

theorem refresh_keeps_tables_sample : ∃ o, refresh Sample.source = .ok o ∧
    o.updated = [['B']] ∧ (Keymap.layers o.content).map Layer.contents =
      [(['A'], [['K']]), (['B'], List.replicate 58 ['K'])] := by
  obtain ⟨o, hok, hupdated⟩ := Sample.refresh_source
  have hkept := (refresh_keeps_tables hok Sample.not_reachesBack).1
  rw [map_contents_unhidden, redrawings, Sample.visits_source] at hkept
  exact ⟨o, hok, hupdated, hkept.trans (by decide)⟩

end KeyChart
