import KeyChart.Proofs.Keymap.Pieces
import KeyChart.Proofs.Keymap.Placement
import KeyChart.Proofs.Refresh.Survival

/-!
Layers printed and read again. Each layer is printed as its canonical header, its keys and the end of its
table, on lines of its own. Main statement: the printed layers of a text whose tables are all closed are
read as the same names with the same keys (`layers_printed`).
-/

namespace KeyChart

open Text Header

/-- The layer as it is printed. -/
def Layer.printed (l : Layer) : Text := l.header ++ Table.joined l.tokens ++ [')', '\n']

/-- Layers printed one behind the other. -/
def Keymap.printed (ls : List Layer) : Text := ls.flatMap Layer.printed

/-- The layer can be read from what is printed of it. -/
structure Layer.IsPrintable (l : Layer) : Prop where
  name : IsName l.name
  tokens_ne_nil : l.tokens ≠ []
  isToken : ∀ token ∈ l.tokens, IsToken token

/-! ## What is read of printed layers -/

/-- The visit of a printed layer. -/
def Layer.visit (gap : Text) (l : Layer) : Visit :=
  ⟨gap, canonical l.name, ⟨Table.joined l.tokens ++ [')'], l.tokens, true⟩⟩

theorem Layer.text_visit (gap : Text) (l : Layer) (after : Text) :
    gap ++ (l.printed ++ after) = (l.visit gap).text ++ '\n' :: after := by
  simp only [Layer.printed, Layer.visit, Visit.text, Layer.header, List.append_assoc,
    List.cons_append, List.nil_append]

theorem Layer.IsPrintable.visits {l : Layer} (h : l.IsPrintable) {p : Place} {gap : Text}
    (hgap : p.Admits gap) {after : Text} {vs : List Visit} (hlater : Visits .tableEnd after vs) :
    Visits p ((l.visit gap).text ++ after) (l.visit gap :: vs) :=
  .visit hgap (wellFormed_canonical h.name) (Table.read_joined h.tokens_ne_nil h.isToken after) hlater

/-- Printed layers behind the end of a table, each on a line of its own. -/
theorem visits_behind_table {ls : List Layer} (h : ∀ l ∈ ls, l.IsPrintable) :
    Visits .tableEnd ('\n' :: Keymap.printed ls) (ls.map (Layer.visit ['\n'])) := by
  induction ls with
  | nil => exact .none bare_nil
  | cons l ls ih =>
    obtain ⟨hl, hls⟩ := List.forall_mem_cons.1 h
    have hgap : Place.tableEnd.Admits ['\n'] := ⟨List.mem_singleton_self _, bare_nil⟩
    have hvisits := hl.visits hgap (ih hls)
    rw [← Layer.text_visit] at hvisits
    exact hvisits

theorem map_contents_visits_printed {ls : List Layer} (h : ∀ l ∈ ls, l.IsPrintable) :
    (Keymap.visits (Keymap.printed ls)).map Visit.contents = ls.map Layer.contents := by
  have hcontents : ∀ (gap : Text) (ls : List Layer),
      (ls.map (Layer.visit gap)).map Visit.contents = ls.map Layer.contents := by
    intro gap ls
    rw [List.map_map]
    rfl
  cases ls with
  | nil =>
    have hnone : Visits .lineStart (Keymap.printed []) [] := .none bare_nil
    rw [hnone.eq_visits]
    rfl
  | cons l ls =>
    obtain ⟨hl, hls⟩ := List.forall_mem_cons.1 h
    have hgap : Place.lineStart.Admits [] := bare_nil
    have hvisits := hl.visits hgap (visits_behind_table hls)
    rw [← Layer.text_visit, List.nil_append] at hvisits
    have hprinted : Keymap.printed (l :: ls) = l.printed ++ Keymap.printed ls := List.flatMap_cons
    rw [hprinted, hvisits.eq_visits, List.map_cons, hcontents]
    rfl

/-! ## The layers of a text can be printed -/

theorem isPrintable_of_mem_layers {t : Text} {l : Layer} (h : l ∈ Keymap.layers t)
    (hclosed : (l.table t).closed = true) : l.IsPrintable := by
  have hplaced := isPlaced_of_mem_layers h
  obtain ⟨header, wf, hname, -⟩ := hplaced.header
  refine ⟨hname ▸ wf.name, hplaced.tokens_ne_nil, ?_⟩
  rw [hplaced.tokens]
  exact Table.isToken_of_closed hclosed

theorem layers_printed {t : Text} (h : ∀ l ∈ Keymap.declared t, (l.table t).closed = true) :
    (Keymap.layers (Keymap.printed (Keymap.layers t))).map Layer.contents =
      (Keymap.layers t).map Layer.contents := by
  have hprintable : ∀ l ∈ Keymap.layers t, l.IsPrintable := fun l hl =>
    isPrintable_of_mem_layers hl (h l (mem_layers_iff.1 hl).1)
  rw [map_contents_layers, map_contents_visits_printed hprintable, List.filter_eq_self]
  intro c hc
  obtain ⟨l, hl, rfl⟩ := List.mem_map.1 hc
  exact decide_eq_true (hprintable l hl).tokens_ne_nil

/-! ## A key around a comment and a key over two lines -/

namespace Sample

def glued : Visit where
  gap := []
  header := ⟨['A'], [' '], [], [], [], [' ']⟩
  table := ⟨"K/*,)*/L, M(1,\nN) // (\n)".toList, ["KL".toList, "M(1,\nN)".toList], true⟩

def gluedSource : Text := glued.text ++ ['\n']

theorem visits_gluedSource : Keymap.visits gluedSource = [glued] := by
  have wf : glued.header.WellFormed :=
    (read?_eq_some_iff.1 (show read? glued.header.spelled = some (glued.header, []) by decide)).2
  have hlast : Visits .tableEnd ['\n'] [] := .none bare_nil
  have hall : Visits .lineStart gluedSource [glued] :=
    .visit (show Bare [] from bare_nil) wf (by decide +kernel) hlast
  exact hall.eq_visits

theorem declared_gluedSource : Keymap.declared gluedSource = [glued.placed []] := by
  rw [declared_eq_map_placed, visits_gluedSource]
  rfl

end Sample

theorem layers_printed_sample :
    (∀ l ∈ Keymap.declared Sample.gluedSource, (l.table Sample.gluedSource).closed = true) ∧
    (Keymap.layers (Keymap.printed (Keymap.layers Sample.gluedSource))).map Layer.contents =
      [(['A'], ["KL".toList, "M(1,\nN)".toList])] := by
  have hclosed : ∀ l ∈ Keymap.declared Sample.gluedSource,
      (l.table Sample.gluedSource).closed = true := by
    rw [Sample.declared_gluedSource]
    decide
  refine ⟨hclosed, ?_⟩
  rw [layers_printed hclosed, map_contents_layers, Sample.visits_gluedSource]
  rfl

end KeyChart
