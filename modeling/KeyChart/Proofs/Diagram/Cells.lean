import Mathlib.Data.Fintype.EquivFin
import KeyChart.Proofs.Diagram.Shape

/-!
The cells of a diagram. Main statements: each key of a layer has one cell, whose place depends on the
length of the layer's name only, no two cells share a character, and a key changes no character outside
its own cell (`draw?_cells`).
-/

namespace KeyChart
namespace Diagram

open Text

/-! ## The cells of marks -/

/-- The keys of marks, each with the offset of its cell. -/
def cells : Nat → List Mark → List (Nat × Fin keyCount)
  | _, [] => []
  | start, .ink _ :: marks => cells (start + 1) marks
  | start, .key index :: marks => (start, index) :: cells (start + cellWidth) marks

/-- The offsets of the number signs of a text once each is as wide as a cell. -/
def slots : Nat → Text → List Nat
  | _, [] => []
  | start, c :: t => if c = '#' then start :: slots (start + cellWidth) t else slots (start + 1) t

/-- As long as there are keys for all number signs, a character that takes none is no number sign. -/
theorem ne_sign_of_slots {start : Nat} {keys : List (Fin keyCount)} {c : Char} {t : Text}
    (h : (slots start (c :: t)).length ≤ keys.length)
    (hc : ∀ key keys', keys = key :: keys' → c ≠ '#') : c ≠ '#' := by
  cases keys with
  | nil =>
    intro hsign
    rw [slots, if_pos hsign] at h
    cases h
  | cons key keys => exact hc key keys rfl

theorem cells_markUp (start : Nat) {keys : List (Fin keyCount)} {t : Text}
    (h : (slots start t).length ≤ keys.length) :
    cells start (markUp keys t) = (slots start t).zip keys := by
  fun_induction markUp keys t generalizing start with
  | case1 keys => rfl
  | case2 key keys t ih =>
    rw [slots, if_pos rfl] at h ⊢
    rw [cells, ih _ (Nat.le_of_succ_le_succ h), List.zip_cons_cons]
  | case3 keys c t hc ih =>
    have hsign := ne_sign_of_slots h hc
    rw [slots, if_neg hsign] at h ⊢
    exact ih _ h

theorem le_of_mem_cells {start : Nat} {marks : List Mark} {p : Nat × Fin keyCount}
    (h : p ∈ cells start marks) : start ≤ p.1 := by
  fun_induction cells start marks with
  | case1 => cases h
  | case2 start c marks ih => exact Nat.le_of_succ_le (ih h)
  | case3 start index marks ih =>
    rcases List.mem_cons.1 h with rfl | h
    · exact Nat.le_refl _
    · exact Nat.le_trans (Nat.le_add_right _ _) (ih h)

theorem pairwise_cells (start : Nat) (marks : List Mark) :
    (cells start marks).Pairwise fun p q => p.1 + cellWidth ≤ q.1 := by
  fun_induction cells start marks with
  | case1 => exact List.Pairwise.nil
  | case2 start c marks ih => exact ih
  | case3 start index marks ih => exact List.Pairwise.cons (fun q hq => le_of_mem_cells hq) ih

/-- A cell shows its label. -/
theorem take_drop_of_mem_cells (label : Fin keyCount → Text) {start : Nat} {marks : List Mark}
    {p : Nat × Fin keyCount} (h : p ∈ cells start marks) :
    ((marks.flatMap (Mark.draw label)).drop (p.1 - start)).take cellWidth = centre (label p.2) := by
  fun_induction cells start marks with
  | case1 => cases h
  | case2 start c marks ih =>
    have hle := le_of_mem_cells h
    rw [List.flatMap_cons, Mark.draw, show p.1 - start = p.1 - (start + 1) + 1 by omega,
      List.singleton_append, List.drop_succ_cons]
    exact ih h
  | case3 start index marks ih =>
    have hlength := length_centre (label index)
    rw [List.flatMap_cons, Mark.draw]
    rcases List.mem_cons.1 h with rfl | h
    · rw [Nat.sub_self, List.drop_zero, List.take_left' hlength]
    · have hle := le_of_mem_cells h
      rw [show p.1 - start = cellWidth + (p.1 - (start + cellWidth)) by omega,
        ← List.drop_drop, List.drop_left' hlength]
      exact ih h

/-- A character outside the cells of keys with other labels stays. -/
theorem getElem?_flatMap_draw_congr {label label' : Fin keyCount → Text} {start i : Nat}
    {marks : List Mark} (h : ∀ p ∈ cells start marks,
      label p.2 = label' p.2 ∨ start + i < p.1 ∨ p.1 + cellWidth ≤ start + i) :
    (marks.flatMap (Mark.draw label))[i]? = (marks.flatMap (Mark.draw label'))[i]? := by
  fun_induction cells start marks generalizing i with
  | case1 => rfl
  | case2 start c marks ih =>
    rw [List.flatMap_cons, List.flatMap_cons, Mark.draw, Mark.draw, List.singleton_append,
      List.singleton_append]
    cases i with
    | zero => rfl
    | succ i =>
      rw [List.getElem?_cons_succ, List.getElem?_cons_succ]
      apply ih
      intro p hp
      refine (h p hp).imp_right fun hout => ?_
      omega
  | case3 start index marks ih =>
    have hlength := length_centre (label index)
    have hlength' := length_centre (label' index)
    have hfirst := h (start, index) List.mem_cons_self
    rw [List.flatMap_cons, List.flatMap_cons, Mark.draw, Mark.draw]
    by_cases hi : i < cellWidth
    · -- inside the first cell, which shows the same label
      have hsame : label index = label' index := by
        rcases hfirst with hsame | hout | hout
        · exact hsame
        · omega
        · omega
      rw [List.getElem?_append_left (by omega), List.getElem?_append_left (by omega), hsame]
    · rw [List.getElem?_append_right (by omega), List.getElem?_append_right (by omega), hlength,
        hlength']
      apply ih
      intro p hp
      refine (h p (List.mem_cons_of_mem _ hp)).imp_right fun hout => ?_
      omega

/-! ## The cells of the drawing -/

theorem length_slots_frame : (slots 0 frame).length = keyCount := by
  simp only [frame, rows, List.flatMap_cons, List.flatMap_nil]
  repeat rw [String.toList_ofList]
  decide +kernel

theorem length_slotOrder : slotOrder.length = keyCount := rfl

/-- The offset of a slot of the drawing; slots count top to bottom and left to right. -/
def slotStart (slot : Fin keyCount) : Nat := (slots 0 frame).get (slot.cast length_slots_frame.symm)

def slotKey (slot : Fin keyCount) : Fin keyCount := slotOrder.get (slot.cast length_slotOrder.symm)

theorem bijective_slotKey : Function.Bijective slotKey := by
  rw [← Finite.injective_iff_bijective]
  decide +kernel

theorem cells_template : cells 0 template = List.ofFn fun slot => (slotStart slot, slotKey slot) := by
  have hcells : cells 0 template = (slots 0 frame).zip slotOrder :=
    cells_markUp 0 (Nat.le_of_eq (length_slots_frame.trans length_slotOrder.symm))
  have hlength : ((slots 0 frame).zip slotOrder).length = keyCount := by
    rw [List.length_zip, length_slots_frame, length_slotOrder, Nat.min_self]
  rw [hcells]
  refine List.ext_getElem (by rw [hlength, List.length_ofFn]) fun i hi hi' => ?_
  rw [List.getElem_zip, List.getElem_ofFn]
  rfl

theorem mem_cells_template_iff {p : Nat × Fin keyCount} :
    p ∈ cells 0 template ↔ ∃ slot, p = (slotStart slot, slotKey slot) := by
  rw [cells_template, List.mem_ofFn]
  constructor
  · rintro ⟨slot, rfl⟩
    exact ⟨slot, rfl⟩
  · rintro ⟨slot, rfl⟩
    exact ⟨slot, rfl⟩

/-- No two cells share a character. -/
theorem slotStart_add_le {slot slot' : Fin keyCount} (h : slot < slot') :
    slotStart slot + cellWidth ≤ slotStart slot' := by
  have hpairs := pairwise_cells 0 template
  rw [cells_template, List.pairwise_ofFn] at hpairs
  simpa only using hpairs h

/-! ## The cells of a diagram -/

/-- Where the cell of a slot begins below a name of `n` characters. -/
def cellStart (n : Nat) (slot : Fin keyCount) : Nat := 3 + n + slotStart slot

def InCell (n : Nat) (slot : Fin keyCount) (i : Nat) : Prop :=
  cellStart n slot ≤ i ∧ i < cellStart n slot + cellWidth

/-- The characters of a cell that begins at an offset. -/
def window (offset : Nat) (t : Text) : Text := (t.drop offset).take cellWidth

theorem draw_eq_append_flatMap (name : Text) (label : Fin keyCount → Text) :
    draw name label = ("/* ".toList ++ name) ++ template.flatMap (Mark.draw label) := rfl

theorem length_opening (name : Text) : ("/* ".toList ++ name).length = 3 + name.length := by
  rw [List.length_append, String.toList_ofList]
  rfl

theorem window_draw (name : Text) (label : Fin keyCount → Text) (slot : Fin keyCount) :
    window (cellStart name.length slot) (draw name label) = centre (label (slotKey slot)) := by
  have hcell := take_drop_of_mem_cells label (mem_cells_template_iff.2 ⟨slot, rfl⟩)
  dsimp only at hcell
  rw [Nat.sub_zero] at hcell
  rw [window, cellStart, draw_eq_append_flatMap, ← List.drop_drop, List.drop_left' (length_opening name)]
  exact hcell

/-- A character that is not in the name changes with the label of its own cell only. -/
theorem getElem?_draw_congr {name name' : Text} {label label' : Fin keyCount → Text} {i : Nat}
    (hlength : name.length = name'.length) (hi : name = name' ∨ i < 3 ∨ 3 + name.length ≤ i)
    (hlabel : ∀ slot, InCell name.length slot i → label (slotKey slot) = label' (slotKey slot)) :
    (draw name label)[i]? = (draw name' label')[i]? := by
  have hopen := length_opening name
  have hopen' := length_opening name'
  rw [draw_eq_append_flatMap, draw_eq_append_flatMap]
  by_cases hlt : i < 3 + name.length
  · have hmark : "/* ".toList.length = 3 := by rw [String.toList_ofList]; rfl
    have hleft : i < ("/* ".toList ++ name).length := by omega
    have hleft' : i < ("/* ".toList ++ name').length := by omega
    rw [List.getElem?_append_left hleft, List.getElem?_append_left hleft']
    rcases hi with rfl | hi | hi
    · rfl
    · have hin : i < "/* ".toList.length := by omega
      rw [List.getElem?_append_left hin, List.getElem?_append_left hin]
    · omega
  · rw [List.getElem?_append_right (by omega), List.getElem?_append_right (by omega), hopen, hopen',
      ← hlength]
    apply getElem?_flatMap_draw_congr
    intro p hp
    obtain ⟨slot, rfl⟩ := mem_cells_template_iff.1 hp
    by_cases hin : InCell name.length slot i
    · exact Or.inl (hlabel slot hin)
    · rw [InCell, cellStart] at hin
      dsimp only
      omega

/-- The character is drawn for every layer with a name of `n` characters. -/
def IsFrame (n i : Nat) : Prop := (i < 3 ∨ 3 + n ≤ i) ∧ ∀ slot, ¬ InCell n slot i

/-- A label cut to seven characters, with half of the spaces left over before it, rounded down, and the
others behind it. -/
def cellText (label : Text) : Text :=
  let cut := label.take 7
  List.replicate ((7 - cut.length) / 2) ' ' ++ cut ++
    List.replicate (7 - cut.length - (7 - cut.length) / 2) ' '

/-- The diagram opens with the name and has the label of each key in its cell. -/
structure Shows (name : Text) (tokens : List Text) (diagram : Text) : Prop where
  opening : ("/* ".toList ++ name) <+: diagram
  cell : ∀ slot, window (cellStart name.length slot) diagram =
    cellText (Keycode.abbreviate (tokens.getD (slotKey slot) []))

theorem eq_draw_of_draw? {name diagram : Text} {tokens : List Text}
    (h : draw? name tokens = some diagram) : diagram = draw name (keyLabel tokens) := by
  have hcount : tokens.length = keyCount := by
    apply Decidable.byContradiction
    intro hne
    rw [draw?_eq_none_iff.2 hne] at h
    cases h
  rw [draw?_of_length hcount] at h
  exact (Option.some.inj h).symm

theorem shows_draw (name : Text) (tokens : List Text) :
    Shows name tokens (draw name (keyLabel tokens)) where
  opening := ⟨_, rfl⟩
  cell := fun slot => window_draw name (keyLabel tokens) slot

/-- A key that differs changes its own cell only. -/
theorem getElem?_draw_keyLabel {name : Text} {tokens tokens' : List Text} {slot : Fin keyCount}
    (h : ∀ key, key ≠ (slotKey slot).1 → tokens[key]? = tokens'[key]?) {i : Nat}
    (hi : ¬ InCell name.length slot i) :
    (draw name (keyLabel tokens))[i]? = (draw name (keyLabel tokens'))[i]? := by
  apply getElem?_draw_congr rfl (Or.inl rfl)
  intro slot' hin
  have hne : slotKey slot' ≠ slotKey slot := by
    intro heq
    rw [bijective_slotKey.1 heq] at hin
    exact hi hin
  have htoken := h (slotKey slot') fun heq => hne (Fin.ext heq)
  rw [keyLabel, keyLabel, List.getD_eq_getElem?_getD, List.getD_eq_getElem?_getD, htoken]

theorem draw?_cells :
    Function.Bijective slotKey ∧
    (∀ (n : Nat) (slot slot' : Fin keyCount), slot < slot' →
      cellStart n slot + 7 ≤ cellStart n slot') ∧
    (∀ (name : Text) (tokens : List Text), draw? name tokens = none ↔ tokens.length ≠ 58) ∧
    (∀ (name : Text) (tokens : List Text) (diagram : Text), draw? name tokens = some diagram →
      Shows name tokens diagram) ∧
    (∀ (name name' : Text) (tokens tokens' : List Text) (diagram diagram' : Text),
      draw? name tokens = some diagram → draw? name' tokens' = some diagram' →
      name.length = name'.length → ∀ i, IsFrame name.length i → diagram[i]? = diagram'[i]?) ∧
    ∀ (name : Text) (tokens tokens' : List Text) (diagram diagram' : Text) (slot : Fin keyCount),
      draw? name tokens = some diagram → draw? name tokens' = some diagram' →
      (∀ key, key ≠ (slotKey slot).1 → tokens[key]? = tokens'[key]?) →
      ∀ i, ¬ InCell name.length slot i → diagram[i]? = diagram'[i]? := by
  refine ⟨bijective_slotKey, fun n slot slot' hlt => ?_, fun _ _ => draw?_eq_none_iff, ?_, ?_, ?_⟩
  · have hle := slotStart_add_le hlt
    simp only [cellStart, cellWidth] at hle ⊢
    omega
  · intro name tokens diagram h
    obtain rfl := eq_draw_of_draw? h
    exact shows_draw name tokens
  · intro name name' tokens tokens' diagram diagram' h h' hlength i hframe
    obtain rfl := eq_draw_of_draw? h
    obtain rfl := eq_draw_of_draw? h'
    obtain ⟨hname, hcells⟩ := hframe
    exact getElem?_draw_congr hlength (Or.inr hname) fun slot hin => absurd hin (hcells slot)
  · intro name tokens tokens' diagram diagram' slot h h' hsame i hi
    obtain rfl := eq_draw_of_draw? h
    obtain rfl := eq_draw_of_draw? h'
    exact getElem?_draw_keyLabel hsame hi

/-! ## Two layers that differ in a key -/

namespace Sample

def shiftKey : Text := ['K', 'C', '_', 'L', 'S', 'F', 'T']

/-- The keys of a layer with a shift key at key 42, the inner one of the left hand. -/
def shiftTokens : List Text := List.replicate 42 ['K'] ++ shiftKey :: List.replicate 15 ['K']

theorem abbreviate_shiftKey :
    Keycode.abbreviate shiftKey = ['L', 'S', 'h', 'i', 'f', 't'] := by
  have hread : Keycode.read (trim shiftKey) = .label ['L', 'S', 'h', 'i', 'f', 't'] := by
    decide
  exact Keycode.abbreviate_of_label hread

theorem cellText_shiftTokens : cellText (Keycode.abbreviate (shiftTokens.getD (slotKey 36) [])) =
    ['L', 'S', 'h', 'i', 'f', 't', ' '] := by
  have hkey : shiftTokens.getD (slotKey 36) [] = shiftKey := rfl
  rw [hkey, abbreviate_shiftKey]
  rfl

theorem getElem?_shiftTokens (key : Nat) (h : key ≠ (slotKey 36).1) :
    shiftTokens[key]? = (List.replicate 58 ['K'])[key]? := by
  have hne : key ≠ 42 := h
  rw [shiftTokens, List.getElem?_append, List.getElem?_cons, List.length_replicate]
  simp only [List.getElem?_replicate]
  grind

theorem isFrame_zero : IsFrame 1 0 := by
  refine ⟨Or.inl (by decide), fun slot hin => ?_⟩
  have hle := hin.1
  rw [cellStart] at hle
  omega

end Sample

theorem draw?_cells_sample : ∃ diagram diagram' diagram'',
    draw? ['A'] Sample.shiftTokens = some diagram ∧
    draw? ['A'] (List.replicate 58 ['K']) = some diagram' ∧
    draw? ['B'] (List.replicate 58 ['K']) = some diagram'' ∧
    window (cellStart 1 36) diagram = ['L', 'S', 'h', 'i', 'f', 't', ' '] ∧
    (∀ i, ¬ InCell 1 36 i → diagram[i]? = diagram'[i]?) ∧ diagram[0]? = diagram''[0]? := by
  obtain ⟨-, -, -, hshows, hframe, hkey⟩ := draw?_cells
  have h := @draw?_of_length ['A'] Sample.shiftTokens rfl
  have h' := @draw?_of_length ['A'] (List.replicate 58 ['K']) rfl
  have h'' := @draw?_of_length ['B'] (List.replicate 58 ['K']) rfl
  refine ⟨_, _, _, h, h', h'', ?_, ?_, hframe _ _ _ _ _ _ h h'' rfl 0 Sample.isFrame_zero⟩
  · have hcell := (hshows _ _ _ h).cell 36
    rwa [List.length_singleton, Sample.cellText_shiftTokens] at hcell
  · intro i hi
    rw [← @List.length_singleton _ 'A'] at hi
    exact hkey _ _ _ _ _ 36 h h' Sample.getElem?_shiftTokens i hi

end Diagram
end KeyChart
