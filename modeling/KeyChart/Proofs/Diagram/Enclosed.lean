import Mathlib.Data.List.Infix
import KeyChart.Proofs.Diagram.Shape
import KeyChart.Proofs.Keycode.Star
import KeyChart.Proofs.Text.Marks

/-!
Comment marks in a diagram. No label of a keycode without a star brings a further comment opening into
its diagram. An end mark comes about in one place: the cell of key 53 stands before a slash, and the
label of the star key in three modifier wrappers fills a cell up to its last character. Main statement:
apart from that label in that cell, the diagram is one comment and holds no further mark
(`draw?_encloses_iff`).
-/

namespace KeyChart
namespace Diagram

open Header Comment Keycode Text

/-- A comment ends at the end of the text and nowhere else in it. -/
def EndsOnlyAtEnd (t : Text) : Prop := ∀ u v, t = u ++ endMark ++ v → v = []

/-! ## Cells -/

theorem mem_centre {c : Char} {label : Text} (h : c ∈ centre label) : c = ' ' ∨ c ∈ label := by
  simp only [centre, spaces, List.mem_append, List.mem_replicate] at h
  rcases h with (h | h) | h
  · exact Or.inl h.2
  · exact Or.inr (List.mem_of_mem_take h)
  · exact Or.inl h.2

theorem head?_centre {c : Char} {label : Text} (h : (centre label).head? = some c) :
    c = ' ' ∨ label.head? = some c := by
  rw [centre, List.append_assoc, List.head?_append, Option.or_eq_some_iff] at h
  rcases h with h | ⟨_, h⟩
  · exact Or.inl (List.eq_of_mem_replicate (List.mem_of_mem_head? h))
  · rw [List.head?_append, Option.or_eq_some_iff] at h
    rcases h with h | ⟨_, h⟩
    · rw [clip, List.head?_take, if_neg (by decide)] at h
      exact Or.inr h
    · exact Or.inl (List.eq_of_mem_replicate (List.mem_of_mem_head? h))

/-- A cell that does not end in a space is filled by its label. -/
theorem getLast?_centre {c : Char} {label : Text} (h : (centre label).getLast? = some c)
    (hc : c ≠ ' ') : cellWidth ≤ label.length ∧ (clip label).getLast? = some c := by
  by_cases hwide : cellWidth ≤ label.length
  · refine ⟨hwide, ?_⟩
    have hnone : padding label = 0 := by
      rw [padding, clip, List.length_take]
      omega
    simpa [centre, hnone, spaces] using h
  · -- otherwise the last space goes to the right
    have hsome : padding label - padding label / 2 ≠ 0 := by
      rw [padding, clip, List.length_take]
      omega
    rw [centre, List.getLast?_append, spaces, spaces, List.getLast?_replicate, if_neg hsome] at h
    exact absurd (Option.some.inj h).symm hc

/-! ## The cells of stars -/

/-- The label of the star key in three modifier wrappers. -/
def IsTripleStar (label : Text) : Prop := ∃ a b c, label = [a, '+', b, '+', c, '+', '*']

section Cell

variable {label : Text}

theorem head?_centre_ne_star (h : '*' ∉ label ∨ Starred label) :
    (centre label).head? ≠ some '*' := by
  intro hhead
  rcases h with hnone | hstarred
  · rcases head?_centre hhead with hspace | hlabel
    · cases hspace
    · exact hnone (List.mem_of_mem_head? hlabel)
  · cases hstarred with
    | star => revert hhead; decide
    | modified hstar _ _ =>
      rcases head?_centre hhead with hspace | hlabel
      · cases hspace
      · exact hstar (Option.some.inj hlabel)

theorem getLast?_centre_of_isTripleStar (h : IsTripleStar label) :
    (centre label).getLast? = some '*' := by
  obtain ⟨a, b, c, rfl⟩ := h
  simp [centre, padding, clip, spaces, cellWidth]

theorem getLast?_centre_eq_star_iff (h : '*' ∉ label ∨ Starred label) :
    (centre label).getLast? = some '*' ↔ IsTripleStar label := by
  refine ⟨fun hlast => ?_, getLast?_centre_of_isTripleStar⟩
  obtain ⟨hwide, hclip⟩ := getLast?_centre hlast (by decide)
  rcases h with hnone | hstarred
  · exact absurd (List.mem_of_mem_take (List.mem_of_getLast? hclip)) hnone
  · -- every modifier takes two characters, so the star of the third wrapper is the seventh
    rcases hstarred with _ | @⟨a, _, _, _, _ | @⟨b, _, _, _, _ | @⟨c, _, _, _, hinner⟩⟩⟩
    · exact absurd hwide (by decide)
    · exact absurd hwide (by simp [cellWidth])
    · exact absurd hwide (by simp [cellWidth])
    · cases hinner with
      | star => exact ⟨a, b, c, rfl⟩
      | modified hstar _ _ => exact absurd (Option.some.inj hclip) hstar

theorem not_holds_centre {a b : Char} (h : '*' ∉ label ∨ Starred label)
    (hab : (a = '*' ∧ b = '/') ∨ (a = '/' ∧ b = '*')) : ¬ Holds [a, b] (centre label) := by
  have hnot : '*' ∉ centre label ∨ '/' ∉ centre label := by
    rcases h with hnone | hstarred
    · left
      intro hmem
      rcases mem_centre hmem with hspace | hmem
      · cases hspace
      · exact hnone hmem
    · right
      intro hmem
      rcases mem_centre hmem with hspace | hmem
      · cases hspace
      · exact hstarred.not_mem_slash hmem
  rcases hab with ⟨rfl, rfl⟩ | ⟨rfl, rfl⟩
  · rcases hnot with hnot | hnot
    · exact not_holds_of_not_mem_left hnot
    · exact not_holds_of_not_mem_right hnot
  · rcases hnot with hnot | hnot
    · exact not_holds_of_not_mem_right hnot
    · exact not_holds_of_not_mem_left hnot

end Cell

/-! ## The borders of cells -/

/-- The mark may show the character at its border: ink if it is that character, a cell as `keys` tells. -/
def Mark.mayShow (c : Char) (keys : Fin keyCount → Bool) : Mark → Bool
  | .ink d => d == c
  | .key index => keys index

theorem mayShow_getLast? {c : Char} {keys : Fin keyCount → Bool} {label : Fin keyCount → Text}
    (hkeys : ∀ index, (centre (label index)).getLast? = some c → keys index = true) {m : Mark}
    (h : (m.draw label).getLast? = some c) : m.mayShow c keys = true := by
  cases m with
  | ink d => simpa [Mark.draw, Mark.mayShow] using h
  | key index => exact hkeys index h

theorem mayShow_head? {c : Char} {keys : Fin keyCount → Bool} {label : Fin keyCount → Text}
    (hkeys : ∀ index, (centre (label index)).head? = some c → keys index = true) {m : Mark}
    (h : (m.draw label).head? = some c) : m.mayShow c keys = true := by
  cases m with
  | ink d => simpa [Mark.draw, Mark.mayShow] using h
  | key index => exact hkeys index h

theorem draw_ne_nil (label : Fin keyCount → Text) (m : Mark) : m.draw label ≠ [] := by
  cases m with
  | ink c => exact List.cons_ne_nil c []
  | key index =>
    intro hnil
    have hlength := length_centre (label index)
    rw [show centre (label index) = [] from hnil] at hlength
    cases hlength

/-- Marks of which no two neighbours make the pair `a`, `b` are drawn without it. -/
theorem not_holds_flatMap_draw {a b : Char} {label : Fin keyCount → Text} {marks : List Mark}
    (hab : (a = '*' ∧ b = '/') ∨ (a = '/' ∧ b = '*'))
    (hlabel : ∀ index, '*' ∉ label index ∨ Starred (label index))
    (last first : Fin keyCount → Bool)
    (hlast : ∀ index, (centre (label index)).getLast? = some a → last index = true)
    (hfirst : ∀ index, (centre (label index)).head? = some b → first index = true)
    (hborder : marks.IsChain fun m m' => ¬ (m.mayShow a last ∧ m'.mayShow b first)) :
    ¬ Holds [a, b] (marks.flatMap (Mark.draw label)) := by
  refine not_holds_flatMap (draw_ne_nil label) (fun m => ?_) (hborder.imp fun m m' hnot hpair => ?_)
  · cases m with
    | ink c =>
      intro hholds
      obtain ⟨u, v, huv⟩ := hholds
      have hlength := congrArg List.length huv
      simp [Mark.draw] at hlength
      omega
    | key index => exact not_holds_centre (hlabel index) hab
  · exact hnot ⟨mayShow_getLast? hlast hpair.1, mayShow_head? hfirst hpair.2⟩

/-- The cell of key 53 stands before a slash. -/
theorem infix_template : [Mark.key 53, Mark.ink '/'] <:+: template.dropLast := by
  simp only [template, frame, rows, List.flatMap_cons, List.flatMap_nil]
  repeat rw [String.toList_ofList]
  decide +kernel

/-- No cell stands before a star of the template, so a comment opens in none if no cell begins with
a star. -/
theorem isChain_template_open : template.IsChain fun m m' =>
    ¬ (m.mayShow '/' (fun _ => true) ∧ m'.mayShow '*' (fun _ => false)) := by
  simp only [template, frame, rows, List.flatMap_cons, List.flatMap_nil]
  repeat rw [String.toList_ofList]
  decide +kernel

/-- Before the end of the template only the cell of key 53 stands before a slash. -/
theorem isChain_template_end : template.dropLast.IsChain fun m m' =>
    ¬ (m.mayShow '*' (fun index => index ≠ 53) ∧ m'.mayShow '/' (fun _ => true)) := by
  simp only [template, frame, rows, List.flatMap_cons, List.flatMap_nil]
  repeat rw [String.toList_ofList]
  decide +kernel

/-! ## The whole diagram -/

theorem template_eq_append : template = template.dropLast ++ [.ink '/'] := by
  obtain ⟨marks, hmarks⟩ := exists_markUp_append (v := "\n */".toList) (by decide) slotOrder
    (rows.flatMap fun row => "\n * ".toList ++ row.toList)
  have hlast : template = (marks ++ ("\n *".toList).map Mark.ink) ++ [.ink '/'] := by
    rw [template, frame, hmarks]
    simp
  rw [hlast, List.dropLast_concat]

theorem opensOnlyAtStart_cons {c : Char} {t : Text} (h : ¬ Holds openMark t) :
    OpensOnlyAtStart (c :: t) := by
  intro u v huv
  cases u with
  | nil => rfl
  | cons d u =>
    rw [List.append_assoc, List.cons_append] at huv
    exact absurd ⟨u, v, by rw [(List.cons.inj huv).2, List.append_assoc]⟩ h

theorem endsOnlyAtEnd_append_iff {t : Text} :
    EndsOnlyAtEnd (t ++ ['/']) ↔ ¬ Holds endMark t := by
  constructor
  · rintro hend ⟨u, v, rfl⟩
    have hnil := hend u (v ++ ['/']) (by rw [List.append_assoc])
    simp at hnil
  · intro hnot u v huv
    rcases List.eq_nil_or_concat v with rfl | ⟨v, c, rfl⟩
    · rfl
    · rw [List.concat_eq_append, ← List.append_assoc] at huv
      exact absurd ⟨u, v, (List.append_inj' huv rfl).1⟩ hnot

section Marks

variable {name : Text} {label : Fin keyCount → Text}

theorem draw_eq_cons (name : Text) (label : Fin keyCount → Text) :
    draw name label = '/' :: (['*'] ++ (' ' :: name ++ template.flatMap (Mark.draw label))) := by
  rw [draw, String.toList_ofList]
  simp only [List.cons_append, List.nil_append]

theorem draw_eq_append (name : Text) (label : Fin keyCount → Text) :
    draw name label =
      ['/', '*'] ++ (' ' :: name ++ template.dropLast.flatMap (Mark.draw label)) ++ ['/'] := by
  have htemplate : template.flatMap (Mark.draw label) =
      template.dropLast.flatMap (Mark.draw label) ++ ['/'] := by
    conv => lhs; rw [template_eq_append, List.flatMap_append]
    rfl
  rw [draw_eq_cons, htemplate]
  simp only [List.append_assoc, List.cons_append, List.nil_append]

/-- A name makes no mark with what follows it. -/
theorem not_holds_name_append {a b : Char} {t : Text} (hname : IsName name) (ha : a = '*' ∨ a = '/')
    (h : ¬ Holds [a, b] t) : ¬ Holds [a, b] (' ' :: name ++ t) := by
  have hnot : a ∉ ' ' :: name := by
    intro hmem
    rcases List.mem_cons.1 hmem with rfl | hmem
    · revert ha
      decide
    · have hchar := hname.2 a hmem
      rcases ha with rfl | rfl
      · exact absurd hchar (by decide)
      · exact absurd hchar (by decide)
  rw [holds_append_iff_of_not_mem_left hnot]
  exact h

theorem opensOnlyAtStart_draw (hname : IsName name)
    (hlabel : ∀ index, '*' ∉ label index ∨ Starred (label index)) :
    OpensOnlyAtStart (draw name label) := by
  have hframe : ¬ Holds ['/', '*'] (template.flatMap (Mark.draw label)) :=
    not_holds_flatMap_draw (Or.inr ⟨rfl, rfl⟩) hlabel _ _ (fun _ _ => rfl)
      (fun index h => absurd h (head?_centre_ne_star (hlabel index))) isChain_template_open
  rw [draw_eq_cons]
  apply opensOnlyAtStart_cons
  rw [openMark_eq, holds_pair_append_iff]
  rintro (h | h | ⟨hlast, _⟩)
  · exact not_holds_of_not_mem_left (by decide) h
  · exact not_holds_name_append hname (Or.inr rfl) hframe h
  · cases hlast

/-- The star at the end of a filled cell of key 53 meets the slash behind it. -/
theorem holds_endMark_of_isTripleStar (h : IsTripleStar (label 53)) :
    Holds ['*', '/'] (template.dropLast.flatMap (Mark.draw label)) := by
  obtain ⟨marks, marks', htemplate⟩ := infix_template
  obtain ⟨cell, hcell⟩ := List.getLast?_eq_some_iff.1 (getLast?_centre_of_isTripleStar h)
  refine ⟨marks.flatMap (Mark.draw label) ++ cell, marks'.flatMap (Mark.draw label), ?_⟩
  simp only [← htemplate, List.flatMap_append, List.flatMap_cons, Mark.draw, hcell,
    List.append_assoc, List.cons_append, List.nil_append]

theorem endsOnlyAtEnd_draw_iff (hname : IsName name)
    (hlabel : ∀ index, '*' ∉ label index ∨ Starred (label index)) :
    EndsOnlyAtEnd (draw name label) ↔ ¬ IsTripleStar (label 53) := by
  rw [draw_eq_append, endsOnlyAtEnd_append_iff, endMark_eq]
  constructor
  · intro hnot htriple
    exact hnot (((holds_endMark_of_isTripleStar htriple).append_left _).append_left _)
  · intro hnot
    have hframe : ¬ Holds ['*', '/'] (template.dropLast.flatMap (Mark.draw label)) := by
      refine not_holds_flatMap_draw (Or.inl ⟨rfl, rfl⟩) hlabel _ _ (fun index h => ?_)
        (fun _ _ => rfl) isChain_template_end
      rw [decide_eq_true_iff]
      rintro rfl
      exact hnot ((getLast?_centre_eq_star_iff (hlabel 53)).1 h)
    rw [holds_pair_append_iff]
    rintro (h | h | ⟨_, hhead⟩)
    · exact absurd h (by decide)
    · exact not_holds_name_append hname (Or.inl rfl) hframe h
    · cases hhead

end Marks

/-- The comment of a layer whose keycodes have no star is one comment without further marks, unless the
star key in three modifier wrappers stands at key 53; then it ends early. -/
theorem draw?_encloses_iff {name : Text} {tokens : List Text} (hname : IsName name)
    (hcount : tokens.length = keyCount) (hstar : ∀ token ∈ tokens, '*' ∉ token) :
    ∃ diagram, draw? name tokens = some diagram ∧ (∃ v, diagram = openMark ++ v ++ endMark) ∧
      OpensOnlyAtStart diagram ∧
      (EndsOnlyAtEnd diagram ↔ ¬ IsTripleStar (keyLabel tokens 53)) := by
  have hlabel : ∀ index, '*' ∉ keyLabel tokens index ∨ Starred (keyLabel tokens index) := by
    intro index
    have hindex : index.1 < tokens.length := by
      rw [hcount]
      exact index.isLt
    rw [keyLabel, List.getD_eq_getElem?_getD, List.getElem?_eq_getElem hindex]
    exact abbreviate_cases (hstar _ (List.getElem_mem hindex))
  exact ⟨draw name (keyLabel tokens), draw?_of_length hcount, exists_draw_eq name _,
    opensOnlyAtStart_draw hname hlabel, endsOnlyAtEnd_draw_iff hname hlabel⟩

theorem draw?_encloses_sample : IsName ['A'] ∧ (List.replicate 58 ['K']).length = keyCount ∧
    (∀ token ∈ List.replicate 58 ['K'], '*' ∉ token) ∧
    ∃ diagram, draw? ['A'] (List.replicate 58 ['K']) = some diagram ∧
      (∃ v, diagram = openMark ++ v ++ endMark) ∧ OpensOnlyAtStart diagram ∧
      (EndsOnlyAtEnd diagram ↔ ¬ IsTripleStar (keyLabel (List.replicate 58 ['K']) 53)) :=
  have hname : IsName ['A'] := isName_singleton (by decide)
  have hstar : ∀ token ∈ List.replicate 58 ['K'], '*' ∉ token := by decide
  ⟨hname, rfl, hstar, draw?_encloses_iff hname rfl hstar⟩

/-! ## A comment that ends early -/

namespace Sample

/-- The star key in three modifier wrappers. -/
def wrappedStar : Text := "LGUI(LALT(LCTL(KC_ASTR)))".toList

/-- The keys of a layer with the wrapped star key at key 53. -/
def starredTokens : List Text :=
  List.replicate 53 ['K'] ++ wrappedStar :: List.replicate 4 ['K']

theorem abbreviate_wrappedStar : abbreviate wrappedStar = ['G', '+', 'A', '+', 'C', '+', '*'] := by
  have hgui : read (Text.trim wrappedStar) =
      .modified ['G'] "LALT(LCTL(KC_ASTR))".toList := by decide
  have halt : read (Text.trim "LALT(LCTL(KC_ASTR))".toList) =
      .modified ['A'] "LCTL(KC_ASTR)".toList := by decide +kernel
  have hctl : read (Text.trim "LCTL(KC_ASTR)".toList) =
      .modified ['C'] "KC_ASTR".toList := by decide +kernel
  have hkey : read (Text.trim "KC_ASTR".toList) = .label ['*'] := by decide
  rw [abbreviate_of_modified hgui, abbreviate_of_modified halt, abbreviate_of_modified hctl,
    abbreviate_of_label hkey]
  rfl

end Sample

theorem draw?_ends_early : IsName ['A'] ∧ Sample.starredTokens.length = keyCount ∧
    (∀ token ∈ Sample.starredTokens, '*' ∉ token) ∧
    ∃ diagram, draw? ['A'] Sample.starredTokens = some diagram ∧ ¬ EndsOnlyAtEnd diagram := by
  have htriple : IsTripleStar (keyLabel Sample.starredTokens 53) :=
    ⟨'G', 'A', 'C', Sample.abbreviate_wrappedStar⟩
  have hname : IsName ['A'] := isName_singleton (by decide)
  refine ⟨hname, rfl, by decide, _, draw?_of_length rfl, ?_⟩
  rw [draw_eq_append, endsOnlyAtEnd_append_iff, endMark_eq, not_not]
  exact ((holds_endMark_of_isTripleStar htriple).append_left _).append_left _

end Diagram
end KeyChart
