import KeyChart.Proofs.Keycode.Rules

/-!
Modifier wrappers one inside the other, with blanks around every argument. No other rule takes a wrapper
(`abbreviate_around`), so each one adds its letter and a plus sign, at any depth and whatever the innermost
argument is (`abbreviate_wrap`).
-/

namespace KeyChart
namespace Keycode

open Text

/-- A modifier wrapper: the modifier's name and letter, and the blanks around the argument. -/
structure Wrapper where
  name : String
  letter : String
  before : Text
  after : Text
  mem_modifierCodes : (name, letter) ∈ modifierCodes
  isBlank_before : IsBlank before
  isBlank_after : IsBlank after

namespace Wrapper

/-- The wrapper with its argument. -/
def around (w : Wrapper) (argument : Text) : Text :=
  w.name.toList ++ '(' :: (w.before ++ argument ++ w.after ++ [')'])

/-- What the wrapper adds in front of the label of its argument. -/
def mark (w : Wrapper) : Text := w.letter.toList ++ ['+']

theorem not_isBlank_around (w : Wrapper) (argument : Text) : ¬ IsBlank (w.around argument) := by
  apply not_isBlank_of_mem (c := '(')
  · simp [around]
  · decide

end Wrapper

/-- Wrappers one inside the other, the outermost first, around an argument. -/
def wrap (ws : List Wrapper) (argument : Text) : Text := ws.foldr Wrapper.around argument

theorem not_isBlank_wrap (ws : List Wrapper) {argument : Text} (h : ¬ IsBlank argument) :
    ¬ IsBlank (wrap ws argument) := by
  cases ws with
  | nil => exact h
  | cons w ws => exact w.not_isBlank_around _

/-! ## One wrapper -/

theorem abbreviate_blank_append_blank {v w : Text} (hv : IsBlank v) (k : Text) (hw : IsBlank w) :
    abbreviate (v ++ k ++ w) = abbreviate k := by
  rw [abbreviate_eq_text, abbreviate_eq_text, trim_blank_append_blank hv k hw]

theorem modifierCodes_head : ∀ entry ∈ modifierCodes,
    entry.1.toList.head?.map isBlank = some false := by
  decide

theorem Wrapper.trim_around (w : Wrapper) (argument : Text) :
    trim (w.around argument) = w.around argument := by
  apply trim_eq_self
  · intro c hc
    obtain ⟨d, hd, hblank⟩ := Option.map_eq_some_iff.1 (modifierCodes_head _ w.mem_modifierCodes)
    rw [around, List.head?_append, hd] at hc
    cases hc
    exact hblank
  · intro c hc
    have hlast : (w.around argument).getLast? = some ')' := by
      simp [around, List.getLast?_append, List.getLast?_cons]
    rw [hlast] at hc
    cases hc
    decide

theorem Wrapper.wrapped?_around (w : Wrapper) {argument : Text} (h : ¬ IsBlank argument) :
    wrapped? (w.around argument) = some (w.letter.toList, w.before ++ argument ++ w.after) := by
  refine wrapped?_eq_some_iff_entry.2 ⟨(w.name, w.letter), w.mem_modifierCodes, rfl, ?_, rfl⟩
  intro hblank
  apply h
  intro c hc
  exact hblank c (List.mem_append_left _ (List.mem_append_right _ hc))

theorem abbreviate_around (w : Wrapper) {argument : Text} (h : ¬ IsBlank argument) :
    abbreviate (w.around argument) = w.mark ++ abbreviate argument := by
  have hread : Rule.modifier.read? (trim (w.around argument)) =
      some (.modified w.letter.toList (w.before ++ argument ++ w.after)) := by
    rw [w.trim_around, Rule.read?, w.wrapped?_around h]
    rfl
  rw [abbreviate_of_read? hread, Reading.text,
    abbreviate_blank_append_blank w.isBlank_before _ w.isBlank_after, Wrapper.mark,
    List.append_assoc, List.singleton_append]

/-! ## Wrappers one inside the other -/

theorem abbreviate_wrap (ws : List Wrapper) {argument v w : Text} (harg : ¬ IsBlank argument)
    (hv : IsBlank v) (hw : IsBlank w) :
    abbreviate (v ++ wrap ws argument ++ w) = ws.flatMap Wrapper.mark ++ abbreviate argument := by
  rw [abbreviate_blank_append_blank hv _ hw]
  induction ws with
  | nil => rfl
  | cons w ws ih =>
    calc abbreviate (wrap (w :: ws) argument)
        = w.mark ++ abbreviate (wrap ws argument) := abbreviate_around w (not_isBlank_wrap ws harg)
      _ = w.mark ++ (ws.flatMap Wrapper.mark ++ abbreviate argument) := by rw [ih]
      _ = (w :: ws).flatMap Wrapper.mark ++ abbreviate argument := by
        rw [List.flatMap_cons, List.append_assoc]

namespace Sample

def control : Wrapper where
  name := "LCTL"
  letter := "C"
  before := [' ']
  after := []
  mem_modifierCodes := by decide
  isBlank_before := isBlank_singleton rfl
  isBlank_after := fun _ hc => absurd hc List.not_mem_nil

def shift : Wrapper where
  name := "RSFT"
  letter := "S"
  before := ['\n']
  after := ['\t', ' ']
  mem_modifierCodes := by decide
  isBlank_before := isBlank_singleton rfl
  isBlank_after := List.forall_mem_cons.2 ⟨rfl, isBlank_singleton rfl⟩

end Sample

/-- An argument with parentheses that do not balance. -/
theorem abbreviate_wrap_sample : ¬ IsBlank [')', '('] ∧ IsBlank [' '] ∧ IsBlank ['\n'] ∧
    abbreviate ([' '] ++ wrap [Sample.control, Sample.shift] [')', '('] ++ ['\n']) =
      ['C', '+', 'S', '+'] ++ abbreviate [')', '('] :=
  have harg : ¬ IsBlank [')', '('] := not_isBlank_of_mem List.mem_cons_self rfl
  have hspace : IsBlank [' '] := isBlank_singleton rfl
  have hline : IsBlank ['\n'] := isBlank_singleton rfl
  ⟨harg, hspace, hline, abbreviate_wrap [Sample.control, Sample.shift] harg hspace hline⟩

end Keycode
end KeyChart
