import KeyChart.Keycode.Table

/-!
How one trimmed keycode is read. Seven specific rules are tried in order; a keycode that none of
them takes loses its common start or is cut short. Main statement: a wrapper's argument is shorter
than the keycode (`length_argument_lt_of_read`), so wrappers can be read one inside the other.
-/

namespace KeyChart
namespace Keycode

/-- What is made of a keycode: its label, or a modifier's letter and the argument still to be
labelled. -/
inductive Reading
  | label (text : Text)
  | modified (code argument : Text)
  deriving DecidableEq, Repr

/-- The specific rules, in the order in which they are tried. -/
inductive Rule
  | exact
  | functionKey
  | numpadDigit
  | verbatim
  | modifier
  | mouseButton
  | special
  deriving DecidableEq, Repr

/-- One or more ASCII digits. -/
def isNumber (t : Text) : Bool := !t.isEmpty && t.all Char.isDigit

/-- One ASCII digit. -/
def isNumeral (t : Text) : Bool := t.length = 1 && isNumber t

/-- The keycode switches layers. -/
def isLayerAction (keycode : Text) : Bool :=
  layerActions.any fun start => start.toList.isPrefixOf keycode

/-- The letter and the argument of a modifier wrapper whose argument is not blank. -/
def wrapped? (keycode : Text) : Option (Text × Text) := do
  let (name, rest) ← Text.cutAt? '(' keycode
  let code ← modifierCodes.lookup? name
  let argument ← Text.before? [')'] rest
  if Text.trim argument = [] then none else some (code, argument)

/-- The number of a mouse button. -/
def mouseButton? (keycode : Text) : Option Text :=
  mouseStarts.findSome? fun start => do
    let rest ← Text.after? start.toList keycode
    let number ← Text.after? "BTN".toList rest
    if isNumeral number then some number else none

namespace Rule

def all : List Rule :=
  [exact, functionKey, numpadDigit, verbatim, modifier, mouseButton, special]

/-- What the rule makes of a keycode that it takes. -/
def read? : Rule → Text → Option Reading
  | exact, k => (exactLabels.lookup? k).map .label
  | functionKey, k =>
    ((Text.after? "KC_F".toList k).filter isNumber).map fun number => .label ('F' :: number)
  | numpadDigit, k =>
    ((Text.after? "KC_P".toList k).filter isNumeral).map fun number => .label ('P' :: number)
  | verbatim, k =>
    if isLayerAction k || oneShot.toList.isPrefixOf k then some (.label k) else none
  | modifier, k => (wrapped? k).map fun w => .modified w.1 w.2
  | mouseButton, k => (mouseButton? k).map fun number => .label ("MB".toList ++ number)
  | special, k => (specialLabels.lookup? k).map .label

end Rule

/-- Longest keycode that is its own label. -/
def plainLength : Nat := 6

/-- A longer keycode keeps one character less, and a point marks the cut. -/
def shorten (keycode : Text) : Text :=
  if keycode.length ≤ plainLength then keycode else keycode.take (plainLength - 1) ++ ['.']

/-- The label of a keycode that no specific rule takes. -/
def plainLabel (keycode : Text) : Text :=
  match (droppedStarts.findSome? fun start => Text.after? start.toList keycode) with
  | some (c :: rest) => c :: rest
  | _ => shorten keycode

def read (keycode : Text) : Reading :=
  (Rule.all.findSome? fun rule => rule.read? keycode).getD (.label (plainLabel keycode))

/-! ## Arguments are shorter than their wrappers -/

theorem wrapped?_eq_some_iff {k code arg : Text} :
    wrapped? k = some (code, arg) ↔ ∃ name, k = name ++ '(' :: (arg ++ [')']) ∧ '(' ∉ name ∧
      modifierCodes.lookup? name = some code ∧ Text.trim arg ≠ [] := by
  simp only [wrapped?, Option.bind_eq_bind, Option.bind_eq_some_iff]
  constructor
  · rintro ⟨⟨name, rest⟩, hcut, code', hcode, arg', hbefore, h⟩
    split at h
    · cases h
    · next hne =>
      cases h
      obtain ⟨hk, hname⟩ := Text.cutAt?_eq_some_iff.1 hcut
      have hrest : rest = arg ++ [')'] := Text.before?_eq_some_iff.1 hbefore
      exact ⟨name, hrest ▸ hk, hname, hcode, hne⟩
  · rintro ⟨name, rfl, hname, hcode, hne⟩
    refine ⟨(name, arg ++ [')']), Text.cutAt?_eq_some_iff.2 ⟨rfl, hname⟩, code, hcode, arg,
      Text.before?_eq_some_iff.2 rfl, ?_⟩
    rw [if_neg hne]

theorem length_lt_of_wrapped? {k code arg : Text} (h : wrapped? k = some (code, arg)) :
    arg.length < k.length := by
  obtain ⟨name, rfl, -⟩ := wrapped?_eq_some_iff.1 h
  simp only [List.length_append, List.length_cons, List.length_nil]
  omega

theorem wrapped?_of_read?_modified {rule : Rule} {k code arg : Text}
    (h : rule.read? k = some (.modified code arg)) : wrapped? k = some (code, arg) := by
  cases rule with
  | modifier =>
    simp only [Rule.read?, Option.map_eq_some_iff, Reading.modified.injEq] at h
    obtain ⟨⟨c, a⟩, hw, rfl, rfl⟩ := h
    exact hw
  | verbatim => simp only [Rule.read?] at h; split at h <;> simp at h
  | _ => simp [Rule.read?] at h

theorem length_argument_lt_of_findSome? {rules : List Rule} {k plain code arg : Text}
    (h : (rules.findSome? fun rule => rule.read? k).getD (.label plain) = .modified code arg) :
    arg.length < k.length := by
  cases hf : rules.findSome? fun rule => rule.read? k with
  | none => simp [hf] at h
  | some r =>
    rw [hf, Option.getD_some] at h
    subst h
    obtain ⟨rule, _, hr⟩ := List.exists_of_findSome?_eq_some hf
    exact length_lt_of_wrapped? (wrapped?_of_read?_modified hr)

theorem length_argument_lt_of_read {k code arg : Text} (h : read k = .modified code arg) :
    arg.length < k.length :=
  length_argument_lt_of_findSome? h

end Keycode
end KeyChart
