import KeyChart.Keycode.Label
import KeyChart.Proofs.Text.Trim

/-!
The specific rules for keycodes. Each one takes the keycodes of one form (`Rule.isSome_read?_iff`), and no
keycode has two of the forms (`Rule.Takes.unique`): a table's key is read by no other rule, and the other
rules' keycodes begin in different ways. Main statement: in whatever order the rules are tried, the label
is that of the one rule that takes the keycode, and a keycode that none takes loses its common start or is
cut short (`abbreviate_by_rules`).
-/

namespace KeyChart
namespace Keycode

open Text

namespace Rule

/-- The form of the keycodes that a rule takes. -/
def Takes : Rule → Text → Prop
  | exact, k => ∃ entry ∈ exactLabels, k = entry.1.toList
  | functionKey, k =>
    ∃ number, k = "KC_F".toList ++ number ∧ number ≠ [] ∧ ∀ c ∈ number, c.isDigit = true
  | numpadDigit, k => ∃ digit : Char, k = "KC_P".toList ++ [digit] ∧ digit.isDigit = true
  | verbatim, k => (∃ start ∈ layerActions, start.toList <+: k) ∨ oneShot.toList <+: k
  | modifier, k => ∃ entry ∈ modifierCodes, ∃ argument,
    k = entry.1.toList ++ '(' :: (argument ++ [')']) ∧ ¬ IsBlank argument
  | mouseButton, k => ∃ start ∈ mouseStarts, ∃ digit : Char,
    k = start.toList ++ ("BTN".toList ++ [digit]) ∧ digit.isDigit = true
  | special, k => ∃ entry ∈ specialLabels, k = entry.1.toList

theorem mem_all (rule : Rule) : rule ∈ all := by
  cases rule <;> decide

end Rule

/-! ## The parts of the rules -/

theorem isNumber_iff {t : Text} : isNumber t = true ↔ t ≠ [] ∧ ∀ c ∈ t, c.isDigit = true := by
  simp [isNumber]

theorem isNumeral_iff {t : Text} :
    isNumeral t = true ↔ ∃ digit : Char, t = [digit] ∧ digit.isDigit = true := by
  simp only [isNumeral, Bool.and_eq_true, decide_eq_true_eq, isNumber_iff, List.length_eq_one_iff]
  constructor
  · rintro ⟨⟨digit, rfl⟩, -, hdigit⟩
    exact ⟨digit, rfl, hdigit digit List.mem_cons_self⟩
  · rintro ⟨digit, rfl, hdigit⟩
    simp [hdigit]

theorem Table.isSome_lookup?_iff {table : Table} {code : Text} :
    (table.lookup? code).isSome = true ↔ ∃ entry ∈ table, code = entry.1.toList := by
  rw [Table.lookup?, Option.isSome_map, List.find?_isSome]
  simp only [decide_eq_true_eq, @eq_comm _ code]

/-- A keycode with a known start and something behind it. -/
theorem isSome_filter_after?_iff {start k : Text} {p : Text → Bool} :
    ((after? start k).filter p).isSome = true ↔ ∃ rest, k = start ++ rest ∧ p rest = true := by
  simp only [Option.isSome_iff_exists, Option.filter_eq_some_iff, after?_eq_some_iff]

theorem isLayerAction_iff {k : Text} :
    isLayerAction k = true ↔ ∃ start ∈ layerActions, start.toList <+: k := by
  simp [isLayerAction]

/-- Every name of a modifier ends at the parenthesis behind it, and no two modifiers share one. -/
theorem modifierCodes_named : ∀ entry ∈ modifierCodes, '(' ∉ entry.1.toList ∧
    modifierCodes.lookup? entry.1.toList = some entry.2.toList := by
  decide

theorem wrapped?_eq_some_iff_entry {k code argument : Text} :
    wrapped? k = some (code, argument) ↔ ∃ entry ∈ modifierCodes,
      k = entry.1.toList ++ '(' :: (argument ++ [')']) ∧ ¬ IsBlank argument ∧
        code = entry.2.toList := by
  simp only [wrapped?_eq_some_iff, ne_eq, trim_eq_nil_iff]
  constructor
  · rintro ⟨name, rfl, -, hcode, hblank⟩
    obtain ⟨entry, hentry, rfl⟩ := Table.isSome_lookup?_iff.1 (Option.isSome_of_mem hcode)
    obtain ⟨-, hlookup⟩ := modifierCodes_named entry hentry
    rw [hlookup, Option.some.injEq] at hcode
    exact ⟨entry, hentry, rfl, hblank, hcode.symm⟩
  · rintro ⟨entry, hentry, rfl, hblank, rfl⟩
    obtain ⟨hname, hlookup⟩ := modifierCodes_named entry hentry
    exact ⟨entry.1.toList, rfl, hname, hlookup, hblank⟩

theorem isSome_mouseButton?_iff {k : Text} :
    (mouseButton? k).isSome = true ↔ ∃ start ∈ mouseStarts, ∃ digit : Char,
      k = start.toList ++ ("BTN".toList ++ [digit]) ∧ digit.isDigit = true := by
  rw [mouseButton?, List.findSome?_isSome_iff]
  refine exists_congr fun start => and_congr_right fun _ => ?_
  simp only [Option.isSome_iff_exists, Option.bind_eq_bind, Option.bind_eq_some_iff,
    after?_eq_some_iff]
  constructor
  · rintro ⟨number, rest, hrest, number', hnumber, h⟩
    split at h
    · next hnumeral =>
      obtain ⟨digit, rfl, hdigit⟩ := isNumeral_iff.1 hnumeral
      exact ⟨digit, by rw [hrest, hnumber], hdigit⟩
    · cases h
  · rintro ⟨digit, hk, hdigit⟩
    refine ⟨[digit], _, hk, [digit], rfl, ?_⟩
    rw [if_pos (isNumeral_iff.2 ⟨digit, rfl, hdigit⟩)]

/-! ## What the rules take -/

theorem Rule.isSome_read?_iff {rule : Rule} {k : Text} :
    (rule.read? k).isSome = true ↔ rule.Takes k := by
  cases rule with
  | exact => rw [read?, Option.isSome_map, Table.isSome_lookup?_iff, Takes]
  | functionKey =>
    rw [read?, Option.isSome_map, isSome_filter_after?_iff, Takes]
    simp only [isNumber_iff]
  | numpadDigit =>
    rw [read?, Option.isSome_map, isSome_filter_after?_iff, Takes]
    simp only [isNumeral_iff]
    constructor
    · rintro ⟨rest, hk, digit, rfl, hdigit⟩
      exact ⟨digit, hk, hdigit⟩
    · rintro ⟨digit, hk, hdigit⟩
      exact ⟨[digit], hk, digit, rfl, hdigit⟩
  | verbatim =>
    rw [read?, Takes, ← isLayerAction_iff]
    simp
  | modifier =>
    rw [read?, Option.isSome_map, Option.isSome_iff_exists, Takes]
    constructor
    · rintro ⟨⟨code, argument⟩, h⟩
      obtain ⟨entry, hentry, hk, hblank, -⟩ := wrapped?_eq_some_iff_entry.1 h
      exact ⟨entry, hentry, argument, hk, hblank⟩
    · rintro ⟨entry, hentry, argument, hk, hblank⟩
      exact ⟨_, wrapped?_eq_some_iff_entry.2 ⟨entry, hentry, hk, hblank, rfl⟩⟩
  | mouseButton => rw [read?, Option.isSome_map, isSome_mouseButton?_iff, Takes]
  | special => rw [read?, Option.isSome_map, Table.isSome_lookup?_iff, Takes]

/-! ## No keycode has two forms -/

namespace Rule

/-- The keycodes of a rule that goes by a table. -/
def keys : Rule → List Text
  | exact => exactLabels.map fun entry => entry.1.toList
  | special => specialLabels.map fun entry => entry.1.toList
  | _ => []

/-- What the keycodes of a rule that goes by their form begin with. -/
def openings : Rule → List Text
  | functionKey => ["KC_F".toList]
  | numpadDigit => ["KC_P".toList]
  | verbatim => (oneShot :: layerActions).map String.toList
  | modifier => modifierCodes.map fun entry => entry.1.toList ++ ['(']
  | mouseButton => mouseStarts.map fun start => start.toList ++ "BTN".toList
  | _ => []

theorem Takes.mem_keys_or_exists_opening {rule : Rule} {k : Text} (h : rule.Takes k) :
    k ∈ rule.keys ∨ ∃ start ∈ rule.openings, start <+: k := by
  cases rule with
  | exact =>
    obtain ⟨entry, hentry, rfl⟩ := h
    exact Or.inl (List.mem_map_of_mem hentry)
  | functionKey =>
    obtain ⟨number, rfl, -⟩ := h
    exact Or.inr ⟨_, List.mem_singleton_self _, List.prefix_append _ _⟩
  | numpadDigit =>
    obtain ⟨digit, rfl, -⟩ := h
    exact Or.inr ⟨_, List.mem_singleton_self _, List.prefix_append _ _⟩
  | verbatim =>
    right
    rcases h with ⟨start, hstart, hk⟩ | hk
    · exact ⟨_, List.mem_map_of_mem (List.mem_cons_of_mem _ hstart), hk⟩
    · exact ⟨_, List.mem_map_of_mem List.mem_cons_self, hk⟩
  | modifier =>
    obtain ⟨entry, hentry, argument, rfl, -⟩ := h
    exact Or.inr ⟨_, List.mem_map_of_mem hentry, argument ++ [')'], by simp⟩
  | mouseButton =>
    obtain ⟨start, hstart, digit, rfl, -⟩ := h
    exact Or.inr ⟨_, List.mem_map_of_mem hstart, [digit], by simp⟩
  | special =>
    obtain ⟨entry, hentry, rfl⟩ := h
    exact Or.inl (List.mem_map_of_mem hentry)

/-- No other rule reads a key of a table. -/
theorem read?_key : ∀ rule ∈ all, ∀ k ∈ rule.keys, ∀ rule' ∈ all, rule ≠ rule' →
    rule'.read? k = none := by
  decide +kernel

/-- The openings of two rules differ within the shorter one. -/
theorem openings_apart : ∀ rule ∈ all, ∀ rule' ∈ all, rule ≠ rule' →
    ∀ start ∈ rule.openings, ∀ start' ∈ rule'.openings, ¬ start <+: start' := by
  decide

theorem Takes.not_mem_keys {rule rule' : Rule} {k : Text} (h : rule'.Takes k) (hne : rule ≠ rule') :
    k ∉ rule.keys := by
  intro hk
  have hread := isSome_read?_iff.2 h
  rw [read?_key rule rule.mem_all k hk rule' rule'.mem_all hne] at hread
  cases hread

theorem Takes.unique {rule rule' : Rule} {k : Text} (h : rule.Takes k) (h' : rule'.Takes k) :
    rule = rule' := by
  by_contra hne
  obtain ⟨start, hmem, hstart⟩ :=
    h.mem_keys_or_exists_opening.resolve_left (h'.not_mem_keys hne)
  obtain ⟨start', hmem', hstart'⟩ :=
    h'.mem_keys_or_exists_opening.resolve_left (h.not_mem_keys (Ne.symm hne))
  -- both begin the keycode, so one begins the other
  rcases List.prefix_or_prefix_of_prefix hstart hstart' with hle | hle
  · exact openings_apart rule rule.mem_all rule' rule'.mem_all hne _ hmem _ hmem' hle
  · exact openings_apart rule' rule'.mem_all rule rule.mem_all (Ne.symm hne) _ hmem' _ hmem hle

end Rule

/-! ## Other orders of the rules -/

/-- How a trimmed keycode is read if the specific rules are tried in another order. -/
def readIn (order : List Rule) (keycode : Text) : Reading :=
  (order.findSome? fun rule => rule.read? keycode).getD (.label (plainLabel keycode))

/-- The label of a keycode, and of every argument in it, if the rules are tried in another order. -/
def abbreviateIn (order : List Rule) (keycode : Text) : Text :=
  match _hread : readIn order (trim keycode) with
  | .label text => text
  | .modified code argument => code ++ '+' :: abbreviateIn order argument
termination_by keycode.length
decreasing_by
  have hlt := length_argument_lt_of_findSome? _hread
  have hle := length_trim_le keycode
  omega

section Order

variable {order : List Rule} {k : Text}

theorem findSome?_eq_none_iff (horder : ∀ rule, rule ∈ order) :
    (order.findSome? fun rule => rule.read? k) = none ↔ ∀ rule : Rule, ¬ rule.Takes k := by
  simp only [List.findSome?_eq_none_iff, ← Rule.isSome_read?_iff, Bool.not_eq_true,
    Option.isSome_eq_false_iff, Option.isNone_iff_eq_none, horder, forall_true_left]

theorem readIn_of_read? (horder : ∀ rule, rule ∈ order) {rule : Rule} {r : Reading}
    (h : rule.read? k = some r) : readIn order k = r := by
  have hsome : (order.findSome? fun rule => rule.read? k).isSome = true :=
    List.findSome?_isSome_iff.2 ⟨rule, horder rule, Option.isSome_of_mem h⟩
  obtain ⟨r', hr'⟩ := Option.isSome_iff_exists.1 hsome
  obtain ⟨rule', -, h'⟩ := List.exists_of_findSome?_eq_some hr'
  -- the rule that is found takes the keycode as well, so it is the same one
  have hrule : rule' = rule :=
    (Rule.isSome_read?_iff.1 (Option.isSome_of_mem h')).unique
      (Rule.isSome_read?_iff.1 (Option.isSome_of_mem h))
  rw [hrule, h, Option.some.injEq] at h'
  rw [readIn, hr', h', Option.getD_some]

theorem readIn_of_not_takes (horder : ∀ rule, rule ∈ order) (h : ∀ rule : Rule, ¬ rule.Takes k) :
    readIn order k = .label (plainLabel k) := by
  rw [readIn, (findSome?_eq_none_iff horder).2 h, Option.getD_none]

theorem readIn_eq_read (horder : ∀ rule, rule ∈ order) (k : Text) : readIn order k = read k := by
  by_cases h : ∃ rule : Rule, rule.Takes k
  · obtain ⟨rule, hrule⟩ := h
    obtain ⟨r, hr⟩ := Option.isSome_iff_exists.1 (Rule.isSome_read?_iff.2 hrule)
    exact (readIn_of_read? horder hr).trans (readIn_of_read? Rule.mem_all hr).symm
  · have hnone : ∀ rule : Rule, ¬ rule.Takes k := not_exists.1 h
    exact (readIn_of_not_takes horder hnone).trans (readIn_of_not_takes Rule.mem_all hnone).symm

theorem abbreviateIn_eq_abbreviate (horder : ∀ rule, rule ∈ order) (k : Text) :
    abbreviateIn order k = abbreviate k := by
  fun_induction abbreviateIn order k with
  | case1 k text hread =>
    rw [readIn_eq_read horder] at hread
    exact (abbreviate_of_label hread).symm
  | case2 k code argument hread ih =>
    rw [readIn_eq_read horder] at hread
    rw [abbreviate_of_modified hread, ih]

end Order

/-! ## The label of a keycode -/

/-- The label that a reading makes. -/
def Reading.text : Reading → Text
  | .label text => text
  | .modified code argument => code ++ '+' :: abbreviate argument

theorem abbreviate_eq_text (k : Text) : abbreviate k = (read (trim k)).text := by
  cases h : read (trim k) with
  | label text => exact abbreviate_of_label h
  | modified code argument => exact abbreviate_of_modified h

theorem abbreviate_of_read? {k : Text} {rule : Rule} {r : Reading}
    (h : rule.read? (trim k) = some r) : abbreviate k = r.text := by
  rw [abbreviate_eq_text]
  exact congrArg Reading.text (readIn_of_read? Rule.mem_all h)

/-- The label of a keycode that no specific rule takes: what is behind a common start, if there is
anything behind it, and else the keycode cut short. -/
def IsPlain (k label : Text) : Prop :=
  (∃ start ∈ droppedStarts, k = start.toList ++ label ∧ label ≠ []) ∨
    (∀ start ∈ droppedStarts, ∀ rest, k = start.toList ++ rest → rest = []) ∧ label = shorten k

theorem droppedStarts_apart : ∀ start ∈ droppedStarts, ∀ start' ∈ droppedStarts,
    start.toList <+: start'.toList → start = start' := by
  decide

theorem droppedStart_unique {start start' : String} {k : Text} (hstart : start ∈ droppedStarts)
    (hstart' : start' ∈ droppedStarts) (h : start.toList <+: k) (h' : start'.toList <+: k) :
    start = start' := by
  rcases List.prefix_or_prefix_of_prefix h h' with hle | hle
  · exact droppedStarts_apart start hstart start' hstart' hle
  · exact (droppedStarts_apart start' hstart' start hstart hle).symm

theorem findSome?_droppedStarts {start : String} {k rest : Text} (hstart : start ∈ droppedStarts)
    (hk : k = start.toList ++ rest) :
    (droppedStarts.findSome? fun start => after? start.toList k) = some rest := by
  have hafter : after? start.toList k = some rest := after?_eq_some_iff.2 hk
  have hfound : (droppedStarts.findSome? fun start => after? start.toList k).isSome = true :=
    List.findSome?_isSome_iff.2 ⟨start, hstart, Option.isSome_of_mem hafter⟩
  obtain ⟨rest', hrest'⟩ := Option.isSome_iff_exists.1 hfound
  obtain ⟨start', hstart', hafter'⟩ := List.exists_of_findSome?_eq_some hrest'
  -- the start that is found first begins the keycode as well, so it is the same one
  have hsame : start' = start :=
    droppedStart_unique hstart' hstart ⟨rest', (after?_eq_some_iff.1 hafter').symm⟩ ⟨rest, hk.symm⟩
  rw [hsame] at hafter'
  exact hrest'.trans (hafter'.symm.trans hafter)

theorem isPlain_plainLabel (k : Text) : IsPlain k (plainLabel k) := by
  unfold plainLabel
  split
  · next c rest h =>
    obtain ⟨start, hstart, hafter⟩ := List.exists_of_findSome?_eq_some h
    exact Or.inl ⟨start, hstart, after?_eq_some_iff.1 hafter, List.cons_ne_nil _ _⟩
  · next hnone =>
    refine Or.inr ⟨fun start hstart rest hk => ?_, rfl⟩
    cases rest with
    | nil => rfl
    | cons c rest => exact absurd (findSome?_droppedStarts hstart hk) (hnone c rest)

theorem abbreviate_by_rules (k : Text) :
    (∀ rule : Rule, (rule.read? (trim k)).isSome = true ↔ rule.Takes (trim k)) ∧
    (∀ rule rule' : Rule, rule.Takes (trim k) → rule'.Takes (trim k) → rule = rule') ∧
    (∀ (rule : Rule) (r : Reading), rule.read? (trim k) = some r → abbreviate k = r.text) ∧
    (∀ order : List Rule, order.Perm Rule.all → abbreviateIn order k = abbreviate k ∧
      ((order.findSome? fun rule => rule.read? (trim k)) = none ↔
        ∀ rule : Rule, ¬ rule.Takes (trim k))) ∧
    ((∀ rule : Rule, ¬ rule.Takes (trim k)) → IsPlain (trim k) (abbreviate k)) := by
  refine ⟨fun rule => Rule.isSome_read?_iff, fun rule rule' h h' => h.unique h',
    fun rule r h => abbreviate_of_read? h, ?_, ?_⟩
  · intro order hperm
    have horder : ∀ rule, rule ∈ order := fun rule => hperm.mem_iff.2 rule.mem_all
    exact ⟨abbreviateIn_eq_abbreviate horder k, findSome?_eq_none_iff horder⟩
  · intro hnone
    have hread : read (trim k) = .label (plainLabel (trim k)) :=
      readIn_of_not_takes Rule.mem_all hnone
    rw [abbreviate_of_label hread]
    exact isPlain_plainLabel (trim k)

namespace Sample

/-- A function key with blanks around it. -/
def functionKeycode : Text := [' ', 'K', 'C', '_', 'F', '1', '2', '\n']

/-- A keycode that no specific rule takes. -/
def unknownKeycode : Text := ['M', 'Y', '_', 'M', 'A', 'C', 'R', 'O']

theorem takes_functionKeycode : Rule.functionKey.Takes (trim functionKeycode) :=
  ⟨['1', '2'], by decide, isNumber_iff.1 rfl⟩

theorem not_takes_unknownKeycode (rule : Rule) : ¬ rule.Takes (trim unknownKeycode) := by
  rw [← Rule.isSome_read?_iff]
  cases rule <;> decide

end Sample

theorem abbreviate_by_rules_sample :
    Rule.functionKey.Takes (trim Sample.functionKeycode) ∧
    Rule.all.reverse.Perm Rule.all ∧
    abbreviate Sample.functionKeycode = ['F', '1', '2'] ∧
    abbreviateIn Rule.all.reverse Sample.functionKeycode = ['F', '1', '2'] ∧
    (∀ rule : Rule, rule.Takes (trim Sample.functionKeycode) → Rule.functionKey = rule) ∧
    (∀ rule : Rule, ¬ rule.Takes (trim Sample.unknownKeycode)) ∧
    IsPlain (trim Sample.unknownKeycode) (abbreviate Sample.unknownKeycode) := by
  obtain ⟨-, hunique, hlabel, horder, -⟩ := abbreviate_by_rules Sample.functionKeycode
  obtain ⟨-, -, -, -, hplain⟩ := abbreviate_by_rules Sample.unknownKeycode
  have hperm : Rule.all.reverse.Perm Rule.all := List.reverse_perm _
  have hread : Rule.functionKey.read? (trim Sample.functionKeycode) =
      some (.label ['F', '1', '2']) := by decide
  have hF12 : abbreviate Sample.functionKeycode = ['F', '1', '2'] := hlabel _ _ hread
  exact ⟨Sample.takes_functionKeycode, hperm, hF12, (horder _ hperm).1.trans hF12,
    fun rule => hunique _ rule Sample.takes_functionKeycode, Sample.not_takes_unknownKeycode,
    hplain Sample.not_takes_unknownKeycode⟩

end Keycode
end KeyChart
