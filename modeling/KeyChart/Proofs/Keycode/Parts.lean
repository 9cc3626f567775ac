import KeyChart.Keycode.Label

/-!
What labels are made of. A label of a table is taken as it is, any other one is a part of the keycode with
a few fixed characters before or behind it, and a modifier puts its letter and a plus sign in front of the
label of a part (`isMadeOf_read`). Main statement: a property that these steps bring about holds of every
label (`LabelLaw.abbreviate`).
-/

namespace KeyChart
namespace Keycode

open Text

/-- What a label may have in front of a part of the keycode. -/
def labelFronts : List Text := [[], ['F'], ['P'], "MB".toList]

/-- A reading of a keycode by what it is made of. -/
inductive Reading.IsMadeOf (k : Text) : Reading → Prop
  | entry {entry : String × String} (h : entry ∈ exactLabels ++ specialLabels) :
    IsMadeOf k (.label entry.2.toList)
  | part {front part : Text} (hfront : front ∈ labelFronts) (hpart : part <:+: k) :
    IsMadeOf k (.label (front ++ part))
  | cut {part : Text} (hpart : part <:+: k) : IsMadeOf k (.label (part ++ ['.']))
  | modified {entry : String × String} {argument : Text} (h : entry ∈ modifierCodes)
    (hargument : argument <:+: k) : IsMadeOf k (.modified entry.2.toList argument)

/-- The steps that bring about the property `Q` of the labels of all keycodes with the property `P`. -/
structure LabelLaw (P Q : Text → Prop) : Prop where
  inside : ∀ {k part : Text}, P k → part <:+: k → P part
  entry : ∀ entry ∈ exactLabels ++ specialLabels, Q entry.2.toList
  part : ∀ front ∈ labelFronts, ∀ part, P part → Q (front ++ part)
  cut : ∀ part, P part → Q (part ++ ['.'])
  modified : ∀ entry ∈ modifierCodes, ∀ label, Q label → Q (entry.2.toList ++ '+' :: label)

/-! ## Parts of a keycode -/

theorem isInfix_trim (k : Text) : trim k <:+: k := by
  obtain ⟨v, w, -, -, hk⟩ := exists_blank_trim k
  exact ⟨v, w, hk.symm⟩

theorem isInfix_of_after? {mark k rest : Text} (h : after? mark k = some rest) : rest <:+: k :=
  List.IsSuffix.isInfix ⟨mark, (after?_eq_some_iff.1 h).symm⟩

theorem isInfix_of_wrapped? {k code argument : Text} (h : wrapped? k = some (code, argument)) :
    argument <:+: k := by
  obtain ⟨name, rfl, -⟩ := wrapped?_eq_some_iff.1 h
  exact ⟨name ++ ['('], [')'], by simp⟩

theorem isInfix_of_mouseButton? {k number : Text} (h : mouseButton? k = some number) :
    number <:+: k := by
  obtain ⟨start, -, h⟩ := List.exists_of_findSome?_eq_some h
  simp only [Option.bind_eq_bind, Option.bind_eq_some_iff] at h
  obtain ⟨rest, hrest, n, hn, h⟩ := h
  split at h
  · cases h
    exact (isInfix_of_after? hn).trans (isInfix_of_after? hrest)
  · cases h

theorem Table.exists_of_lookup? {table : Table} {code label : Text}
    (h : table.lookup? code = some label) : ∃ entry ∈ table, entry.2.toList = label := by
  obtain ⟨entry, hfind, hlabel⟩ := Option.map_eq_some_iff.1 h
  exact ⟨entry, List.mem_of_find?_eq_some hfind, hlabel⟩

/-! ## Readings -/

theorem isMadeOf_plainLabel (k : Text) : Reading.IsMadeOf k (.label (plainLabel k)) := by
  have whole : ∀ {part : Text}, part <:+: k → Reading.IsMadeOf k (.label part) :=
    fun hpart => .part List.mem_cons_self hpart
  unfold plainLabel
  split
  · next c rest h =>
    obtain ⟨start, -, hafter⟩ := List.exists_of_findSome?_eq_some h
    exact whole (isInfix_of_after? hafter)
  · rw [shorten]
    split
    · exact whole List.infix_rfl
    · have htake : k.take (plainLength - 1) <+: k := List.take_prefix _ k
      exact .cut htake.isInfix

theorem Rule.isMadeOf_read? {rule : Rule} {k : Text} {r : Reading} (h : rule.read? k = some r) :
    r.IsMadeOf k := by
  cases rule with
  | exact =>
    obtain ⟨label, hlookup, rfl⟩ := Option.map_eq_some_iff.1 h
    obtain ⟨entry, hentry, rfl⟩ := Table.exists_of_lookup? hlookup
    exact .entry (List.mem_append_left _ hentry)
  | functionKey =>
    obtain ⟨number, hnumber, rfl⟩ := Option.map_eq_some_iff.1 h
    have hfront : ['F'] ∈ labelFronts := by decide
    exact .part hfront (isInfix_of_after? (Option.filter_eq_some_iff.1 hnumber).1)
  | numpadDigit =>
    obtain ⟨number, hnumber, rfl⟩ := Option.map_eq_some_iff.1 h
    have hfront : ['P'] ∈ labelFronts := by decide
    exact .part hfront (isInfix_of_after? (Option.filter_eq_some_iff.1 hnumber).1)
  | verbatim =>
    rw [read?] at h
    split at h
    · cases h
      exact .part List.mem_cons_self List.infix_rfl
    · cases h
  | modifier =>
    obtain ⟨⟨code, argument⟩, hwrapped, rfl⟩ := Option.map_eq_some_iff.1 h
    obtain ⟨name, -, -, hlookup, -⟩ := wrapped?_eq_some_iff.1 hwrapped
    obtain ⟨entry, hentry, rfl⟩ := Table.exists_of_lookup? hlookup
    exact .modified hentry (isInfix_of_wrapped? hwrapped)
  | mouseButton =>
    obtain ⟨number, hnumber, rfl⟩ := Option.map_eq_some_iff.1 h
    have hfront : "MB".toList ∈ labelFronts := by simp [labelFronts]
    exact .part hfront (isInfix_of_mouseButton? hnumber)
  | special =>
    obtain ⟨label, hlookup, rfl⟩ := Option.map_eq_some_iff.1 h
    obtain ⟨entry, hentry, rfl⟩ := Table.exists_of_lookup? hlookup
    exact .entry (List.mem_append_right _ hentry)

theorem isMadeOf_read (k : Text) : (read k).IsMadeOf k := by
  rw [read]
  cases hfound : Rule.all.findSome? fun rule => rule.read? k with
  | none => exact isMadeOf_plainLabel k
  | some r =>
    obtain ⟨rule, -, hr⟩ := List.exists_of_findSome?_eq_some hfound
    exact rule.isMadeOf_read? hr

/-! ## Labels -/

theorem LabelLaw.abbreviate {P Q : Text → Prop} (law : LabelLaw P Q) {k : Text} (hk : P k) :
    Q (abbreviate k) := by
  fun_induction Keycode.abbreviate k with
  | case1 k text hread =>
    have hmade := isMadeOf_read (trim k)
    rw [hread] at hmade
    have hpart : ∀ {part : Text}, part <:+: trim k → P part := fun hinside =>
      law.inside hk (hinside.trans (isInfix_trim k))
    cases hmade with
    | entry h => exact law.entry _ h
    | part hfront h => exact law.part _ hfront _ (hpart h)
    | cut h => exact law.cut _ (hpart h)
  | case2 k code argument hread ih =>
    have hmade := isMadeOf_read (trim k)
    rw [hread] at hmade
    cases hmade with
    | modified hentry h => exact law.modified _ hentry _ (ih (law.inside hk (h.trans (isInfix_trim k))))

end Keycode
end KeyChart
