import KeyChart.Diagram.Cell
import KeyChart.Proofs.Keycode.Parts
import KeyChart.Proofs.Text.Marks
import KeyChart.Refresh.Comment

/-!
Comment marks in single labels. Keycodes may hold stars and slashes, and labels of their own are a star or
a slash, but whatever is put next to a part of a keycode is neither. Main statement: no mark of a comment
comes about in a label or in its cell that does not stand in the keycode (`label_unmarked`).
-/

namespace KeyChart

open Text Comment

/-- No mark that opens or ends a comment stands in the text. -/
def Text.IsUnmarked (t : Text) : Prop := ¬ Holds openMark t ∧ ¬ Holds endMark t

instance (t : Text) : Decidable (Text.IsUnmarked t) := inferInstanceAs (Decidable (_ ∧ _))

/-- The text has no character of a mark. -/
def Text.IsInert (t : Text) : Prop := '*' ∉ t ∧ '/' ∉ t

instance (t : Text) : Decidable (Text.IsInert t) := inferInstanceAs (Decidable (_ ∧ _))

namespace Text

theorem IsUnmarked.of_isInfix {t u : Text} (h : IsUnmarked t) (hu : u <:+: t) : IsUnmarked u :=
  ⟨fun hholds => h.1 (hholds.of_isInfix hu), fun hholds => h.2 (hholds.of_isInfix hu)⟩

theorem IsInert.isUnmarked_append_iff {u v : Text} (hu : IsInert u) :
    IsUnmarked (u ++ v) ↔ IsUnmarked v := by
  rw [IsUnmarked, IsUnmarked, openMark_eq, endMark_eq, holds_append_iff_of_not_mem_left hu.1,
    holds_append_iff_of_not_mem_left hu.2]

theorem IsInert.append_isUnmarked_iff {u v : Text} (hv : IsInert v) :
    IsUnmarked (u ++ v) ↔ IsUnmarked u := by
  rw [IsUnmarked, IsUnmarked, openMark_eq, endMark_eq, holds_append_iff_of_not_mem_right hv.1,
    holds_append_iff_of_not_mem_right hv.2]

end Text

/-! ## Labels -/

namespace Keycode

theorem entries_unmarked : ∀ entry ∈ exactLabels ++ specialLabels, IsUnmarked entry.2.toList := by
  decide +kernel

theorem modifierCodes_inert : ∀ entry ∈ modifierCodes, IsInert entry.2.toList := by
  decide

theorem labelFronts_inert : ∀ front ∈ labelFronts, IsInert front := by
  decide +kernel

theorem labelLaw_unmarked : LabelLaw IsUnmarked IsUnmarked where
  inside hk hpart := hk.of_isInfix hpart
  entry := entries_unmarked
  part front hfront _ hpart := (labelFronts_inert front hfront).isUnmarked_append_iff.2 hpart
  cut _ hpart := by
    have hpoint : IsInert ['.'] := by decide
    exact hpoint.append_isUnmarked_iff.2 hpart
  modified entry hentry label hlabel := by
    have hplus : IsInert ['+'] := by decide
    exact (modifierCodes_inert entry hentry).isUnmarked_append_iff.2
      (hplus.isUnmarked_append_iff.2 hlabel)

end Keycode

/-! ## Cells -/

namespace Diagram

theorem isInert_spaces (n : Nat) : IsInert (spaces n) := by
  have hspace : ∀ {c : Char}, c ∈ spaces n → c = ' ' := fun hc => List.eq_of_mem_replicate hc
  exact ⟨fun hc => absurd (hspace hc) (by decide), fun hc => absurd (hspace hc) (by decide)⟩

theorem isUnmarked_centre {label : Text} (h : IsUnmarked label) : IsUnmarked (centre label) := by
  have hclip : clip label <+: label := List.take_prefix _ label
  rw [centre, (isInert_spaces _).append_isUnmarked_iff, (isInert_spaces _).isUnmarked_append_iff]
  exact h.of_isInfix hclip.isInfix

end Diagram

theorem label_unmarked {k : Text} (h : IsUnmarked k) :
    IsUnmarked (Keycode.abbreviate k) ∧ IsUnmarked (Diagram.centre (Keycode.abbreviate k)) := by
  have hlabel := Keycode.labelLaw_unmarked.abbreviate h
  exact ⟨hlabel, Diagram.isUnmarked_centre hlabel⟩

namespace Sample

/-- A star and a slash in a wrapped keycode whose label is longer than a cell. -/
def slashedKeycode : Text := "LGUI( LT(a*, /b) )".toList

def slashedLabel : Text := "G+LT(a*, /b)".toList

theorem abbreviate_slashedKeycode : Keycode.abbreviate slashedKeycode = slashedLabel := by
  have hgui : Keycode.read (trim slashedKeycode) = .modified ['G'] " LT(a*, /b) ".toList := by
    decide +kernel
  have hlayer : Keycode.read (trim " LT(a*, /b) ".toList) = .label "LT(a*, /b)".toList := by
    decide +kernel
  rw [Keycode.abbreviate_of_modified hgui, Keycode.abbreviate_of_label hlayer]
  decide

end Sample

theorem label_unmarked_sample : IsUnmarked Sample.slashedKeycode ∧
    Keycode.abbreviate Sample.slashedKeycode = Sample.slashedLabel ∧
    Diagram.centre Sample.slashedLabel = "G+LT(a*".toList ∧
    IsUnmarked Sample.slashedLabel ∧ IsUnmarked (Diagram.centre Sample.slashedLabel) := by
  have hkeycode : IsUnmarked Sample.slashedKeycode := by decide
  have hlabel := label_unmarked hkeycode
  rw [Sample.abbreviate_slashedKeycode] at hlabel
  exact ⟨hkeycode, Sample.abbreviate_slashedKeycode, by decide +kernel, hlabel⟩

end KeyChart
