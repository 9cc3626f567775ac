import KeyChart.Refresh.Verdict

/-!
The refresh of a text: every diagram comment that can be drawn is drawn anew, and the report tells
which layers were updated and which were not. A text without layers cannot be refreshed.
-/

namespace KeyChart

/-- Why a text cannot be refreshed. -/
inductive RefreshError
  | noLayers
  deriving DecidableEq, Repr

namespace RefreshError

def message : RefreshError → String
  | noLayers => "No layers found!"

end RefreshError

/-- A layer that was left as it is. -/
structure Skipped where
  name : Text
  reason : SkipReason
  deriving DecidableEq, Repr

/-- The refreshed text, the names of the updated layers and the skipped layers, both in order. -/
structure Outcome where
  content : Text
  updated : List Text
  skipped : List Skipped
  deriving DecidableEq, Repr

namespace Verdict

def updatedName? (v : Verdict) : Option Text := v.edit?.map fun _ => v.layer.name

def skipped? (v : Verdict) : Option Skipped := v.reason?.map fun reason => ⟨v.layer.name, reason⟩

end Verdict

namespace Outcome

/-- What verdicts on the layers of a text come to. -/
def ofVerdicts (t : Text) (verdicts : List Verdict) : Outcome where
  content := Edit.splice (verdicts.filterMap Verdict.edit?) t
  updated := verdicts.filterMap Verdict.updatedName?
  skipped := verdicts.filterMap Verdict.skipped?

end Outcome

/-- The verdict on every layer of a text, in order. -/
def verdicts (t : Text) : List Verdict := Verdict.judge t 0 (Keymap.layers t)

/-- Draws the diagrams of a text anew. -/
def refresh (t : Text) : Except RefreshError Outcome :=
  if Keymap.layers t = [] then .error .noLayers else .ok (Outcome.ofVerdicts t (verdicts t))

theorem refresh_eq_error_iff {t : Text} : refresh t = .error .noLayers ↔ Keymap.layers t = [] := by
  unfold refresh
  split <;> simp_all

end KeyChart
