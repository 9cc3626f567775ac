import KeyChart.Keycode.Rule

/-!
The short label of a keycode. Modifiers nest to any depth; each adds its letter and a plus sign.
-/

namespace KeyChart
namespace Keycode

/-- The label of a keycode; blank characters around the code and around each argument do not
count. -/
def abbreviate (keycode : Text) : Text :=
  match _hread : read (Text.trim keycode) with
  | .label text => text
  | .modified code argument => code ++ '+' :: abbreviate argument
termination_by keycode.length
decreasing_by
  have hlt := length_argument_lt_of_read _hread
  have hle := Text.length_trim_le keycode
  omega

theorem abbreviate_of_label {k text : Text} (h : read (Text.trim k) = .label text) :
    abbreviate k = text := by
  rw [abbreviate]
  split <;> simp_all

theorem abbreviate_of_modified {k code argument : Text}
    (h : read (Text.trim k) = .modified code argument) :
    abbreviate k = code ++ '+' :: abbreviate argument := by
  rw [abbreviate]
  split <;> simp_all

end Keycode
end KeyChart
