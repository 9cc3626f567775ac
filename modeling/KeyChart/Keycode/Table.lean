import KeyChart.Text.Search

/-!
The keycodes with a label of their own, the words that wrap or introduce a keycode, and look-up in
such tables. The first entry with the wanted code counts.
-/

namespace KeyChart
namespace Keycode

/-- Codes and what stands for them, in order. -/
abbrev Table := List (String × String)

namespace Table

def lookup? (table : Table) (code : Text) : Option Text :=
  (table.find? fun entry => entry.1.toList = code).map fun entry => entry.2.toList

end Table

/-- Navigation, modifiers, punctuation, and the keys that do nothing or fall through. -/
def exactLabels : Table := [
  ("KC_NO", "NO"),
  ("KC_TRNS", "TRNS"),
  ("KC_ESC", "ESC"),
  ("KC_TAB", "Tab"),
  ("KC_LSFT", "LShift"),
  ("KC_RSFT", "RShift"),
  ("KC_LCTL", "LCTRL"),
  ("KC_RCTL", "RCTRL"),
  ("KC_LALT", "LALT"),
  ("KC_RALT", "RALT"),
  ("KC_LGUI", "LGUI"),
  ("KC_RGUI", "RGUI"),
  ("KC_SPC", "Space"),
  ("KC_ENT", "Enter"),
  ("KC_BSPC", "BackSP"),
  ("KC_DEL", "Delete"),
  ("KC_HOME", "Home"),
  ("KC_END", "End"),
  ("KC_PGUP", "PgUp"),
  ("KC_PGDN", "PgDn"),
  ("KC_UP", "Up"),
  ("KC_DOWN", "Down"),
  ("KC_LEFT", "Left"),
  ("KC_RGHT", "Right"),
  ("KC_NUM", "NUM"),
  ("KC_GRV", "`"),
  ("KC_MINS", "-"),
  ("KC_EQL", "="),
  ("KC_BSLS", "\\"),
  ("KC_LBRC", "["),
  ("KC_RBRC", "]"),
  ("KC_SCLN", ";"),
  ("KC_QUOT", "'"),
  ("KC_COMM", ","),
  ("KC_DOT", "."),
  ("KC_SLSH", "/"),
  ("KC_EXLM", "!"),
  ("KC_AT", "@"),
  ("KC_HASH", "#"),
  ("KC_DLR", "$"),
  ("KC_PERC", "%"),
  ("KC_CIRC", "^"),
  ("KC_AMPR", "&"),
  ("KC_ASTR", "*"),
  ("KC_LPRN", "("),
  ("KC_RPRN", ")"),
  ("KC_UNDS", "_"),
  ("KC_PLUS", "+"),
  ("KC_LCBR", "\x7b"),
  ("KC_RCBR", "\x7d"),
  ("KC_PIPE", "|"),
  ("KC_TILD", "~"),
  ("KC_LT", "<"),
  ("KC_GT", ">"),
  ("XXXXXXX", "X"),
  ("_______", "___")]

/-- Media, lighting and caps-word keys. -/
def specialLabels : Table := [
  ("KC_MPLY", "PLAY"),
  ("KC_MPRV", "PREV"),
  ("KC_MNXT", "NEXT"),
  ("KC_MUTE", "MUTE"),
  ("KC_VOLU", "VOL+"),
  ("KC_VOLD", "VOL-"),
  ("RGB_TOG", "RGB"),
  ("RGB_HUI", "HUE+"),
  ("RGB_HUD", "HUE-"),
  ("RGB_SAI", "SAT+"),
  ("RGB_SAD", "SAT-"),
  ("RGB_VAI", "VAL+"),
  ("RGB_VAD", "VAL-"),
  ("RGB_MOD", "MODE"),
  ("UG_TOGG", "UG_TG"),
  ("CW_TOGG", "CW_TG")]

/-- Modifier wrappers and the letter that stands for each in front of a label. -/
def modifierCodes : Table := [
  ("LCTL", "C"),
  ("RCTL", "C"),
  ("LSFT", "S"),
  ("RSFT", "S"),
  ("LALT", "A"),
  ("RALT", "A"),
  ("LGUI", "G"),
  ("RGUI", "G")]

/-- Openings of the keycodes that switch layers. -/
def layerActions : List String :=
  ["MO(", "TG(", "LT(", "TO(", "TT(", "OSL(", "DF(", "LM("]

/-- Start of the one-shot modifier keys. -/
def oneShot : String := "OS_"

/-- Starts that a keycode without a label of its own loses. -/
def droppedStarts : List String := ["KC_", "QK_"]

/-- Starts that a mouse button may have before its word and number. -/
def mouseStarts : List String := ["MS_", "KC_"]

end Keycode
end KeyChart
