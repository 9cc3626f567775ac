import KeyChart.Json.Printer
import KeyChart.Keymap.Layer

/-!
A layer as a JSON value: its name, its keys as they are written, and its line.
-/

namespace KeyChart

def Layer.json (l : Layer) : Json :=
  .object [
    ("name", .text (String.ofList l.name)),
    ("tokens", .list (l.tokens.map fun token => .text (String.ofList token))),
    ("line", .number l.line)]

end KeyChart
