import KeyChart.Command.Output
import KeyChart.Json.Printer
import KeyChart.Refresh.File

/-!
Showing the layers of a keymap, as text or as JSON. The file is only read.
-/

namespace KeyChart
namespace Show

/-- The line between two layers. -/
def separator : String := String.ofList (List.replicate 80 '=')

def layerText (l : Layer) : String :=
  s!"Layer: {String.ofList l.name} ({l.keyCount} keycodes)\n\n" ++
    String.ofList (l.diagram?.getD []) ++ s!"\n\n{separator}\n\n"

def text (layers : List Layer) : String :=
  s!"Found {layers.length} layers:\n\n" ++ String.join (layers.map layerText)

/-- One layer in a JSON report; a layer that cannot be drawn has no diagram. -/
def layerJson (l : Layer) : Json :=
  .object ([
    ("name", .text (String.ofList l.name)),
    ("line", .number l.line),
    ("key_count", .number l.keyCount),
    ("renderable", .bool l.isRenderable),
    ("labels", .list (l.labels.map fun label => .text (String.ofList label)))] ++
    l.diagram?.toList.map fun diagram => ("diagram", .text (String.ofList diagram)))

def json (file : String) (layers : List Layer) : Json :=
  .object [("file", .text file), ("layers", .list (layers.map layerJson))]

/-- What is shown of a loaded text. -/
def output (file : String) (asJson : Bool) (t : Text) : Output :=
  let layers := Keymap.layers t
  .success (if asJson then (json file layers).pretty ++ "\n" else text layers) (Keymap.events t)

end Show

namespace Disk

variable {m : Type → Type} [Monad m]

/-- Shows the layers of a file. -/
def showFile (disk : Disk m) (file : String) (asJson : Bool) : m Output := do
  match ← disk.load file with
  | .error e => return .failure "" s!"Failed to load keymap: {e.message}" []
  | .ok t => return Show.output file asJson t

end Disk
end KeyChart
