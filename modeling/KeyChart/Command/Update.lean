import KeyChart.Command.Output
import KeyChart.Json.Printer
import KeyChart.Refresh.File

/-!
Refreshing a keymap file from the command line, with a report as text or as JSON.
-/

namespace KeyChart
namespace Update

def reasonJson : SkipReason → Json
  | .keyCount found => .object [("key_count", .number found)]
  | .missingComment => .text "missing_comment"
  | .overlap => .text "overlap"

def skippedJson (s : Skipped) : Json :=
  .object [("name", .text (String.ofList s.name)), ("reason", reasonJson s.reason)]

def json (file : String) (summary : Summary) : Json :=
  .object [
    ("file", .text file),
    ("updated", .list (summary.updated.map fun name => .text (String.ofList name))),
    ("skipped", .list (summary.skipped.map skippedJson)),
    ("written", .bool summary.written)]

/-- What is said of an error; one in the text names the file. -/
def errorMessage (file : String) : UpdateError → String
  | .notRefreshed .noLayers => s!"No layers found in {file}"
  | e => e.message

/-- The report on a refresh and on what happened on its way. -/
def output (file : String) (asJson : Bool) (result : Except UpdateError Summary)
    (log : List Event) : Output :=
  let opening := s!"Updating {file}...\n"
  match result with
  | .error e =>
    .failure (if asJson then "" else opening ++ "✗ Failed to update file\n") (errorMessage file e) log
  | .ok summary =>
    .success
      (if asJson then (json file summary).pretty ++ "\n"
        else opening ++ "✓ File updated successfully!\n")
      (log ++ summary.skipped.map fun s => .notRegenerated s.name s.reason)

end Update

namespace Disk

variable {m : Type → Type} [Monad m]

/-- Draws the diagrams of a file anew and reports on it. -/
def updateFile (disk : Disk m) (file : String) (asJson : Bool) : m Output := do
  let (result, log) ← disk.refreshFile file
  return Update.output file asJson result log

end Disk
end KeyChart
