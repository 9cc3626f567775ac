import KeyChart.Command.Request
import KeyChart.Command.Show
import KeyChart.Command.Update

/-!
The program: its help and usage texts, and what it does for each request.
-/

namespace KeyChart
namespace Command

def programName : String := "keymap-diagram"

def versionText : String := s!"{programName} 0.1.0\n"

def helpText : String :=
  "Regenerates ASCII layer diagrams above the LAYOUT tables of QMK keymap sources\n\n" ++
  s!"Usage: {programName} [OPTIONS] [FILE]\n\n" ++
  "Arguments:\n" ++
  "  [FILE]  Path to the keymap source (keymap.c)\n\n" ++
  "Options:\n" ++
  "      --update   Update the keymap file with generated comments\n" ++
  "      --json     Output as JSON\n" ++
  "  -v, --verbose  Enable verbose logging\n" ++
  "  -h, --help     Print help\n" ++
  "  -V, --version  Print version\n"

/-- What is said when no file is given. -/
def usageText : String :=
  s!"Usage: {programName} <keymap.c> [--update]\n\n" ++
  "Options:\n" ++
  "  --update    Update the keymap file with generated comments\n" ++
  "  --json      Output as JSON\n\n" ++
  "Examples:\n" ++
  s!"  {programName} keyboards/lily58/rev1/keymaps/default/keymap.c\n" ++
  s!"  {programName} keyboards/lily58/rev1/keymaps/default/keymap.c --update\n"

/-- What is said of arguments that cannot be read; the first line tells the problem. -/
def misuseText (problem : Misuse) : String :=
  problem.message ++ s!"\n\nUsage: {programName} [OPTIONS] [FILE]\n\n" ++
  "For more information, try '--help'.\n"

variable {m : Type → Type} [Monad m]

/-- Answers what options ask for. -/
def runOptions (disk : Disk m) (o : Options) : m Output := do
  match o.file with
  | none => return ⟨1, "", usageText, []⟩
  | some file =>
    let output ← if o.has .update then disk.updateFile file (o.has .json)
      else disk.showFile file (o.has .json)
    return { output with log := output.log.filter (Event.isShown (o.has .verbose)) }

/-- Runs the program with arguments. -/
def run (disk : Disk m) (arguments : List String) : m Output :=
  match Request.ofArguments arguments with
  | .help => return .success helpText []
  | .version => return .success versionText []
  | .misuse problem => return ⟨2, "", misuseText problem, []⟩
  | .run o => runOptions disk o

end Command
end KeyChart
