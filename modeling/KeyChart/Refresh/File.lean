import KeyChart.Files.Replace
import KeyChart.Log

/-!
Keymaps in files: loading one to show it, and refreshing one in place. A file is written only if the
refresh changes its text.
-/

namespace KeyChart

/-- Why a keymap cannot be loaded. -/
inductive LoadError
  | notFile (path : String)
  | unreadable (path : String) (fault : Fault)
  deriving DecidableEq, Repr

namespace LoadError

def message : LoadError → String
  | notFile path => s!"Keymap file not found: {path}"
  | unreadable path fault => s!"Failed to read keymap file: {path}: {fault.message}"

end LoadError

/-- Why a keymap file cannot be refreshed. -/
inductive UpdateError
  | unreadable (path : String) (fault : Fault)
  | notRefreshed (error : RefreshError)
  | notReplaced (error : ReplaceError)
  deriving DecidableEq, Repr

namespace UpdateError

def message : UpdateError → String
  | unreadable path fault => (LoadError.unreadable path fault).message
  | notRefreshed error => error.message
  | notReplaced error => error.message

end UpdateError

/-- What a refresh did to a file. -/
structure Summary where
  updated : List Text
  skipped : List Skipped
  written : Bool
  deriving DecidableEq, Repr

namespace Disk

variable {m : Type → Type} [Monad m]

/-- The text of a regular file. -/
def load (disk : Disk m) (path : String) : m (Except LoadError Text) := do
  if ← disk.isFile path then
    match ← (disk.readText path).run with
    | .ok t => return .ok t
    | .error fault => return .error (.unreadable path fault)
  else
    return .error (.notFile path)

/-- Replaces the text of a file by its refresh, unless they are the same. -/
def store (disk : Disk m) (path : String) (old : Text) (new : Outcome) :
    m (Except UpdateError Summary × List Event) := do
  if new.content = old then
    return (.ok ⟨new.updated, new.skipped, false⟩, [.upToDate path])
  else
    match ← (disk.replace path new.content).run with
    | .error e => return (.error (.notReplaced e), [])
    | .ok () => return (.ok ⟨new.updated, new.skipped, true⟩, [.written path new.updated.length])

/-- Draws the diagrams of a file anew, and tells what happened on the way. -/
def refreshFile (disk : Disk m) (path : String) :
    m (Except UpdateError Summary × List Event) := do
  match ← (disk.readText path).run with
  | .error fault => return (.error (.unreadable path fault), [])
  | .ok t =>
    match refresh t with
    | .error e => return (.error (.notRefreshed e), Keymap.events t)
    | .ok outcome =>
      let (result, events) ← disk.store path t outcome
      return (result, Keymap.events t ++ (verdicts t).filterMap Verdict.event? ++ events)

end Disk
end KeyChart
