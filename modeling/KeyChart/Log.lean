import KeyChart.Refresh.Outcome

/-!
What is worth a line in the log, and the line. Warnings are always shown, the rest on request.
-/

namespace KeyChart

inductive Level
  | debug
  | info
  | warn
  deriving DecidableEq, Repr

def Level.word : Level → String
  | .debug => "DEBUG"
  | .info => "INFO"
  | .warn => "WARN"

inductive Event
  | found (name : Text) (line keys : Nat)
  | skipped (name : Text) (reason : SkipReason)
  | overlapped (name : Text)
  | written (path : String) (layers : Nat)
  | upToDate (path : String)
  | notRegenerated (name : Text) (reason : SkipReason)
  deriving DecidableEq, Repr

namespace Event

def level : Event → Level
  | found .. => .debug
  | skipped .. => .debug
  | overlapped .. => .warn
  | written .. => .info
  | upToDate .. => .debug
  | notRegenerated .. => .info

/-- The part of the program that speaks. -/
def target : Event → String
  | found .. => "keymap_diagram::parser::keymap"
  | notRegenerated .. => "keymap_diagram::cli::update"
  | _ => "keymap_diagram::services::keymap_patcher"

def message : Event → String
  | found name line keys =>
    s!"Found layer declaration layer=\"{String.ofList name}\" line={line} keys={keys}"
  | skipped name reason => s!"Skipping layer layer={String.ofList name} reason={reason.message}"
  | overlapped name =>
    s!"Comment block overlaps previous layer, skipping layer={String.ofList name}"
  | written path layers => s!"Wrote keymap path={path} layers={layers}"
  | upToDate path => s!"Keymap already up to date path={path}"
  | notRegenerated name reason =>
    s!"Layer comment not regenerated layer={String.ofList name} reason={reason.message}"

def line (e : Event) : String := s!"{e.level.word} {e.target}: {e.message}"

/-- The event is shown, given whether all of them are asked for. -/
def isShown (verbose : Bool) (e : Event) : Bool := verbose || e.level = .warn

end Event

/-- The events of reading a text: one for each declaration, empty tables included. -/
def Keymap.events (t : Text) : List Event :=
  (Keymap.declared t).map fun l => .found l.name l.line l.keyCount

/-- The event of a verdict; an update goes without. -/
def Verdict.event? : Verdict → Option Event
  | updated _ _ => none
  | skipped l .overlap => some (.overlapped l.name)
  | skipped l reason => some (.skipped l.name reason)

end KeyChart
