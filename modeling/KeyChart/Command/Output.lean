import KeyChart.Log

/-!
What a run of the program leaves: its exit code, both output texts and the log lines shown.
-/

namespace KeyChart

structure Output where
  code : Nat
  stdout : String
  stderr : String
  log : List Event
  deriving DecidableEq, Repr

namespace Output

def success (stdout : String) (log : List Event) : Output := ⟨0, stdout, "", log⟩

/-- A run that ends with an error after it has written `stdout`. -/
def failure (stdout message : String) (log : List Event) : Output :=
  ⟨1, stdout, s!"Error: {message}\n", log⟩

end Output
end KeyChart
