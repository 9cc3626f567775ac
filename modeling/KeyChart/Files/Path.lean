import KeyChart.Text.Blank

/-!
Names, places in a file tree, and paths as they are typed. A path is a list of names to follow one
after the other; `.` stays, as the empty name behind a last slash does, and `..` goes up.
-/

namespace KeyChart

/-- The name of an entry in its directory. -/
abbrev Name := Text

/-- A place below the root: its own name and those of the directories around it, innermost first. -/
abbrev Location := List Name

namespace Location

/-- The root is its own parent. -/
def parent (l : Location) : Location := l.tail

/-- The absolute path of a place. -/
def path (l : Location) : String :=
  if l = [] then "/"
  else String.join (l.reverse.map fun name => "/" ++ String.ofList name)

end Location

/-- A path as it is typed: where it starts and the names to follow. -/
structure Path where
  absolute : Bool
  names : List Name
  deriving DecidableEq, Repr

namespace Path

/-- Cuts a text at its slashes. -/
def cutAtSlashes : Text → List Name
  | [] => [[]]
  | c :: t =>
    match c, cutAtSlashes t with
    | '/', names => [] :: names
    | c, name :: names => (c :: name) :: names
    | c, [] => [[c]]

/-- The path of a text. Slashes may be doubled; one at the end asks for a directory. -/
def ofText (t : Text) : Path :=
  let names := (cutAtSlashes t).filter fun name => name ≠ []
  { absolute := t.head? = some '/'
    names := if t.getLast? = some '/' && names ≠ [] then names ++ [[]] else names }

end Path
end KeyChart
