import KeyChart.Json.Value

/-!
The two written forms of a JSON value: compact, without any space, and pretty, with two spaces for
each level. In a string only quotes, backslashes and the control characters below the space are
escaped.
-/

namespace KeyChart
namespace Json

/-- A hexadecimal digit, in lower case. -/
def hexDigit (n : Nat) : Char :=
  Char.ofNat (if n < 10 then '0'.toNat + n else 'a'.toNat + (n - 10))

/-- A character as it stands between quotes. -/
def escape (c : Char) : List Char :=
  match c with
  | '"' => ['\\', '"']
  | '\\' => ['\\', '\\']
  | '\n' => ['\\', 'n']
  | '\r' => ['\\', 'r']
  | '\t' => ['\\', 't']
  | '\x08' => ['\\', 'b']
  | '\x0c' => ['\\', 'f']
  | c =>
    if c.toNat < 0x20 then
      ['\\', 'u', '0', '0', hexDigit (c.toNat / 16), hexDigit (c.toNat % 16)]
    else [c]

def quote (s : String) : String := "\"" ++ String.ofList (s.toList.flatMap escape) ++ "\""

mutual

def compact : Json → String
  | .bool b => if b then "true" else "false"
  | .number n => toString n
  | .text s => quote s
  | .list items => "[" ++ ",".intercalate (compactItems items) ++ "]"
  | .object fields => "\x7b" ++ ",".intercalate (compactFields fields) ++ "\x7d"

def compactItems : List Json → List String
  | [] => []
  | v :: vs => v.compact :: compactItems vs

def compactFields : List (String × Json) → List String
  | [] => []
  | (name, v) :: fields => (quote name ++ ":" ++ v.compact) :: compactFields fields

end

/-- A new line inside `depth` levels. -/
def newLine (depth : Nat) : String := "\n" ++ String.ofList (List.replicate (2 * depth) ' ')

/-- Entries between brackets, one a line; no entries leave the brackets side by side. -/
def bracket (opening closing : String) (depth : Nat) (entries : List String) : String :=
  if entries = [] then opening ++ closing
  else opening ++ newLine (depth + 1) ++ ("," ++ newLine (depth + 1)).intercalate entries ++
    newLine depth ++ closing

mutual

/-- The pretty form of a value that stands inside `depth` levels. -/
def prettyAt (depth : Nat) : Json → String
  | .list items => bracket "[" "]" depth (prettyItems (depth + 1) items)
  | .object fields => bracket "\x7b" "\x7d" depth (prettyFields (depth + 1) fields)
  | v => v.compact

def prettyItems (depth : Nat) : List Json → List String
  | [] => []
  | v :: vs => v.prettyAt depth :: prettyItems depth vs

def prettyFields (depth : Nat) : List (String × Json) → List String
  | [] => []
  | (name, v) :: fields => (quote name ++ ": " ++ v.prettyAt depth) :: prettyFields depth fields

end

def pretty (v : Json) : String := v.prettyAt 0

end Json
end KeyChart
