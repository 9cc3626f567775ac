import KeyChart.Text.Blank

/-!
Text as a terminal would show it, without escape sequences and hidden control characters.
-/

namespace KeyChart
namespace Text

/-- A control character that lays text out: a tab, a line feed, a form feed or a carriage return. -/
def isLayout (c : Char) : Bool := c = '\t' || c = '\n' || c = '\x0c' || c = '\r'

/-- Any other control character below the space, and the delete character. -/
def isHidden (c : Char) : Bool := (c < ' ' && !isLayout c) || c = '\x7f'

/-- The character's bytes hold the one that ends a string for a terminal. -/
def endsString (c : Char) : Bool := (String.utf8EncodeChar c).contains 0x9C

/-- An escape sequence that has begun, by what may end it. -/
inductive Sequence
  | escape
  | designation
  | control
  | device
  | deviceParameters
  | deviceIntermediates
  | string
  | command
  deriving DecidableEq, Repr

namespace Sequence

/-- What is open after one more character of a sequence; nothing is if that character ends it. The
string of a device begins where its head ends or goes wrong. -/
def next? (s : Sequence) (c : Char) : Option Sequence :=
  match s with
  | escape =>
    if c = '[' then some control
    else if c = ']' then some command
    else if c = 'P' then some device
    else if c = 'X' || c = '^' || c = '_' then some string
    else if '0' ≤ c && c ≤ '~' then none
    else if ' ' ≤ c && c ≤ '/' then some designation
    else some escape
  | designation => if '0' ≤ c && c ≤ '~' then none else some designation
  | control => if '@' ≤ c && c ≤ '~' then none else some control
  | device =>
    if '@' ≤ c && c ≤ '~' then some string
    else if '0' ≤ c && c ≤ '?' then some deviceParameters
    else if ' ' ≤ c && c ≤ '/' then some deviceIntermediates
    else some device
  | deviceParameters =>
    if '<' ≤ c && c ≤ '~' then some string
    else if ' ' ≤ c && c ≤ '/' then some deviceIntermediates
    else some deviceParameters
  | deviceIntermediates => if '0' ≤ c && c ≤ '~' then some string else some deviceIntermediates
  | string => if endsString c then none else some string
  | command => if c = '\x07' then none else some command

/-- Layout characters inside it are shown; the other sequences carry them as data. -/
def showsLayout : Sequence → Bool
  | escape | designation | control => true
  | device | deviceParameters | deviceIntermediates | string | command => false

end Sequence

/-- How far a text has been shown. A layout character shown inside a sequence leaves it waiting:
what follows is shown until a hidden character takes the sequence up again. -/
inductive Showing
  | text
  | inside (s : Sequence)
  | waiting (s : Sequence)
  deriving DecidableEq, Repr

namespace Showing

def shows (state : Showing) (c : Char) : Bool :=
  !isHidden c &&
    match state with
    | text | waiting _ => true
    | inside s => isLayout c && s.showsLayout

/-- The state after a character. Escape begins a sequence everywhere; cancel and substitute end it. -/
def next (state : Showing) (c : Char) : Showing :=
  if c = '\x1b' then inside .escape
  else if c = '\x18' || c = '\x1a' then text
  else
    match state with
    | text => text
    | inside s =>
      if isLayout c && s.showsLayout then waiting s
      else
        match s.next? c with
        | some s => inside s
        | none => text
    | waiting s => if isHidden c then inside s else if c ≤ '~' then waiting s else text

end Showing

/-- The characters of a text that are shown, from a state on. -/
def shown (state : Showing) : Text → Text
  | [] => []
  | c :: t => if state.shows c then c :: shown (state.next c) t else shown (state.next c) t

def plain (t : Text) : Text := shown .text t

end Text
end KeyChart
