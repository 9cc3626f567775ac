import KeyChart.Text.Plain

/-!
The arguments of the command line. They are read from the left, and the first that asks for help or
the version, or that cannot be read, settles the matter. A file without a name is refused only where
a flag takes effect after it, or at the end.
-/

namespace KeyChart

inductive Flag
  | update
  | json
  | verbose
  | help
  | version
  deriving DecidableEq, Repr

namespace Flag

def all : List Flag := [update, json, verbose, help, version]

/-- The name behind two dashes. -/
def long : Flag → String
  | update => "update"
  | json => "json"
  | verbose => "verbose"
  | help => "help"
  | version => "version"

/-- The letter behind one dash. -/
def short? : Flag → Option Char
  | verbose => some 'v'
  | help => some 'h'
  | version => some 'V'
  | _ => none

def ofLong? (name : String) : Option Flag := all.find? fun flag => flag.long = name

def ofShort? (letter : Char) : Option Flag := all.find? fun flag => flag.short? = some letter

end Flag

/-- Why arguments cannot be read. -/
inductive Misuse
  | unexpected (argument : String)
  | repeated (flag : Flag)
  | valueGiven (value : String) (flag : Flag)
  | emptyFile
  deriving DecidableEq, Repr

namespace Misuse

/-- Words of the command line as a message repeats them. -/
def quote (words : String) : String :=
  let shown := String.ofList (Text.plain words.toList)
  s!"'{shown}'"

def message : Misuse → String
  | unexpected argument => s!"error: unexpected argument {quote argument} found"
  | repeated flag => s!"error: the argument '--{flag.long}' cannot be used multiple times"
  | valueGiven value flag =>
    s!"error: unexpected value {quote value} for '--{flag.long}' found; no more were expected"
  | emptyFile => "error: a value is required for '[FILE]' but none was supplied"

end Misuse

/-- The file and the flags given so far. -/
structure Options where
  file : Option String
  flags : List Flag
  deriving DecidableEq, Repr

/-- What the arguments ask for. -/
inductive Request
  | run (options : Options)
  | help
  | version
  | misuse (problem : Misuse)
  deriving DecidableEq, Repr

namespace Options

def none : Options := ⟨.none, []⟩

def has (o : Options) (flag : Flag) : Bool := o.flags.contains flag

/-- Goes on unless the file has no name. -/
def named (o : Options) (next : Options → Request) : Request :=
  if o.file = some "" then .misuse .emptyFile else next o

/-- Takes a flag and goes on, unless the flag settles the matter. -/
def withFlag (o : Options) (flag : Flag) (next : Options → Request) : Request :=
  o.named fun o =>
    match flag with
    | .help => .help
    | .version => .version
    | flag =>
      if o.has flag then .misuse (.repeated flag) else next { o with flags := flag :: o.flags }

/-- Takes the file and goes on; there is room for one. -/
def withFile (o : Options) (file : String) (next : Options → Request) : Request :=
  if o.file.isSome then .misuse (.unexpected file) else next { o with file := some file }

/-- Takes the letters behind one dash. -/
def withLetters (o : Options) (next : Options → Request) : List Char → Request
  | [] => next o
  | c :: cs =>
    match Flag.ofShort? c with
    | some flag => o.withFlag flag fun o => o.withLetters next cs
    | .none => .misuse (.unexpected (String.ofList ['-', c]))

/-- Takes the flag behind two dashes; what stands behind an equals sign would be its value. -/
def withLong (o : Options) (next : Options → Request) (argument : List Char) : Request :=
  let name := String.ofList (argument.takeWhile (· ≠ '='))
  match Flag.ofLong? name, argument.dropWhile (· ≠ '=') with
  | .none, _ => .misuse (.unexpected ("--" ++ name))
  | some flag, [] => o.withFlag flag next
  | some flag, _ :: value => .misuse (.valueGiven (String.ofList value) flag)

/-- Reads arguments behind two dashes alone, where each is a file. -/
def readFiles (o : Options) : List String → Request
  | [] => o.named .run
  | a :: as => o.withFile a fun o => o.readFiles as

/-- Reads arguments. One dash alone is a file. -/
def read (o : Options) : List String → Request
  | [] => o.named .run
  | a :: as =>
    match a.toList with
    | ['-', '-'] => o.readFiles as
    | '-' :: '-' :: argument => o.withLong (fun o => o.read as) argument
    | '-' :: c :: letters => o.withLetters (fun o => o.read as) (c :: letters)
    | _ => o.withFile a fun o => o.read as

end Options

/-- The request that arguments make. -/
def Request.ofArguments (arguments : List String) : Request := Options.none.read arguments

end KeyChart
