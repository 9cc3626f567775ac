import KeyChart.Files.Tree

/-!
What files hold: bytes, read as UTF-8 text. A file that is written keeps its permission bits. Main
statement: a text that is written reads back (`decode_encode`).
-/

namespace KeyChart

/-- The bytes of a text. -/
def encode (t : Text) : ByteArray := (String.ofList t).toUTF8

/-- The text that bytes are, if they are one. -/
def decode (bytes : ByteArray) : Except Fault Text :=
  match String.fromUTF8? bytes with
  | some s => .ok s.toList
  | none => .error .invalidText

namespace FileTree

/-- The path leads to a regular file. -/
def isFile (tree : FileTree) (sys : System) (path : String) : Bool :=
  match tree.entry sys path with
  | .ok (_, .file _ _) => true
  | _ => false

/-- The bytes of a file. A directory can be opened for reading, but it has none. -/
def readBytes (tree : FileTree) (sys : System) (path : String) : Except Fault ByteArray := do
  match ← tree.entry sys path with
  | (place, .file content mode) =>
    if sys.grants .read place mode then .ok content else .error .accessDenied
  | (place, .directory mode) =>
    if sys.grants .read place mode then .error .isDirectory else .error .accessDenied
  | (_, .link _) => .error .linkLoop

def readText (tree : FileTree) (sys : System) (path : String) : Except Fault Text := do
  decode (← tree.readBytes sys path)

/-- The program may make an entry in the directory at a place. -/
def mayAdd (tree : FileTree) (sys : System) (place : Location) : Bool :=
  match tree.find? place with
  | some (.directory mode) => sys.grants .add place mode
  | _ => false

/-- Opens a file at a place for writing, where there may be none yet. -/
def openFile (tree : FileTree) (sys : System) (place : Location) : Except Fault Location :=
  match tree.find? place with
  | none => if tree.mayAdd sys place.parent then .ok place else .error .accessDenied
  | some (.file _ mode) => if sys.grants .write place mode then .ok place else .error .accessDenied
  | some (.directory _) => .error .isDirectory
  | some (.link _) => .error .linkLoop

/-- The permission bits of the file at a place, or of a new one there. -/
def modeFor (tree : FileTree) (place : Location) : Nat :=
  match tree.find? place with
  | some (.file _ mode) => mode
  | _ => fileMode

/-- Puts a content into the file at a place, or into a new one there. -/
def fill (tree : FileTree) (place : Location) (content : ByteArray) : FileTree :=
  tree.put place (.file content (tree.modeFor place))

def setModeAt (tree : FileTree) (place : Location) (mode : Nat) : FileTree :=
  match tree.find? place with
  | some (.file content _) => tree.put place (.file content mode)
  | some (.directory _) => if place = [] then tree else tree.put place (.directory mode)
  | _ => tree

/-- The permission bits of the file or the directory at a place. -/
def modeAt (tree : FileTree) (place : Location) : Except Fault Nat :=
  match tree.find? place with
  | some (.file _ mode) => .ok mode
  | some (.directory mode) => .ok mode
  | some (.link _) => .error .linkLoop
  | none => .error .notFound

/-- Gives the file or the link at one place the name of another, whose entry it displaces. No directory is
displaced or moved. -/
def move (tree : FileTree) (source target : Location) : Except Fault FileTree :=
  match tree.find? source, tree.find? target with
  | none, _ => .error .notFound
  | some (.directory _), _ => .error .notDirectory
  | some _, some (.directory _) => .error .isDirectory
  | some e, _ => .ok ((tree.erase source).put target e)

end FileTree

theorem decode_encode (t : Text) : decode (encode t) = .ok t := by
  have h : String.fromUTF8? (String.ofList t).toUTF8 = some (String.ofList t) := by
    simp only [String.fromUTF8?, String.toUTF8_eq_toByteArray,
      dif_pos (String.ofList t).isValidUTF8]
    rfl
  rw [decode, encode, h]
  simp

end KeyChart
