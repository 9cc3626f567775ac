import KeyChart.Files.Disk

/-!
Replacing a file's text as a whole: the new text is written to a sibling, which gets the file's permission
bits and then its name. Links to the file go on leading to it. A link that already has the sibling's name is
written through, and takes the file's place.
-/

namespace KeyChart

/-- Which step of a replacement fails, and why. -/
inductive ReplaceError
  | unresolved (path : String) (fault : Fault)
  | noMetadata (target : String) (fault : Fault)
  | noFileName (target : String)
  | notWritten (sibling : String) (fault : Fault)
  | modeNotSet (sibling : String) (fault : Fault)
  | notMoved (target : String) (fault : Fault)
  deriving DecidableEq, Repr

namespace ReplaceError

def message : ReplaceError → String
  | unresolved path fault => s!"Failed to resolve keymap path: {path}: {fault.message}"
  | noMetadata target fault => s!"Failed to read metadata: {target}: {fault.message}"
  | noFileName target => s!"Not a file path: {target}"
  | notWritten sibling fault => s!"Failed to write to temporary file: {sibling}: {fault.message}"
  | modeNotSet sibling fault => s!"Failed to set permissions: {sibling}: {fault.message}"
  | notMoved target fault => s!"Failed to rename temporary file to: {target}: {fault.message}"

end ReplaceError

/-- What the sibling's name ends in. -/
def siblingEnding : String := ".tmp"

/-- The place of the sibling of the file `name` in the directory `parent`. -/
def siblingOf (name : Name) (parent : Location) : Location :=
  (name ++ siblingEnding.toList) :: parent

namespace Disk

variable {m : Type → Type} [Monad m]

/-- Replaces the text of the file at a place, by way of its sibling. -/
def replaceAt (disk : Disk m) (name : Name) (parent : Location) (content : ByteArray) (mode : Nat) :
    ExceptT ReplaceError m Unit := do
  let target : Location := name :: parent
  let sibling := siblingOf name parent
  (disk.write sibling content).adapt (.notWritten sibling.path)
  (disk.setMode sibling mode).adapt (.modeNotSet sibling.path)
  (disk.move sibling target).adapt (.notMoved target.path)

/-- Replaces the text of the file that a path leads to. -/
def replace (disk : Disk m) (path : String) (content : Text) : ExceptT ReplaceError m Unit := do
  let target ← (disk.resolve path).adapt (.unresolved path)
  let mode ← (disk.metadata target).adapt (.noMetadata target.path)
  match target with
  | [] => throw (.noFileName target.path)
  | name :: parent => disk.replaceAt name parent (encode content) mode

end Disk
end KeyChart
