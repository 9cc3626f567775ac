import KeyChart.Files.Content

/-!
The calls on files that the program makes, for any world that has them. A file tree on a system is one such
world; a call that fails there leaves the tree as it is, but for a write that breaks off.
-/

namespace KeyChart

/-- The calls on files, as actions of a world. A path is resolved to the place where it leads, and the other
calls take the absolute path of a place. -/
structure Disk (m : Type → Type) where
  isFile : String → m Bool
  readText : String → ExceptT Fault m Text
  resolve : String → ExceptT Fault m Location
  metadata : Location → ExceptT Fault m Nat
  write : Location → ByteArray → ExceptT Fault m Unit
  setMode : Location → Nat → ExceptT Fault m Unit
  move : Location → Location → ExceptT Fault m Unit

namespace FileTree

/-- Where the absolute path of a place leads, if its last name is one of a link. -/
def locateAt (tree : FileTree) (sys : System) (aim : Aim) : Location → Except Fault Location
  | [] => .ok []
  | name :: parent =>
    if isTooDeep (name :: parent) then .error .nameTooLong
    else if !tree.isSearchable sys parent then .error .accessDenied
    else tree.walk sys aim linkLimit parent [name]

/-- Opens the file for writing to which the absolute path of a place leads. -/
def openAt (tree : FileTree) (sys : System) (path : Location) : Except Fault Location := do
  tree.openFile sys (← tree.locateAt sys .writing path)

/-- A file is emptied when it is opened for writing, so a write that breaks off leaves a part of the new
content in it. -/
def write (sys : System) (path : Location) (content : ByteArray) :
    ExceptT Fault (StateM FileTree) Unit := do
  let tree ← get
  let place ← tree.openAt sys path
  match sys.shortWrite? place content with
  | none => set (tree.fill place content)
  | some (count, fault) =>
    set (tree.fill place (content.extract 0 count))
    throw fault

/-- Fails if the system says so. -/
def attempt (sys : System) (call : Call) : Except Fault Unit :=
  match sys.fault? call with
  | some fault => .error fault
  | none => .ok ()

/-- The calls on the tree at hand. -/
def disk (sys : System) : Disk (StateM FileTree) where
  isFile path := do return (← get).isFile sys path
  readText path := do (← get).readText sys path
  resolve path := do return (← (← get).reach sys .absolute path).1
  metadata place := do
    attempt sys (.metadata place)
    (← get).modeAt place
  write := write sys
  setMode path mode := do
    let tree ← get
    let place ← tree.locateAt sys .target path
    attempt sys (.setMode place mode)
    set (tree.setModeAt place mode)
  move source target := do
    attempt sys (.move source target)
    set (← (← get).move source target)

end FileTree
end KeyChart
