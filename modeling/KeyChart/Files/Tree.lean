import KeyChart.Files.System

/-!
A tree of files, directories and symbolic links, with a working directory, and the place that a path
leads to in it. Main statements: an entry that is put or erased changes its own place only
(`find?_put`, `find?_erase`).
-/

namespace KeyChart

/-- Contents of files are compared byte by byte. -/
instance decidableEqContent : DecidableEq ByteArray := ByteArray.decEq

/-- What stands at a place; files and directories have permission bits. -/
inductive Entry
  | file (content : ByteArray) (mode : Nat)
  | directory (mode : Nat)
  | link (target : Text)
  deriving DecidableEq

/-- Entries by place, and the working directory. The root is a directory in every tree. -/
structure FileTree where
  entries : List (Location × Entry)
  here : Location
  deriving DecidableEq

namespace FileTree

/-- Permission bits of a new file. -/
def fileMode : Nat := 0o644

/-- Permission bits of a new directory. -/
def directoryMode : Nat := 0o755

/-- Links followed on one path before it counts as a loop. -/
def linkLimit : Nat := 40

/-- Longest name in bytes. -/
def nameLimit : Nat := 255

/-- Longest path in bytes. -/
def pathLimit : Nat := 4095

/-- The absolute path of a place is too long to be followed. -/
def isTooDeep (place : Location) : Bool := pathLimit < place.path.utf8ByteSize

/-- The absolute path of a place is too long to be followed with a slash behind it. -/
def isFull (place : Location) : Bool := pathLimit ≤ place.path.utf8ByteSize

def find? (tree : FileTree) (place : Location) : Option Entry :=
  if place = [] then some (.directory directoryMode) else tree.entries.lookup place

def erase (tree : FileTree) (place : Location) : FileTree :=
  { tree with entries := tree.entries.filter fun e => e.1 ≠ place }

def put (tree : FileTree) (place : Location) (entry : Entry) : FileTree :=
  { tree with entries := (place, entry) :: (tree.erase place).entries }

/-- The directories from the root to the place may all be searched. -/
def isSearchable (tree : FileTree) (sys : System) : Location → Bool
  | [] => sys.grants .search [] directoryMode
  | name :: parent =>
    tree.isSearchable sys parent &&
      match tree.find? (name :: parent) with
      | some (.directory mode) => sys.grants .search (name :: parent) mode
      | _ => false

/-- What a path is followed for: the entry of its last name, what that leads to if it is a link, a
file to write there, or the absolute path of the target. -/
inductive Aim
  | entry
  | target
  | writing
  | absolute
  deriving DecidableEq, Repr

/-- The names that are left ask for a directory before the next entry is looked up. -/
def asksDirectory (names : List Name) : Bool :=
  names ≠ [] &&
    match names.dropWhile fun name => name = [] || name = ['.'] with
    | [] => true
    | name :: _ => name = ['.', '.']

def isLink (tree : FileTree) (place : Location) : Bool :=
  match tree.find? place with
  | some (.link _) => true
  | _ => false

/-- Why the entry of a name in a directory cannot be looked up, with the names behind it. For an absolute path
it is looked up from the root, by the whole path up to it, and if it has to be a directory also with a slash
behind that path. -/
def lookUpFault? (tree : FileTree) (sys : System) (aim : Aim) (place : Location) (name : Name)
    (names : List Name) : Option Fault :=
  if names = [[]] && aim = .writing then some .isDirectory
  else if aim = .absolute && isTooDeep (name :: place) then some .nameTooLong
  else if aim = .absolute && !tree.isSearchable sys place then some .accessDenied
  else if nameLimit < (String.ofList name).utf8ByteSize then some .nameTooLong
  else if aim = .absolute && asksDirectory names && isFull (name :: place) &&
    !tree.isLink (name :: place) then some .nameTooLong
  else none

/-- The place reached from `place` by names. Links are followed, up to `links` of them; the last
name counts as its own entry only if that is the aim. The place reached need not hold an entry, but
the one above it is a directory. Each directory on the way is searched, for an absolute path only those where
an entry is looked up. -/
def walk (tree : FileTree) (sys : System) (aim : Aim) :
    Nat → Location → List Name → Except Fault Location
  | _, place, [] => .ok place
  | links, place, name :: names =>
    match tree.find? place with
    | none => .error .notFound
    | some (.directory mode) =>
      if name = [] then walk tree sys aim links place names
      else if aim ≠ .absolute && !sys.grants .search place mode then .error .accessDenied
      else if name = ['.'] then walk tree sys aim links place names
      else if name = ['.', '.'] then walk tree sys aim links place.parent names
      else
        match tree.lookUpFault? sys aim place name names with
        | some fault => .error fault
        | none =>
          match tree.find? (name :: place) with
          | some (.link target) =>
            if names = [] && aim = .entry then .ok (name :: place)
            else
              match links with
              | 0 => .error .linkLoop
              | links + 1 =>
                let path := Path.ofText target
                walk tree sys aim links (if path.absolute then [] else place) (path.names ++ names)
          | _ => walk tree sys aim links (name :: place) names
    | some _ => .error .notDirectory
termination_by links _ names => (links, names.length)

/-- The path that is typed, if it can be one. -/
def readPath (path : String) : Except Fault Path :=
  if path.toList.contains '\x00' then .error .nulInName
  else if path = "" then .error .notFound
  else if pathLimit < path.utf8ByteSize then .error .nameTooLong
  else .ok (Path.ofText path.toList)

/-- The place that a path leads to. -/
def follow (tree : FileTree) (sys : System) (aim : Aim) (p : Path) : Except Fault Location :=
  tree.walk sys aim linkLimit (if p.absolute then [] else tree.here) p.names

/-- The place that a typed path leads to. -/
def locate (tree : FileTree) (sys : System) (aim : Aim) (path : String) : Except Fault Location := do
  tree.follow sys aim (← readPath path)

/-- The place that a typed path leads to and the entry there. -/
def reach (tree : FileTree) (sys : System) (aim : Aim) (path : String) :
    Except Fault (Location × Entry) := do
  let place ← tree.locate sys aim path
  match tree.find? place with
  | none => .error .notFound
  | some e => .ok (place, e)

/-- The entry that a typed path leads to, links followed, and its place. -/
def entry (tree : FileTree) (sys : System) (path : String) : Except Fault (Location × Entry) :=
  tree.reach sys .target path

/-! ## Entries by place -/

theorem lookup_filter_ne (es : List (Location × Entry)) (place other : Location) :
    (es.filter fun e => e.1 ≠ place).lookup other =
      if other = place then none else es.lookup other := by
  induction es with
  | nil => simp
  | cons e es ih =>
    obtain ⟨spot, entry⟩ := e
    by_cases h : spot = place
    · subst h
      by_cases ho : other = spot
      · simpa [ho] using ih
      · have hb : (other == spot) = false := by simpa using ho
        simpa [ho, List.lookup_cons, hb] using ih
    · rw [List.filter_cons_of_pos (by simpa using h), List.lookup_cons, List.lookup_cons]
      cases hb : other == spot with
      | true =>
        have ho : other = spot := by simpa using hb
        rw [if_neg (by rw [ho]; exact h)]
      | false => exact ih

theorem find?_erase (tree : FileTree) {place : Location} (other : Location) (h : place ≠ []) :
    (tree.erase place).find? other = if other = place then none else tree.find? other := by
  simp only [find?, erase, lookup_filter_ne]
  by_cases ho : other = []
  · rw [if_pos ho, if_pos ho, if_neg (by rw [ho]; exact h.symm)]
  · simp [ho]

theorem find?_put (tree : FileTree) {place : Location} (entry : Entry) (other : Location)
    (h : place ≠ []) :
    (tree.put place entry).find? other =
      if other = place then some entry else tree.find? other := by
  simp only [find?, put, erase, List.lookup_cons, lookup_filter_ne]
  by_cases ho : other = []
  · rw [if_pos ho, if_pos ho, if_neg (by rw [ho]; exact h.symm)]
  · by_cases hp : other = place
    · simp [hp, h]
    · have hb : (other == place) = false := by simpa using hp
      simp [ho, hp, hb]

end FileTree
end KeyChart
