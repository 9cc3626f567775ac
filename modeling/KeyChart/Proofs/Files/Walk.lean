import KeyChart.Files.Disk

/-!
Walks through a tree. A walk looks at directories and links only. Main statements: trees that differ in
files alone are walked alike (`walk_congr`), a file that has been written is found on the way on which it was
to be written (`Fills.walk_target_of_writing`), a path leads to the same place by itself and as an absolute
one (`walk_target_of_absolute`), and a link to itself leads nowhere (`LooksUp.walk_of_selfLink`).
-/

namespace KeyChart
namespace FileTree

/-! ## Trees that are walked alike -/

/-- The second tree has files where the first one may have nothing. Else they differ at most in what files
hold and in their permission bits. -/
def Fills (tree tree' : FileTree) : Prop :=
  ∀ place, tree'.find? place = tree.find? place ∨
    (∃ content mode, tree'.find? place = some (.file content mode)) ∧
      (tree.find? place = none ∨ ∃ content mode, tree.find? place = some (.file content mode))

/-- The trees differ at most in what files hold and in their permission bits. -/
def SameWays (tree tree' : FileTree) : Prop :=
  ∀ place, tree'.find? place = tree.find? place ∨
    ∃ content mode content' mode', tree.find? place = some (.file content mode) ∧
      tree'.find? place = some (.file content' mode')

theorem SameWays.fills {tree tree' : FileTree} (h : SameWays tree tree') : Fills tree tree' := by
  intro place
  rcases h place with heq | ⟨content, mode, content', mode', hold, hnew⟩
  · exact Or.inl heq
  · exact Or.inr ⟨⟨content', mode', hnew⟩, Or.inr ⟨content, mode, hold⟩⟩

namespace Fills

variable {tree tree' : FileTree}

theorem directory (h : Fills tree tree') {place : Location} {mode : Nat}
    (hdir : tree.find? place = some (.directory mode)) :
    tree'.find? place = some (.directory mode) := by
  rcases h place with heq | ⟨-, hnone | ⟨_, _, hold⟩⟩
  · rw [heq, hdir]
  · rw [hnone] at hdir
    cases hdir
  · rw [hold] at hdir
    cases hdir

theorem isSearchable (h : Fills tree tree') (sys : System) (place : Location) :
    tree'.isSearchable sys place = tree.isSearchable sys place := by
  induction place with
  | nil => rfl
  | cons name parent ih =>
    rw [FileTree.isSearchable, FileTree.isSearchable, ih]
    rcases h (name :: parent) with heq | ⟨⟨_, _, hnew⟩, hnone | ⟨_, _, hold⟩⟩
    · rw [heq]
    · rw [hnew, hnone]
    · rw [hnew, hold]

theorem isLink (h : Fills tree tree') (place : Location) : tree'.isLink place = tree.isLink place := by
  rw [FileTree.isLink, FileTree.isLink]
  rcases h place with heq | ⟨⟨_, _, hnew⟩, hnone | ⟨_, _, hold⟩⟩
  · rw [heq]
  · rw [hnew, hnone]
  · rw [hnew, hold]

theorem lookUpFault? (h : Fills tree tree') (sys : System) (aim : Aim) (place : Location) (name : Name)
    (names : List Name) :
    tree'.lookUpFault? sys aim place name names = tree.lookUpFault? sys aim place name names := by
  rw [FileTree.lookUpFault?, FileTree.lookUpFault?, h.isSearchable, h.isLink]

theorem link (h : Fills tree tree') {place : Location} {target : Text}
    (hlink : tree.find? place = some (.link target)) : tree'.find? place = some (.link target) := by
  rcases h place with heq | ⟨-, hnone | ⟨_, _, hold⟩⟩
  · rw [heq, hlink]
  · rw [hnone] at hlink
    cases hlink
  · rw [hold] at hlink
    cases hlink

theorem notLink (h : Fills tree tree') {place : Location}
    (hlink : ∀ target, tree.find? place ≠ some (.link target)) (target : Text) :
    tree'.find? place ≠ some (.link target) := by
  rcases h place with heq | ⟨⟨_, _, hnew⟩, -⟩
  · rw [heq]
    exact hlink target
  · rw [hnew]
    simp

end Fills

/-- What is neither a directory nor nothing stays so. -/
theorem SameWays.notDirectory {tree tree' : FileTree} (h : SameWays tree tree') {place : Location}
    {e : Entry} (hfind : tree.find? place = some e) (hdir : ∀ mode, e ≠ .directory mode) :
    ∃ e', tree'.find? place = some e' ∧ ∀ mode, e' ≠ .directory mode := by
  rcases h place with heq | ⟨_, _, content, mode, _, hnew⟩
  · exact ⟨e, heq.trans hfind, hdir⟩
  · exact ⟨.file content mode, hnew, by simp⟩

theorem walk_congr {tree tree' : FileTree} (h : SameWays tree tree') (sys : System) (aim : Aim)
    (links : Nat) (place : Location) (names : List Name) :
    tree'.walk sys aim links place names = tree.walk sys aim links place names := by
  have hfills := h.fills
  -- each case of the walk is decided by what the place and the entry of the name are
  fun_induction walk tree sys aim links place names with
  | case1 links place => rw [walk]
  | case2 links place name names hnone =>
    have hnone' : tree'.find? place = none := by
      rcases h place with heq | ⟨_, _, _, _, hold, -⟩
      · rw [heq, hnone]
      · rw [hold] at hnone
        cases hnone
    rw [walk, hnone']
  | case3 links place names mode hdir ih =>
    rw [walk, hfills.directory hdir]
    simp only [if_true, ih]
  | case4 links place name names mode hdir hempty hdenied =>
    rw [walk, hfills.directory hdir]
    simp only [hempty, hdenied, if_true, if_false]
  | case5 links place names mode hdir hgranted hempty ih =>
    rw [walk, hfills.directory hdir]
    simp only [hempty, hgranted, if_true, if_false, Bool.false_eq_true, ih]
  | case6 links place names mode hdir hgranted hempty hdot ih =>
    rw [walk, hfills.directory hdir]
    simp only [hempty, hgranted, hdot, if_true, if_false, Bool.false_eq_true, ih]
  | case7 links place name names mode hdir hempty hgranted hdot hup fault hfault =>
    rw [walk, hfills.directory hdir]
    simp only [hempty, hgranted, hdot, hup, if_false, Bool.false_eq_true, hfills.lookUpFault?, hfault]
  | case8 links place name names mode hdir hempty hgranted hdot hup hfault target hlink hlast =>
    rw [walk, hfills.directory hdir]
    simp only [hempty, hgranted, hdot, hup, if_false, Bool.false_eq_true, hfills.lookUpFault?, hfault,
      hfills.link hlink, hlast, if_true]
  | case9 place name names mode hdir hempty hgranted hdot hup hfault target hlink hlast =>
    rw [walk, hfills.directory hdir]
    simp only [hempty, hgranted, hdot, hup, if_false, Bool.false_eq_true, hfills.lookUpFault?, hfault,
      hfills.link hlink, hlast]
  | case10 place name names mode hdir hempty hgranted hdot hup hfault target hlink hlast links path ih =>
    rw [walk, hfills.directory hdir]
    simp only [hempty, hgranted, hdot, hup, if_false, Bool.false_eq_true, hfills.lookUpFault?, hfault,
      hfills.link hlink, hlast]
    exact ih
  | case11 links place name names mode hdir hempty hgranted hdot hup hfault hlink ih =>
    have hlink' := hfills.notLink hlink
    rw [walk, hfills.directory hdir]
    simp only [hempty, hgranted, hdot, hup, if_false, Bool.false_eq_true, hfills.lookUpFault?, hfault, ih]
  | case12 links place name names e hnot hfind =>
    obtain ⟨e', hfind', hnot'⟩ := h.notDirectory hfind hnot
    rw [walk, hfind']
    simp

/-! ## The size of an absolute path -/

/-- The bytes of the absolute path of a place, that of the root apart. -/
def pathSize : Location → Nat
  | [] => 0
  | name :: parent => pathSize parent + (1 + (String.ofList name).utf8ByteSize)

theorem utf8ByteSize_path {l : Location} (h : l ≠ []) : l.path.utf8ByteSize = pathSize l := by
  have hslash : "/".utf8ByteSize = 1 := by decide
  rw [Location.path, if_neg h]
  clear h
  induction l with
  | nil => rfl
  | cons name parent ih =>
    rw [List.reverse_cons, List.map_append, String.join_append, String.utf8ByteSize_append, ih, pathSize,
      List.map_singleton, String.join_cons, String.utf8ByteSize_append, String.utf8ByteSize_append, hslash]
    rfl

/-! ## Names of entries -/

/-- The name stands for an entry of its directory. -/
def IsEntryName (name : Name) : Prop := name ≠ [] ∧ name ≠ ['.'] ∧ name ≠ ['.', '.']

instance (name : Name) : Decidable (IsEntryName name) := inferInstanceAs (Decidable (_ ∧ _ ∧ _))

/-! ## The steps of a walk -/

/-- A walk at the place may go on with any name. -/
def MayPass (tree : FileTree) (sys : System) (aim : Aim) (place : Location) : Prop :=
  ∃ mode, tree.find? place = some (.directory mode) ∧
    (aim ≠ .absolute && !sys.grants .search place mode) = false

/-- A walk at the place looks up the entry of the name there. -/
structure LooksUp (tree : FileTree) (sys : System) (aim : Aim) (place : Location) (name : Name)
    (names : List Name) : Prop where
  directory : MayPass tree sys aim place
  entryName : IsEntryName name
  fault : tree.lookUpFault? sys aim place name names = none

section Steps

variable {tree : FileTree} {sys : System} {aim : Aim} {place : Location} {name : Name} {names : List Name}

theorem walk_slash {mode : Nat} (hdir : tree.find? place = some (.directory mode)) (links : Nat) :
    tree.walk sys aim links place ([] :: names) = tree.walk sys aim links place names := by
  rw [walk, hdir]
  simp only [if_true]

theorem MayPass.walk_dot (h : MayPass tree sys aim place) (links : Nat) :
    tree.walk sys aim links place (['.'] :: names) = tree.walk sys aim links place names := by
  obtain ⟨mode, hdir, hgranted⟩ := h
  rw [walk, hdir]
  simp only [hgranted, reduceCtorEq, if_true, if_false, Bool.false_eq_true]

theorem MayPass.walk_up (h : MayPass tree sys aim place) (links : Nat) :
    tree.walk sys aim links place (['.', '.'] :: names) = tree.walk sys aim links place.parent names := by
  obtain ⟨mode, hdir, hgranted⟩ := h
  have hdot : ¬ (['.', '.'] : Name) = ['.'] := by decide
  rw [walk, hdir]
  simp only [hgranted, hdot, reduceCtorEq, if_true, if_false, Bool.false_eq_true]

theorem walk_of_fault (hpass : MayPass tree sys aim place) (hname : IsEntryName name) {fault : Fault}
    (hfault : tree.lookUpFault? sys aim place name names = some fault) (links : Nat) :
    tree.walk sys aim links place (name :: names) = .error fault := by
  obtain ⟨mode, hdir, hgranted⟩ := hpass
  obtain ⟨hempty, hdot, hup⟩ := hname
  rw [walk, hdir]
  simp only [hempty, hgranted, hdot, hup, if_false, Bool.false_eq_true, hfault]

/-- A link is followed unless its own entry is wanted. -/
theorem LooksUp.walk_link (h : LooksUp tree sys aim place name names) {target : Text}
    (hfind : tree.find? (name :: place) = some (.link target)) (links : Nat)
    (hlast : names ≠ [] ∨ aim ≠ .entry) :
    tree.walk sys aim (links + 1) place (name :: names) =
      tree.walk sys aim links (if (Path.ofText target).absolute then [] else place)
        ((Path.ofText target).names ++ names) := by
  obtain ⟨mode, hdir, hgranted⟩ := h.directory
  obtain ⟨hempty, hdot, hup⟩ := h.entryName
  have hnot : (decide (names = []) && decide (aim = .entry)) = false := by
    rcases hlast with hne | hne <;> simp [hne]
  rw [walk, hdir]
  simp only [hempty, hgranted, hdot, hup, if_false, Bool.false_eq_true, h.fault, hfind, hnot]

theorem LooksUp.walk_loop (h : LooksUp tree sys aim place name names) {target : Text}
    (hfind : tree.find? (name :: place) = some (.link target)) (hlast : names ≠ [] ∨ aim ≠ .entry) :
    tree.walk sys aim 0 place (name :: names) = .error .linkLoop := by
  obtain ⟨mode, hdir, hgranted⟩ := h.directory
  obtain ⟨hempty, hdot, hup⟩ := h.entryName
  have hnot : (decide (names = []) && decide (aim = .entry)) = false := by
    rcases hlast with hne | hne <;> simp [hne]
  rw [walk, hdir]
  simp only [hempty, hgranted, hdot, hup, if_false, Bool.false_eq_true, h.fault, hfind, hnot]

/-- Anything else is gone into. -/
theorem LooksUp.walk_into (h : LooksUp tree sys aim place name names)
    (hlink : ∀ target, tree.find? (name :: place) ≠ some (.link target)) (links : Nat) :
    tree.walk sys aim links place (name :: names) = tree.walk sys aim links (name :: place) names := by
  obtain ⟨mode, hdir, hgranted⟩ := h.directory
  obtain ⟨hempty, hdot, hup⟩ := h.entryName
  rw [walk, hdir]
  simp only [hempty, hgranted, hdot, hup, if_false, Bool.false_eq_true, h.fault]

/-! ## What a walk that succeeds has passed -/

theorem mayPass_of_walk {links : Nat} {found : Location} (hname : name ≠ [])
    (h : tree.walk sys aim links place (name :: names) = .ok found) : MayPass tree sys aim place := by
  rw [walk] at h
  split at h
  · cases h
  · next mode hdir =>
    rw [if_neg hname] at h
    split at h
    · cases h
    · next hgranted => exact ⟨mode, hdir, Bool.not_eq_true _ ▸ hgranted⟩
  · cases h

theorem looksUp_of_walk {links : Nat} {found : Location} (hname : IsEntryName name)
    (h : tree.walk sys aim links place (name :: names) = .ok found) :
    LooksUp tree sys aim place name names := by
  have hpass := mayPass_of_walk hname.1 h
  obtain ⟨mode, hdir, hgranted⟩ := hpass
  obtain ⟨hempty, hdot, hup⟩ := hname
  rw [walk, hdir] at h
  simp only [hempty, hgranted, hdot, hup, if_false, Bool.false_eq_true] at h
  split at h
  · cases h
  · next hfault => exact ⟨⟨mode, hdir, hgranted⟩, ⟨hempty, hdot, hup⟩, hfault⟩

/-- Following a path for its target meets the fewest faults. -/
theorem lookUpFault?_target (h : tree.lookUpFault? sys aim place name names = none) :
    tree.lookUpFault? sys .target place name names = none := by
  have hshort : ¬ nameLimit < (String.ofList name).utf8ByteSize := by
    intro hlong
    rw [lookUpFault?, if_pos hlong] at h
    split at h
    · cases h
    · split at h
      · cases h
      · split at h
        · cases h
        · cases h
  rw [lookUpFault?]
  simp [hshort]

/-- A name that is not too long is looked up, for an absolute path if that is not full. -/
theorem lookUpFault?_eq_none (hlast : aim ≠ .writing ∨ names ≠ [[]])
    (hshort : (String.ofList name).utf8ByteSize ≤ nameLimit)
    (habsolute : aim = .absolute →
      tree.isSearchable sys place = true ∧ isFull (name :: place) = false) :
    tree.lookUpFault? sys aim place name names = none := by
  have hnot : (decide (names = [[]]) && decide (aim = .writing)) = false := by
    rcases hlast with hne | hne <;> simp [hne]
  rw [lookUpFault?, hnot, if_neg Bool.false_ne_true]
  by_cases haim : aim = .absolute
  · obtain ⟨hsearchable, hfull⟩ := habsolute haim
    have hdeep : isTooDeep (name :: place) = false := by
      rw [isFull, decide_eq_false_iff_not] at hfull
      rw [isTooDeep, decide_eq_false_iff_not]
      omega
    simp [hdeep, hsearchable, hfull, Nat.not_lt.2 hshort]
  · simp [haim, Nat.not_lt.2 hshort]

end Steps

/-! ## Where walks lead -/

section Leads

variable {tree tree' : FileTree} {sys : System} {place found : Location} {names : List Name} {links : Nat}

/-- A file that has been written is found on the way on which it was to be written. -/
theorem Fills.walk_target_of_writing (h : Fills tree tree')
    (hwalk : tree.walk sys .writing links place names = .ok found) :
    tree'.walk sys .target links place names = .ok found := by
  -- whatever the aim is, a directory is searched, unless it is an absolute path
  have pass : ∀ {place mode}, tree.find? place = some (.directory mode) →
      ¬ (decide (Aim.writing ≠ .absolute) && !sys.grants .search place mode) = true →
      MayPass tree' sys .target place := by
    intro place mode hdir hgranted
    exact ⟨mode, h.directory hdir, by simpa using hgranted⟩
  have fault : ∀ {place name names}, tree.lookUpFault? sys .writing place name names = none →
      tree'.lookUpFault? sys .target place name names = none := by
    intro place name names hnone
    rw [h.lookUpFault?]
    exact lookUpFault?_target hnone
  fun_induction walk tree sys .writing links place names with
  | case1 links place => rwa [walk]
  | case3 links place names mode hdir ih =>
    rw [walk_slash (h.directory hdir)]
    exact ih hwalk
  | case5 links place names mode hdir hgranted hempty ih =>
    rw [(pass hdir hgranted).walk_dot]
    exact ih hwalk
  | case6 links place names mode hdir hgranted hempty hdot ih =>
    rw [(pass hdir hgranted).walk_up]
    exact ih hwalk
  | case10 place name names mode hdir hempty hgranted hdot hup hfault target hlink hlast links path ih =>
    have hlooks : LooksUp tree' sys .target place name names :=
      ⟨pass hdir hgranted, ⟨hempty, hdot, hup⟩, fault hfault⟩
    rw [hlooks.walk_link (h.link hlink) links (Or.inr (by decide))]
    exact ih hwalk
  | case11 links place name names mode hdir hempty hgranted hdot hup hfault hlink ih =>
    have hlooks : LooksUp tree' sys .target place name names :=
      ⟨pass hdir hgranted, ⟨hempty, hdot, hup⟩, fault hfault⟩
    rw [hlooks.walk_into (h.notLink hlink)]
    exact ih hwalk
  | case8 links place name names mode hdir hempty hgranted hdot hup hfault target hlink hlast =>
    simp at hlast
  | _ => cases hwalk

/-- An absolute path is that of the place to which the path itself leads. -/
theorem walk_target_of_absolute {found' : Location}
    (habsolute : tree.walk sys .absolute links place names = .ok found)
    (hwalk : tree.walk sys .target links place names = .ok found') : found' = found := by
  fun_induction walk tree sys .absolute links place names with
  | case1 links place =>
    rw [walk] at hwalk
    exact Except.ok.inj (hwalk.symm.trans habsolute)
  | case3 links place names mode hdir ih =>
    rw [walk_slash hdir] at hwalk
    exact ih habsolute hwalk
  | case5 links place names mode hdir hgranted hempty ih =>
    rw [(mayPass_of_walk hempty hwalk).walk_dot] at hwalk
    exact ih habsolute hwalk
  | case6 links place names mode hdir hgranted hempty hdot ih =>
    rw [(mayPass_of_walk hempty hwalk).walk_up] at hwalk
    exact ih habsolute hwalk
  | case10 place name names mode hdir hempty hgranted hdot hup hfault target hlink hlast links path ih =>
    rw [(looksUp_of_walk ⟨hempty, hdot, hup⟩ hwalk).walk_link hlink links (Or.inr (by decide))] at hwalk
    exact ih habsolute hwalk
  | case11 links place name names mode hdir hempty hgranted hdot hup hfault hlink ih =>
    rw [(looksUp_of_walk ⟨hempty, hdot, hup⟩ hwalk).walk_into hlink] at hwalk
    exact ih habsolute hwalk
  | case8 links place name names mode hdir hempty hgranted hdot hup hfault target hlink hlast =>
    simp at hlast
  | _ => cases habsolute

end Leads

theorem reach_eq_ok_iff {tree : FileTree} {sys : System} {aim : Aim} {path : String}
    {found : Location × Entry} :
    tree.reach sys aim path = .ok found ↔ ∃ p, readPath path = .ok p ∧
      tree.walk sys aim linkLimit (if p.absolute then [] else tree.here) p.names = .ok found.1 ∧
      tree.find? found.1 = some found.2 := by
  obtain ⟨place, e⟩ := found
  simp only [reach, locate, follow]
  cases hpath : readPath path with
  | error fault => simp [bind, Except.bind]
  | ok p =>
    cases hwalk : tree.walk sys aim linkLimit (if p.absolute then [] else tree.here) p.names with
    | error fault => simp [bind, Except.bind, hwalk]
    | ok place' =>
      simp only [bind, Except.bind, hwalk, Except.ok.injEq, exists_eq_left']
      split
      · next hnone =>
        simp only [reduceCtorEq, false_iff, not_and]
        rintro rfl
        simp [hnone]
      · next e' hfind =>
        simp only [Except.ok.injEq, Prod.mk.injEq]
        constructor
        · rintro ⟨rfl, rfl⟩
          exact ⟨rfl, hfind⟩
        · rintro ⟨rfl, hfound⟩
          exact ⟨rfl, Option.some.inj (hfind.symm.trans hfound)⟩

theorem entry_of_reach_absolute {tree : FileTree} {sys : System} {path : String}
    {found found' : Location × Entry} (habsolute : tree.reach sys .absolute path = .ok found)
    (hentry : tree.entry sys path = .ok found') : found' = found := by
  obtain ⟨p, hpath, hwalk, hfind⟩ := reach_eq_ok_iff.1 habsolute
  obtain ⟨p', hpath', hwalk', hfind'⟩ := reach_eq_ok_iff.1 hentry
  obtain rfl := Except.ok.inj (hpath.symm.trans hpath')
  have hplace := walk_target_of_absolute hwalk hwalk'
  rw [hplace, hfind] at hfind'
  exact Prod.ext hplace (Option.some.inj hfind').symm

/-! ## The last name of a path -/

section LastName

variable {tree : FileTree} {sys : System} {aim : Aim} {place found : Location} {name : Name} {links : Nat}

/-- Where there is no entry, the walk ends at the place for one. -/
theorem walk_free (hname : IsEntryName name) (hfree : tree.find? (name :: place) = none)
    (h : tree.walk sys aim links place [name] = .ok found) : found = name :: place := by
  rw [(looksUp_of_walk hname h).walk_into (by simp [hfree]), walk] at h
  exact (Except.ok.inj h).symm

theorem LooksUp.walk_of_notLink (h : LooksUp tree sys aim place name [])
    (hlink : ∀ target, tree.find? (name :: place) ≠ some (.link target)) (links : Nat) :
    tree.walk sys aim links place [name] = .ok (name :: place) := by
  rw [h.walk_into hlink, walk]

/-- A link to itself is followed until no more links are. -/
theorem LooksUp.walk_of_selfLink (h : LooksUp tree sys aim place name []) {target : Text}
    (hlink : tree.find? (name :: place) = some (.link target))
    (hself : Path.ofText target = ⟨false, [name]⟩) (haim : aim ≠ .entry) (links : Nat) :
    tree.walk sys aim links place [name] = .error .linkLoop := by
  induction links with
  | zero => exact h.walk_loop hlink (Or.inr haim)
  | succ links ih =>
    rw [h.walk_link hlink links (Or.inr haim), hself]
    exact ih

end LastName

end FileTree
end KeyChart
