import KeyChart.Files.Replace
import KeyChart.Proofs.Files.Calls

/-!
What a replacement of a file's text leaves, also where one of its steps fails (`run_replaceAt`). The sibling
is written through if it is a link, and what stands under its name takes the place of the file. Main
statements: every entry after a replacement (`Replaced.find?_eq`), the exact condition under which the
file's text is all that changes (`rewritesOnly_iff`), and that without an entry under the sibling's name the
file is never left half written, whichever step fails (`find?_run_replaceAt`).
-/

namespace KeyChart
namespace FileTree

/-- Of all entries only the file that the path leads to is another, and only its text. Every path leads
where it led, through the same links. -/
structure RewritesOnly (sys : System) (tree tree' : FileTree) (path : String) (t : Text) : Prop where
  reads : tree'.readText sys path = .ok t
  here : tree'.here = tree.here
  walks : ∀ sys' aim links place names,
    tree'.walk sys' aim links place names = tree.walk sys' aim links place names
  others : ∃ place content content' mode, tree.entry sys path = .ok (place, .file content mode) ∧
    tree'.entry sys path = .ok (place, .file content' mode) ∧
    ∀ other, other ≠ place → tree'.find? other = tree.find? other

/-- The sibling of the file can be opened for writing, and then it is the file at this place that is
written. -/
structure SiblingOpens (sys : System) (tree : FileTree) (name : Name) (parent place : Location) :
    Prop where
  shallow : isTooDeep (siblingOf name parent) = false
  searchable : tree.isSearchable sys parent = true
  leads : tree.walk sys .writing linkLimit parent [name ++ siblingEnding.toList] = .ok place
  granted : (tree.find? place = none ∧ tree.mayAdd sys place.parent = true) ∨
    ∃ old mode, tree.find? place = some (.file old mode) ∧ sys.grants .write place mode = true

/-- The content can be written to the sibling of the file as a whole. -/
def SiblingWritable (sys : System) (tree : FileTree) (name : Name) (parent : Location)
    (content : ByteArray) : Prop :=
  ∃ place, SiblingOpens sys tree name parent place ∧ sys.shortWrite? place content = none

/-- The path has an absolute one, of a file to whose sibling the content can be written. -/
def Replaceable (sys : System) (tree : FileTree) (path : String) (content : ByteArray) : Prop :=
  ∃ name parent old mode, tree.reach sys .absolute path = .ok (name :: parent, .file old mode) ∧
    SiblingWritable sys tree name parent content

/-- The writing of the content to the sibling of the file has broken off: the file that has been opened holds
the part before, and there is no other change. -/
def SiblingHoldsPart (sys : System) (tree tree' : FileTree) (name : Name) (parent : Location)
    (content : ByteArray) : Prop :=
  ∃ place count fault, SiblingOpens sys tree name parent place ∧
    sys.shortWrite? place content = some (count, fault) ∧ tree'.here = tree.here ∧
    ∀ other, tree'.find? other =
      if other = place then some (.file (content.extract 0 count) (tree.modeFor place))
      else tree.find? other

/-- The path has an absolute one, of a file to whose sibling a part of the content has been written. -/
def WritesPart (sys : System) (tree tree' : FileTree) (path : String) (content : ByteArray) : Prop :=
  ∃ name parent old mode, tree.reach sys .absolute path = .ok (name :: parent, .file old mode) ∧
    SiblingHoldsPart sys tree tree' name parent content

/-! ## The sibling -/

theorem length_siblingEnding : siblingEnding.toList.length = 4 := by decide

theorem siblingOf_ne (name : Name) (parent : Location) : siblingOf name parent ≠ name :: parent := by
  intro h
  have hlength := congrArg List.length (List.cons.inj h).1
  rw [List.length_append, length_siblingEnding] at hlength
  omega

theorem isEntryName_sibling (name : Name) : IsEntryName (name ++ siblingEnding.toList) := by
  have hne : ∀ t : Name, t.length < 4 → name ++ siblingEnding.toList ≠ t := by
    rintro t ht rfl
    rw [List.length_append, length_siblingEnding] at ht
    omega
  exact ⟨hne [] (by decide), hne ['.'] (by decide), hne ['.', '.'] (by decide)⟩

section Sibling

variable {sys : System} {tree : FileTree} {name : Name} {parent place : Location}

theorem openAt_siblingOf_eq_ok_iff :
    tree.openAt sys (siblingOf name parent) = .ok place ↔ SiblingOpens sys tree name parent place := by
  rw [openAt, siblingOf, locateAt]
  constructor
  · intro h
    split at h
    · cases h
    · next hshallow =>
      split at h
      · cases h
      · next hsearchable =>
        cases hwalk : tree.walk sys .writing linkLimit parent [name ++ siblingEnding.toList] with
        | error fault =>
          rw [hwalk] at h
          cases h
        | ok found =>
          rw [hwalk] at h
          obtain ⟨rfl, hgranted⟩ := openFile_eq_ok_iff.1 h
          exact ⟨eq_false_of_ne_true hshallow, by simpa using hsearchable, hwalk, hgranted⟩
  · intro h
    have hshallow := h.shallow
    rw [siblingOf] at hshallow
    simp only [hshallow, h.searchable, h.leads, Bool.not_true, Bool.false_eq_true, if_false]
    exact openFile_eq_ok_iff.2 ⟨rfl, h.granted⟩

end Sibling

/-! ## A replacement as a whole -/

section Replacement

variable {sys : System} {tree tree' : FileTree} {name : Name} {parent place : Location}
  {content : ByteArray} {mode : Nat}

theorem SiblingOpens.place_ne_nil (h : SiblingOpens sys tree name parent place) : place ≠ [] := by
  rintro rfl
  rcases h.granted with ⟨hnone, -⟩ | ⟨_, _, hfile, -⟩
  · cases hnone
  · cases hfile

theorem SiblingOpens.find?_fill (h : SiblingOpens sys tree name parent place) (content : ByteArray)
    (other : Location) :
    (tree.fill place content).find? other =
      if other = place then some (.file content (tree.modeFor place)) else tree.find? other :=
  FileTree.find?_fill h.place_ne_nil content other

theorem SiblingOpens.fills (h : SiblingOpens sys tree name parent place) (content : ByteArray) :
    Fills tree (tree.fill place content) := by
  intro other
  rw [h.find?_fill]
  by_cases hother : other = place
  · refine Or.inr ⟨⟨_, _, if_pos hother⟩, ?_⟩
    rw [hother]
    rcases h.granted with ⟨hnone, -⟩ | ⟨old, mode, hfile, -⟩
    · exact Or.inl hnone
    · exact Or.inr ⟨old, mode, hfile⟩
  · exact Or.inl (if_neg hother)

/-- The sibling's path leads to the file that has been written. -/
theorem SiblingOpens.locateAt_fill (h : SiblingOpens sys tree name parent place) (content : ByteArray) :
    (tree.fill place content).locateAt sys .target (siblingOf name parent) = .ok place := by
  have hfills := h.fills content
  have hshallow := h.shallow
  have hsearchable := h.searchable
  rw [← hfills.isSearchable] at hsearchable
  rw [siblingOf] at hshallow
  rw [siblingOf, locateAt]
  simp only [hshallow, hsearchable, Bool.not_true, Bool.false_eq_true, if_false]
  exact hfills.walk_target_of_writing h.leads

/-- The file is another one by way of its sibling: what is written at the sibling's place, or a link there
that has been followed, stands in its place. -/
def Replaced (sys : System) (tree tree' : FileTree) (name : Name) (parent : Location)
    (content : ByteArray) (mode : Nat) : Prop :=
  ∃ place, SiblingOpens sys tree name parent place ∧
    ((tree.fill place content).setModeAt place mode).move (siblingOf name parent) (name :: parent) =
      .ok tree'

theorem run_replaceAt_of_error {fault : Fault}
    (h : tree.openAt sys (siblingOf name parent) = .error fault) :
    ((disk sys).replaceAt name parent content mode).run.run tree =
      (.error (.notWritten (siblingOf name parent).path fault), tree) := by
  rw [Disk.replaceAt]
  simp only [run_bind, run_adapt, run_write, h]
  rfl

/-- What a replacement answers and leaves once the sibling is open, step by step. -/
theorem run_replaceAt (h : SiblingOpens sys tree name parent place) :
    ((disk sys).replaceAt name parent content mode).run.run tree =
      match sys.shortWrite? place content with
      | some (count, fault) =>
        (.error (.notWritten (siblingOf name parent).path fault),
          tree.fill place (content.extract 0 count))
      | none =>
        match sys.fault? (.setMode place mode) with
        | some fault =>
          (.error (.modeNotSet (siblingOf name parent).path fault), tree.fill place content)
        | none =>
          let left := (tree.fill place content).setModeAt place mode
          match sys.fault? (.move (siblingOf name parent) (name :: parent)) with
          | some fault => (.error (.notMoved (Location.path (name :: parent)) fault), left)
          | none =>
            match left.move (siblingOf name parent) (name :: parent) with
            | .error fault => (.error (.notMoved (Location.path (name :: parent)) fault), left)
            | .ok moved => (.ok (), moved) := by
  rw [Disk.replaceAt]
  simp only [run_bind, run_adapt, run_write, openAt_siblingOf_eq_ok_iff.2 h]
  cases sys.shortWrite? place content with
  | some short => rfl
  | none =>
    dsimp only [Except.mapError]
    rw [run_setMode, h.locateAt_fill]
    dsimp only
    cases sys.fault? (.setMode place mode) with
    | some fault => rfl
    | none =>
      dsimp only
      rw [run_move]
      cases sys.fault? (.move (siblingOf name parent) (name :: parent)) with
      | some fault => rfl
      | none =>
        dsimp only
        cases ((tree.fill place content).setModeAt place mode).move (siblingOf name parent)
            (name :: parent) with
        | error fault => rfl
        | ok moved => rfl

theorem replaced_of_run
    (h : ((disk sys).replaceAt name parent content mode).run.run tree = (.ok (), tree')) :
    Replaced sys tree tree' name parent content mode := by
  cases hopen : tree.openAt sys (siblingOf name parent) with
  | error fault =>
    rw [run_replaceAt_of_error hopen] at h
    cases h
  | ok place =>
    have hopens := openAt_siblingOf_eq_ok_iff.1 hopen
    refine ⟨place, hopens, ?_⟩
    rw [run_replaceAt hopens] at h
    split at h
    · cases h
    · split at h
      · cases h
      · dsimp only at h
        split at h
        · cases h
        · split at h
          · cases h
          · next moved hmove =>
            rw [hmove, (Prod.mk.inj h).2]

/-- The tree before the last step. -/
theorem SiblingOpens.find?_left (h : SiblingOpens sys tree name parent place) (content : ByteArray)
    (mode : Nat) (other : Location) :
    ((tree.fill place content).setModeAt place mode).find? other =
      if other = place then some (.file content mode) else tree.find? other := by
  have hfile : (tree.fill place content).find? place = some (.file content (tree.modeFor place)) := by
    rw [h.find?_fill, if_pos rfl]
  rw [find?_setModeAt h.place_ne_nil hfile, h.find?_fill]
  split
  · rfl
  · rfl

/-- The file that is opened has the sibling's name, or a link has it. -/
theorem SiblingOpens.place_eq_or_link (h : SiblingOpens sys tree name parent place) :
    place = siblingOf name parent ∨ ∃ target, tree.find? (siblingOf name parent) = some (.link target) := by
  by_cases hlink : ∃ target, tree.find? (siblingOf name parent) = some (.link target)
  · exact Or.inr hlink
  · left
    have hwalk := h.leads
    rw [(looksUp_of_walk (isEntryName_sibling name) hwalk).walk_of_notLink
      fun target htarget => hlink ⟨target, htarget⟩] at hwalk
    exact (Except.ok.inj hwalk).symm

/-- The entry that is moved. -/
theorem SiblingOpens.exists_entry (h : SiblingOpens sys tree name parent place) (content : ByteArray)
    (mode : Nat) : ∃ e, ((tree.fill place content).setModeAt place mode).find? (siblingOf name parent) =
      some e ∧ (∀ mode, e ≠ .directory mode) := by
  simp only [h.find?_left]
  rcases h.place_eq_or_link with rfl | ⟨target, hlink⟩
  · exact ⟨_, if_pos rfl, by simp⟩
  · by_cases hplace : siblingOf name parent = place
    · exact ⟨_, if_pos hplace, by simp⟩
    · rw [if_neg hplace]
      exact ⟨_, hlink, by simp⟩

/-- Nothing but the calls can fail once the sibling is open. -/
theorem SiblingOpens.exists_move (h : SiblingOpens sys tree name parent place)
    (hfile : ∀ mode, tree.find? (name :: parent) ≠ some (.directory mode)) (content : ByteArray)
    (mode : Nat) : ∃ moved, ((tree.fill place content).setModeAt place mode).move
      (siblingOf name parent) (name :: parent) = .ok moved := by
  obtain ⟨e, hsource, hfrom⟩ := h.exists_entry content mode
  refine ⟨_, move_eq_ok hsource hfrom fun mode' => ?_⟩
  rw [h.find?_left]
  split
  · simp
  · exact hfile mode'

namespace Replaced

theorem here (h : Replaced sys tree tree' name parent content mode) : tree'.here = tree.here := by
  obtain ⟨place, hopens, hmove⟩ := h
  obtain ⟨e, -, rfl⟩ := eq_of_move hmove
  exact here_setModeAt _ _ _

/-- The text is written where the sibling's name leads, and what then stands under that name is moved
to the file. -/
theorem find?_eq (h : Replaced sys tree tree' name parent content mode) :
    ∃ place e, SiblingOpens sys tree name parent place ∧
      (if siblingOf name parent = place then some (.file content mode)
        else tree.find? (siblingOf name parent)) = some e ∧
      ∀ other, tree'.find? other =
        if other = name :: parent then some e
        else if other = siblingOf name parent then none
        else if other = place then some (.file content mode) else tree.find? other := by
  obtain ⟨place, hopens, hmove⟩ := h
  obtain ⟨e, hsource, rfl⟩ := eq_of_move hmove
  rw [hopens.find?_left] at hsource
  refine ⟨place, e, hopens, hsource, fun other => ?_⟩
  have hsibling : siblingOf name parent ≠ [] := List.cons_ne_nil _ _
  rw [find?_put _ e other (List.cons_ne_nil _ _), find?_erase _ other hsibling, hopens.find?_left]

/-- Nothing stands under the sibling's name afterwards. -/
theorem find?_siblingOf (h : Replaced sys tree tree' name parent content mode) :
    tree'.find? (siblingOf name parent) = none := by
  obtain ⟨place, e, -, -, hfind⟩ := h.find?_eq
  rw [hfind, if_neg (siblingOf_ne name parent), if_pos rfl]

/-- Without an entry under the sibling's name the file's text is all that changes. -/
theorem find?_of_free (h : Replaced sys tree tree' name parent content mode)
    (hfree : tree.find? (siblingOf name parent) = none) (other : Location) :
    tree'.find? other =
      if other = name :: parent then some (.file content mode) else tree.find? other := by
  obtain ⟨place, e, hopens, he, hfind⟩ := h.find?_eq
  have hplace : place = siblingOf name parent := walk_free (isEntryName_sibling name) hfree hopens.leads
  rw [hplace, if_pos rfl, Option.some.injEq] at he
  rw [hfind, hplace, ← he]
  by_cases hother : other = siblingOf name parent
  · rw [if_pos hother, hother, hfree]
  · rw [if_neg hother, if_neg hother]

/-- A link under the sibling's name that leads back to the file takes the place of the file. -/
theorem find?_of_back (h : Replaced sys tree tree' name parent content mode)
    {target : Text} (hlink : tree.find? (siblingOf name parent) = some (.link target))
    (hback : tree.walk sys .writing linkLimit parent [name ++ siblingEnding.toList] =
      .ok (name :: parent)) (other : Location) :
    tree'.find? other =
      if other = name :: parent then some (.link target)
      else if other = siblingOf name parent then none else tree.find? other := by
  obtain ⟨place, e, hopens, he, hfind⟩ := h.find?_eq
  obtain rfl := Except.ok.inj (hback.symm.trans hopens.leads)
  rw [if_neg (siblingOf_ne name parent), hlink, Option.some.injEq] at he
  rw [hfind, ← he]
  split
  · rfl
  · rfl

end Replaced

/-- Whichever step fails, the file has its old text or the whole new one if no entry had the sibling's name,
and but for the sibling every other entry is as before. -/
theorem find?_run_replaceAt (hfree : tree.find? (siblingOf name parent) = none) (content : ByteArray)
    (mode : Nat) {other : Location} (hother : other ≠ siblingOf name parent) :
    let left := (((disk sys).replaceAt name parent content mode).run.run tree).2
    left.find? other = tree.find? other ∨
      other = name :: parent ∧ left.find? other = some (.file content mode) := by
  dsimp only
  cases hopen : tree.openAt sys (siblingOf name parent) with
  | error fault =>
    rw [run_replaceAt_of_error hopen]
    exact Or.inl rfl
  | ok place =>
    have hopens := openAt_siblingOf_eq_ok_iff.1 hopen
    have hplace : place = siblingOf name parent :=
      walk_free (isEntryName_sibling name) hfree hopens.leads
    have hne : other ≠ place := by
      rw [hplace]
      exact hother
    have hfill : ∀ content, (tree.fill place content).find? other = tree.find? other := by
      intro content
      rw [hopens.find?_fill, if_neg hne]
    have hleft : ((tree.fill place content).setModeAt place mode).find? other = tree.find? other := by
      rw [hopens.find?_left, if_neg hne]
    rw [run_replaceAt hopens]
    split
    · exact Or.inl (hfill _)
    · split
      · exact Or.inl (hfill _)
      · dsimp only
        split
        · exact Or.inl hleft
        · split
          · exact Or.inl hleft
          · next moved hmove =>
            have hreplaced : Replaced sys tree moved name parent content mode := ⟨place, hopens, hmove⟩
            rw [hreplaced.find?_of_free hfree]
            by_cases htarget : other = name :: parent
            · exact Or.inr ⟨htarget, if_pos htarget⟩
            · exact Or.inl (if_neg htarget)

/-! ## The file that a path leads to -/

/-- A replacement has resolved the path as an absolute one. -/
theorem run_replace_of_error {path : String} {t : Text} {fault : Fault}
    (h : tree.reach sys .absolute path = .error fault) :
    ((disk sys).replace path t).run.run tree = (.error (.unresolved path fault), tree) := by
  rw [Disk.replace]
  simp only [run_bind, run_adapt, run_resolve, h]
  rfl

theorem run_replace {path : String} {t : Text} {old : ByteArray}
    (h : tree.reach sys .absolute path = .ok (name :: parent, .file old mode)) :
    ((disk sys).replace path t).run.run tree =
      match sys.fault? (.metadata (name :: parent)) with
      | some fault => (.error (.noMetadata (Location.path (name :: parent)) fault), tree)
      | none => ((disk sys).replaceAt name parent (encode t) mode).run.run tree := by
  obtain ⟨p, -, -, hfind⟩ := reach_eq_ok_iff.1 h
  have hmode : tree.modeAt (name :: parent) = .ok mode := by rw [modeAt, hfind]
  rw [Disk.replace]
  simp only [run_bind, run_adapt, run_resolve, h]
  dsimp only [Except.map, Except.mapError]
  rw [run_metadata]
  cases sys.fault? (.metadata (name :: parent)) with
  | some fault => rfl
  | none =>
    dsimp only
    rw [hmode]

/-- The file that can be read is the one that is replaced. -/
theorem replaced_of_run_replace {path : String} {t old : Text}
    (hread : tree.readText sys path = .ok old)
    (h : ((disk sys).replace path t).run.run tree = (.ok (), tree')) :
    ∃ name parent mode, tree.entry sys path = .ok (name :: parent, .file (encode old) mode) ∧
      sys.grants .read (name :: parent) mode = true ∧
      Replaced sys tree tree' name parent (encode t) mode := by
  obtain ⟨place, mode, hentry, hgranted⟩ := readText_eq_ok_iff.1 hread
  cases hreach : tree.reach sys .absolute path with
  | error fault =>
    rw [run_replace_of_error hreach] at h
    cases h
  | ok found =>
    obtain rfl := entry_of_reach_absolute hreach hentry
    obtain ⟨p, -, -, hfind⟩ := reach_eq_ok_iff.1 hentry
    cases place with
    | nil => cases hfind
    | cons name parent =>
      rw [run_replace hreach] at h
      split at h
      · cases h
      · exact ⟨name, parent, mode, hentry, hgranted, replaced_of_run h⟩

/-- What a replacement comes to where no call fails: it succeeds exactly if the sibling can be written, and
else the tree stays as it is, unless the writing breaks off. -/
theorem run_replaceAt_cases (hcalls : ∀ call, sys.fault? call = none)
    (hfile : ∀ mode, tree.find? (name :: parent) ≠ some (.directory mode)) (content : ByteArray)
    (mode : Nat) :
    let run := ((disk sys).replaceAt name parent content mode).run.run tree
    (SiblingWritable sys tree name parent content ∧ ∃ left, run = (.ok (), left)) ∨
      (¬ SiblingWritable sys tree name parent content ∧ ∃ e left, run = (.error e, left) ∧
        (left = tree ∨ SiblingHoldsPart sys tree left name parent content)) := by
  dsimp only
  cases hopen : tree.openAt sys (siblingOf name parent) with
  | error fault =>
    right
    refine ⟨?_, _, _, run_replaceAt_of_error hopen, Or.inl rfl⟩
    rintro ⟨place, hopens, -⟩
    rw [openAt_siblingOf_eq_ok_iff.2 hopens] at hopen
    cases hopen
  | ok place =>
    have hopens := openAt_siblingOf_eq_ok_iff.1 hopen
    rw [run_replaceAt hopens]
    cases hshort : sys.shortWrite? place content with
    | none =>
      left
      obtain ⟨moved, hmove⟩ := hopens.exists_move hfile content mode
      refine ⟨⟨place, hopens, hshort⟩, moved, ?_⟩
      dsimp only
      rw [hcalls, hcalls, hmove]
    | some short =>
      obtain ⟨count, fault⟩ := short
      right
      refine ⟨?_, _, _, rfl, Or.inr ⟨place, count, fault, hopens, hshort, rfl, hopens.find?_fill _⟩⟩
      rintro ⟨place', hopens', hshort'⟩
      obtain rfl := Except.ok.inj (hopens.leads.symm.trans hopens'.leads)
      rw [hshort] at hshort'
      cases hshort'

theorem run_replace_cases {path : String} {t old : Text} (hread : tree.readText sys path = .ok old)
    (hcalls : ∀ call, sys.fault? call = none) :
    let run := ((disk sys).replace path t).run.run tree
    (Replaceable sys tree path (encode t) ∧ ∃ left, run = (.ok (), left)) ∨
      (¬ Replaceable sys tree path (encode t) ∧ ∃ e left, run = (.error e, left) ∧
        (left = tree ∨ WritesPart sys tree left path (encode t))) := by
  dsimp only
  obtain ⟨place, mode, hentry, -⟩ := readText_eq_ok_iff.1 hread
  cases hreach : tree.reach sys .absolute path with
  | error fault =>
    right
    refine ⟨?_, _, _, run_replace_of_error hreach, Or.inl rfl⟩
    rintro ⟨name, parent, bytes, mode', hreach', -⟩
    rw [hreach] at hreach'
    cases hreach'
  | ok found =>
    obtain rfl := entry_of_reach_absolute hreach hentry
    obtain ⟨p, -, -, hfind⟩ := reach_eq_ok_iff.1 hentry
    cases place with
    | nil => cases hfind
    | cons name parent =>
      have hfile : ∀ mode, tree.find? (name :: parent) ≠ some (.directory mode) := by simp [hfind]
      rw [run_replace hreach, hcalls]
      rcases run_replaceAt_cases hcalls hfile (encode t) mode with
        ⟨hwritable, hrun⟩ | ⟨hnot, e, left, hrun, hleft⟩
      · exact Or.inl ⟨⟨name, parent, _, mode, hreach, hwritable⟩, hrun⟩
      · refine Or.inr ⟨?_, e, left, hrun,
          hleft.imp_right fun hpart => ⟨name, parent, _, mode, hreach, hpart⟩⟩
        rintro ⟨name', parent', bytes, mode', hreach', hwritable⟩
        rw [hreach] at hreach'
        cases hreach'
        exact hnot hwritable

theorem run_replace_ok_iff {path : String} {t old : Text} (hread : tree.readText sys path = .ok old)
    (hcalls : ∀ call, sys.fault? call = none) :
    (∃ left, ((disk sys).replace path t).run.run tree = (.ok (), left)) ↔
      Replaceable sys tree path (encode t) := by
  rcases run_replace_cases (t := t) hread hcalls with ⟨h, hrun⟩ | ⟨h, e, left, hrun, -⟩
  · exact iff_of_true hrun h
  · refine iff_of_false ?_ h
    rintro ⟨left', hrun'⟩
    rw [hrun] at hrun'
    cases hrun'

theorem rewritesOnly_iff {path : String} {t : Text} {bytes : ByteArray}
    (hentry : tree.entry sys path = .ok (name :: parent, .file bytes mode))
    (hgranted : sys.grants .read (name :: parent) mode = true)
    (h : Replaced sys tree tree' name parent (encode t) mode) :
    RewritesOnly sys tree tree' path t ↔ tree.find? (siblingOf name parent) = none := by
  obtain ⟨p, hpath, hwalk, hold⟩ := reach_eq_ok_iff.1 hentry
  constructor
  · intro hrewrites
    obtain ⟨place, _, _, _, hplace, _, hothers⟩ := hrewrites.others
    rw [hentry, Except.ok.injEq, Prod.mk.injEq] at hplace
    rw [← hothers _ (hplace.1 ▸ siblingOf_ne name parent)]
    exact h.find?_siblingOf
  · intro hfree
    have hfind := h.find?_of_free hfree
    have hways : SameWays tree tree' := by
      intro place
      rw [hfind]
      by_cases hplace : place = name :: parent
      · exact Or.inr ⟨bytes, mode, encode t, mode, hplace ▸ hold, if_pos hplace⟩
      · exact Or.inl (if_neg hplace)
    have hwalks := walk_congr hways
    have hnew : tree'.entry sys path = .ok (name :: parent, .file (encode t) mode) := by
      refine reach_eq_ok_iff.2 ⟨p, hpath, ?_, by rw [hfind, if_pos rfl]⟩
      rw [hwalks, h.here]
      exact hwalk
    refine ⟨readText_eq_ok_iff.2 ⟨_, _, hnew, hgranted⟩, h.here, hwalks, name :: parent, bytes, encode t,
      mode, hentry, hnew, fun other hother => ?_⟩
    rw [hfind, if_neg hother]

end Replacement

end FileTree
end KeyChart
