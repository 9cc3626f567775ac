import KeyChart.Proofs.Files.Walk

/-!
The calls on a tree: what each one answers, and the tree that it leaves. Main statements: a file is read
exactly if the path leads to it and it may be read (`readText_eq_ok_iff`), and it is opened for writing
exactly if it is there and may be written, or may be made (`openFile_eq_ok_iff`).
-/

namespace KeyChart
namespace FileTree

/-- The path leads to a file with this text. -/
def Holds (sys : System) (tree : FileTree) (path : String) (t : Text) : Prop :=
  ∃ place mode, tree.entry sys path = .ok (place, .file (encode t) mode)

theorem decode_eq_ok_iff {bytes : ByteArray} {t : Text} :
    decode bytes = .ok t ↔ bytes = encode t := by
  constructor
  · intro h
    rw [decode, String.fromUTF8?] at h
    split at h
    · next s hs =>
      split at hs
      · cases hs
        cases h
        rw [encode, String.ofList_toList]
        rfl
      · cases hs
    · cases h
  · intro h
    rw [h]
    exact decode_encode t

theorem encode_injective {t t' : Text} (h : encode t = encode t') : t = t' :=
  Except.ok.inj ((decode_encode t).symm.trans ((congrArg decode h).trans (decode_encode t')))

/-! ## Calls on a tree -/

section Calls

variable {ε ε' α β : Type}

theorem run_bind (action : ExceptT ε (StateM FileTree) α) (next : α → ExceptT ε (StateM FileTree) β)
    (tree : FileTree) :
    (action >>= next).run.run tree =
      match action.run.run tree with
      | (.ok a, left) => (next a).run.run left
      | (.error e, left) => (.error e, left) := by
  rw [ExceptT.run_bind, StateT.run_bind]
  obtain ⟨answer, left⟩ := action.run.run tree
  cases answer <;> rfl

theorem run_next (action : StateM FileTree α) (next : α → StateM FileTree β) (tree : FileTree) :
    (action >>= next).run tree = (next (action.run tree).1).run (action.run tree).2 := rfl

theorem run_adapt (action : ExceptT ε (StateM FileTree) α) (f : ε → ε') (tree : FileTree) :
    (action.adapt f).run.run tree =
      ((action.run.run tree).1.mapError f, (action.run.run tree).2) := by
  rfl

variable (sys : System) (tree : FileTree)

theorem run_get : (get : ExceptT Fault (StateM FileTree) FileTree).run.run tree = (.ok tree, tree) := rfl

theorem run_lift (answer : Except Fault α) :
    (liftM answer : ExceptT Fault (StateM FileTree) α).run.run tree = (answer, tree) := by
  cases answer <;> rfl

theorem run_resolve (path : String) :
    ((disk sys).resolve path).run.run tree = ((tree.reach sys .absolute path).map Prod.fst, tree) := by
  simp only [disk, run_bind, run_get, run_lift]
  cases tree.reach sys .absolute path with
  | error fault => rfl
  | ok found => rfl

theorem run_metadata (place : Location) :
    ((disk sys).metadata place).run.run tree =
      match sys.fault? (.metadata place) with
      | some fault => (.error fault, tree)
      | none => (tree.modeAt place, tree) := by
  simp only [disk, run_bind, run_get, run_lift, attempt]
  cases sys.fault? (.metadata place) with
  | some fault => rfl
  | none => rfl

theorem run_write (path : Location) (content : ByteArray) :
    ((disk sys).write path content).run.run tree =
      match tree.openAt sys path with
      | .error fault => (.error fault, tree)
      | .ok place =>
        match sys.shortWrite? place content with
        | none => (.ok (), tree.fill place content)
        | some (count, fault) => (.error fault, tree.fill place (content.extract 0 count)) := by
  simp only [disk, write, run_bind, run_get, run_lift]
  cases tree.openAt sys path with
  | error fault => rfl
  | ok place =>
    dsimp only
    cases sys.shortWrite? place content with
    | none => rfl
    | some short => rfl

theorem run_setMode (path : Location) (mode : Nat) :
    ((disk sys).setMode path mode).run.run tree =
      match tree.locateAt sys .target path with
      | .error fault => (.error fault, tree)
      | .ok place =>
        match sys.fault? (.setMode place mode) with
        | some fault => (.error fault, tree)
        | none => (.ok (), tree.setModeAt place mode) := by
  simp only [disk, attempt, run_bind, run_get, run_lift]
  cases tree.locateAt sys .target path with
  | error fault => rfl
  | ok place =>
    dsimp only
    cases sys.fault? (.setMode place mode) with
    | some fault => rfl
    | none => rfl

theorem run_move (source target : Location) :
    ((disk sys).move source target).run.run tree =
      match sys.fault? (.move source target) with
      | some fault => (.error fault, tree)
      | none =>
        match tree.move source target with
        | .error fault => (.error fault, tree)
        | .ok moved => (.ok (), moved) := by
  simp only [disk, attempt, run_bind, run_get, run_lift]
  cases sys.fault? (.move source target) with
  | some fault => rfl
  | none =>
    dsimp only
    cases tree.move source target with
    | error fault => rfl
    | ok moved => rfl

end Calls

/-! ## Files that are read and opened -/

section Files

variable {sys : System} {tree : FileTree} {place : Location}

theorem openFile_eq_ok_iff {opened : Location} : tree.openFile sys place = .ok opened ↔
    opened = place ∧ ((tree.find? place = none ∧ tree.mayAdd sys place.parent = true) ∨
      ∃ old mode, tree.find? place = some (.file old mode) ∧ sys.grants .write place mode = true) := by
  have opened_iff : ∀ b : Bool, (if b then .ok place else .error Fault.accessDenied : Except Fault Location) =
      .ok opened ↔ opened = place ∧ b = true := by
    intro b
    cases b with
    | false => simp
    | true => simp [eq_comm (a := place)]
  rw [openFile]
  cases tree.find? place with
  | none => simp [opened_iff]
  | some e =>
    cases e with
    | file old mode =>
      have hsame : (∃ old' mode', some (Entry.file old mode) = some (.file old' mode') ∧
          sys.grants .write place mode' = true) ↔ sys.grants .write place mode = true := by
        constructor
        · rintro ⟨old', mode', heq, hgranted⟩
          cases heq
          exact hgranted
        · intro hgranted
          exact ⟨old, mode, rfl, hgranted⟩
      rw [hsame]
      simp [opened_iff]
    | directory mode => simp
    | link target => simp

theorem readText_eq_ok_iff {path : String} {t : Text} :
    tree.readText sys path = .ok t ↔ ∃ place mode,
      tree.entry sys path = .ok (place, .file (encode t) mode) ∧ sys.grants .read place mode = true := by
  constructor
  · intro h
    rw [readText, readBytes] at h
    cases hentry : tree.entry sys path with
    | error fault =>
      rw [hentry] at h
      cases h
    | ok found =>
      obtain ⟨place, e⟩ := found
      rw [hentry] at h
      cases e with
      | file content mode =>
        cases hgranted : sys.grants .read place mode with
        | false => simp [bind, Except.bind, hgranted] at h
        | true =>
          simp only [bind, Except.bind, hgranted, if_true, decode_eq_ok_iff] at h
          exact ⟨place, mode, by rw [h], hgranted⟩
      | directory mode =>
        cases hgranted : sys.grants .read place mode with
        | false => simp [bind, Except.bind, hgranted] at h
        | true => simp [bind, Except.bind, hgranted] at h
      | link target => cases h
  · rintro ⟨place, mode, hentry, hgranted⟩
    rw [readText, readBytes, hentry]
    simp only [bind, Except.bind, hgranted, if_true]
    exact decode_encode t

theorem Holds.isFile {path : String} {t : Text} (h : Holds sys tree path t) :
    tree.isFile sys path = true := by
  obtain ⟨place, mode, hentry⟩ := h
  rw [FileTree.isFile, hentry]

theorem Holds.unique {path : String} {t t' : Text} (h : Holds sys tree path t)
    (h' : Holds sys tree path t') : t = t' := by
  obtain ⟨place, mode, hentry⟩ := h
  obtain ⟨place', mode', hentry'⟩ := h'
  rw [hentry, Except.ok.injEq, Prod.mk.injEq, Entry.file.injEq] at hentry'
  exact encode_injective hentry'.2.1

end Files

/-! ## The trees that are left -/

section Trees

variable {tree tree' : FileTree} {place source target : Location} {content : ByteArray}

theorem find?_fill (hne : place ≠ []) (content : ByteArray) (other : Location) :
    (tree.fill place content).find? other =
      if other = place then some (.file content (tree.modeFor place)) else tree.find? other :=
  find?_put tree _ other hne

theorem find?_setModeAt {mode mode' : Nat} (hne : place ≠ [])
    (hfile : tree.find? place = some (.file content mode)) (other : Location) :
    (tree.setModeAt place mode').find? other =
      if other = place then some (.file content mode') else tree.find? other := by
  rw [setModeAt, hfile]
  exact find?_put tree _ other hne

theorem move_eq_ok {e : Entry} (hsource : tree.find? source = some e)
    (hfrom : ∀ mode, e ≠ .directory mode) (hto : ∀ mode, tree.find? target ≠ some (.directory mode)) :
    tree.move source target = .ok ((tree.erase source).put target e) := by
  rw [move, hsource]
  cases e with
  | directory mode => exact absurd rfl (hfrom mode)
  | _ =>
    cases htarget : tree.find? target with
    | none => rfl
    | some e' =>
      cases e' with
      | directory mode => exact absurd htarget (hto mode)
      | _ => rfl

theorem eq_of_move (h : tree.move source target = .ok tree') :
    ∃ e, tree.find? source = some e ∧ tree' = (tree.erase source).put target e := by
  rw [move] at h
  split at h
  · cases h
  · cases h
  · cases h
  · next e _ hsource _ => exact ⟨e, hsource, (Except.ok.inj h).symm⟩

theorem here_setModeAt (tree : FileTree) (place : Location) (mode : Nat) :
    (tree.setModeAt place mode).here = tree.here := by
  unfold setModeAt
  split
  · rfl
  · split <;> rfl
  · rfl

end Trees

end FileTree
end KeyChart
