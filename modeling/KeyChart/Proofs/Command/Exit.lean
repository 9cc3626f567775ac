import KeyChart.Command.Run
import KeyChart.Proofs.Command.Request
import KeyChart.Proofs.Refresh.File

/-!
The exit codes of runs on a file, and what a run that fails leaves, on a system that lets every file be read
and on which nothing but the writing of a file fails. Main statement: showing a file succeeds if it can be
read, refreshing it if moreover it has layers and its text stays or can be replaced, and without success, or
without a change of the text, the tree stays as it is, unless the writing of the text breaks off
(`run_exits`). A path that leads through a place too deep can be read, but its file cannot be replaced, and on
a full disk a sibling is left behind (`run_fails_unresolved_or_midway`).
-/

namespace KeyChart

open FileTree

/-- Every file of the tree can be read, and no call fails on a path that has been resolved. -/
structure System.IsReliable (sys : System) (tree : FileTree) : Prop where
  readable : ∀ place content mode, tree.find? place = some (.file content mode) →
    sys.grants .read place mode = true
  calls : ∀ call, sys.fault? call = none

/-- The file can be refreshed: it can be read, it has a layer, and its text stays as it is or can be
replaced. -/
def FileTree.Refreshable (sys : System) (tree : FileTree) (path : String) : Prop :=
  ∃ t, Holds sys tree path t ∧ Keymap.layers t ≠ [] ∧
    ∀ o, refresh t = .ok o → o.content = t ∨ Replaceable sys tree path (encode o.content)

/-- The writing of the refreshed text has broken off. -/
def FileTree.RefreshedInPart (sys : System) (tree tree' : FileTree) (path : String) : Prop :=
  ∃ t o, Holds sys tree path t ∧ refresh t = .ok o ∧ o.content ≠ t ∧
    WritesPart sys tree tree' path (encode o.content)

/-- What a run on a file comes to: its exit code, and the tree afterwards. -/
structure Exits (sys : System) (tree tree' : FileTree) (file : String) (update : Bool) (code : Nat) :
    Prop where
  zeroOrOne : code = 0 ∨ code = 1
  success : code = 0 ↔ if update then Refreshable sys tree file else ∃ t, Holds sys tree file t
  shown : update = false → tree' = tree
  failed : code = 1 → tree' = tree ∨ update = true ∧ RefreshedInPart sys tree tree' file
  current : update = true → ∀ summary,
    (((disk sys).refreshFile file).run tree).1.1 = .ok summary → summary.written = false → tree' = tree

theorem System.IsReliable.readText_eq_ok_iff {sys : System} {tree : FileTree} (h : sys.IsReliable tree)
    {path : String} {t : Text} : tree.readText sys path = .ok t ↔ Holds sys tree path t := by
  rw [FileTree.readText_eq_ok_iff]
  constructor
  · rintro ⟨place, mode, hentry, -⟩
    exact ⟨place, mode, hentry⟩
  · rintro ⟨place, mode, hentry⟩
    obtain ⟨p, -, -, hfind⟩ := reach_eq_ok_iff.1 hentry
    exact ⟨place, mode, hentry, h.readable _ _ _ hfind⟩

/-! ## Showing a file -/

section Files

variable {sys : System} {tree : FileTree}

theorem run_load (sys : System) (tree : FileTree) (path : String) :
    ((disk sys).load path).run tree =
      (if tree.isFile sys path then
        match tree.readText sys path with
        | .ok t => .ok t
        | .error fault => .error (.unreadable path fault)
      else .error (.notFile path), tree) := by
  have hfile : ((disk sys).isFile path).run tree = (tree.isFile sys path, tree) := rfl
  rw [Disk.load, run_next, hfile]
  cases tree.isFile sys path with
  | false => rfl
  | true =>
    simp only [if_true]
    rw [run_next, run_readText]
    cases tree.readText sys path with
    | ok t => rfl
    | error fault => rfl

theorem run_load_eq_ok_iff {path : String} {t : Text} :
    (((disk sys).load path).run tree).1 = .ok t ↔ tree.readText sys path = .ok t := by
  rw [run_load]
  constructor
  · intro h
    split at h
    · cases hread : tree.readText sys path with
      | ok t' =>
        rw [hread] at h
        cases h
        rfl
      | error fault =>
        rw [hread] at h
        cases h
    · cases h
  · intro hread
    obtain ⟨place, mode, hentry, -⟩ := FileTree.readText_eq_ok_iff.1 hread
    have hholds : Holds sys tree path t := ⟨place, mode, hentry⟩
    rw [hholds.isFile, hread]
    rfl

theorem run_showFile (sys : System) (tree : FileTree) (path : String) (asJson : Bool) :
    ((disk sys).showFile path asJson).run tree =
      (match (((disk sys).load path).run tree).1 with
        | .error e => .failure "" s!"Failed to load keymap: {e.message}" []
        | .ok t => Show.output path asJson t, tree) := by
  have htree : (((disk sys).load path).run tree).2 = tree := by rw [run_load]
  rw [Disk.showFile, run_next, htree]
  cases (((disk sys).load path).run tree).1 with
  | error e => rfl
  | ok t => rfl

theorem code_showFile (h : sys.IsReliable tree) (path : String) (asJson : Bool) :
    let code := (((disk sys).showFile path asJson).run tree).1.code
    (code = 0 ∨ code = 1) ∧ (code = 0 ↔ ∃ t, Holds sys tree path t) := by
  simp only [← h.readText_eq_ok_iff, ← run_load_eq_ok_iff, run_showFile]
  cases (((disk sys).load path).run tree).1 with
  | error e => simp [Output.failure]
  | ok t => simp [Show.output, Output.success]

/-! ## Refreshing a file -/

theorem run_updateFile (sys : System) (tree : FileTree) (path : String) (asJson : Bool) :
    ((disk sys).updateFile path asJson).run tree =
      let refreshed := ((disk sys).refreshFile path).run tree
      (Update.output path asJson refreshed.1.1 refreshed.1.2, refreshed.2) := rfl

theorem code_updateFile (sys : System) (tree : FileTree) (path : String) (asJson : Bool) :
    let code := (((disk sys).updateFile path asJson).run tree).1.code
    (code = 0 ∨ code = 1) ∧
      (code = 0 ↔ ∃ summary, (((disk sys).refreshFile path).run tree).1.1 = .ok summary) := by
  simp only [run_updateFile]
  cases (((disk sys).refreshFile path).run tree).1.1 with
  | error e => simp [Update.output, Output.failure]
  | ok summary => simp [Update.output, Output.success]

theorem refreshable_iff {path : String} {t : Text} {o : Outcome} (hholds : Holds sys tree path t)
    (hok : refresh t = .ok o) :
    Refreshable sys tree path ↔ o.content = t ∨ Replaceable sys tree path (encode o.content) := by
  constructor
  · rintro ⟨t', hholds', -, hstored⟩
    obtain rfl := hholds'.unique hholds
    exact hstored o hok
  · intro hstored
    refine ⟨t, hholds, (refresh_eq_ok_iff.1 hok).1, fun o' hok' => ?_⟩
    obtain rfl := Except.ok.inj (hok.symm.trans hok')
    exact hstored

/-- What a refresh of a file comes to, and the tree that it leaves. -/
theorem run_refreshFile_cases (h : sys.IsReliable tree) (path : String) :
    let run := ((disk sys).refreshFile path).run tree
    (Refreshable sys tree path ∧
        ∃ summary, run.1.1 = .ok summary ∧ (summary.written = false → run.2 = tree)) ∨
      (¬ Refreshable sys tree path ∧ (∃ e, run.1.1 = .error e) ∧
        (run.2 = tree ∨ RefreshedInPart sys tree run.2 path)) := by
  dsimp only
  rw [run_refreshFile]
  cases hread : tree.readText sys path with
  | error fault =>
    refine Or.inr ⟨?_, ⟨_, rfl⟩, Or.inl rfl⟩
    rintro ⟨t, hholds, -⟩
    rw [h.readText_eq_ok_iff.2 hholds] at hread
    cases hread
  | ok t =>
    have hholds := h.readText_eq_ok_iff.1 hread
    dsimp only
    cases hrefresh : refresh t with
    | error e =>
      refine Or.inr ⟨?_, ⟨_, rfl⟩, Or.inl rfl⟩
      rintro ⟨t', hholds', hlayers, -⟩
      obtain rfl := hholds'.unique hholds
      rw [refresh_eq_ok_iff.2 ⟨hlayers, rfl⟩] at hrefresh
      cases hrefresh
    | ok o =>
      simp only [run_store, refreshable_iff hholds hrefresh]
      split
      · next hsame => exact Or.inl ⟨Or.inl hsame, _, rfl, fun _ => rfl⟩
      · next hne =>
        rw [or_iff_right hne]
        rcases run_replace_cases (t := o.content) hread h.calls with
          ⟨hreplaceable, left, hrun⟩ | ⟨hnot, e, left, hrun, hleft⟩
        · rw [hrun]
          exact Or.inl ⟨hreplaceable, _, rfl, fun hwritten => nomatch hwritten⟩
        · rw [hrun]
          exact Or.inr ⟨hnot, ⟨_, rfl⟩,
            hleft.imp_right fun hpart => ⟨t, o, hholds, hrefresh, hne, hpart⟩⟩

end Files

/-! ## Runs -/

theorem run_of_asks {arguments : List String} {file : String} {update json verbose : Bool}
    (h : Asks arguments file update json verbose) (sys : System) (tree : FileTree) :
    (Command.run (disk sys) arguments).run tree =
      let asked := (if update then (disk sys).updateFile file json
        else (disk sys).showFile file json).run tree
      ({ asked.1 with log := asked.1.log.filter (Event.isShown verbose) }, asked.2) := by
  obtain ⟨o, harguments, hnamed, rfl, rfl, rfl⟩ := h
  rw [Command.run, harguments]
  simp only [Command.runOptions, hnamed]
  cases o.has .update with
  | false => rfl
  | true => rfl

section Exits

variable {sys : System} {tree : FileTree} (h : sys.IsReliable tree) (file : String) (json : Bool)

include h

theorem exits_showFile :
    Exits sys tree (((disk sys).showFile file json).run tree).2 file false
      (((disk sys).showFile file json).run tree).1.code := by
  obtain ⟨hcodes, hsuccess⟩ := code_showFile h file json
  have htree : (((disk sys).showFile file json).run tree).2 = tree := by rw [run_showFile]
  exact ⟨hcodes, hsuccess, fun _ => htree, fun _ => Or.inl htree, fun hupdate => nomatch hupdate⟩

theorem exits_updateFile :
    Exits sys tree (((disk sys).updateFile file json).run tree).2 file true
      (((disk sys).updateFile file json).run tree).1.code := by
  obtain ⟨hcodes, hsuccess⟩ := code_updateFile sys tree file json
  have htree : (((disk sys).updateFile file json).run tree).2 =
    (((disk sys).refreshFile file).run tree).2 := rfl
  rw [htree]
  rcases run_refreshFile_cases h file with
    ⟨hrefreshable, summary, hresult, hleft⟩ | ⟨hnot, ⟨e, hresult⟩, hleft⟩
  · have hzero := hsuccess.2 ⟨summary, hresult⟩
    refine ⟨hcodes, iff_of_true hzero hrefreshable, (fun hupdate => nomatch hupdate), fun hone => ?_,
      fun _ summary' hresult' hwritten => hleft ?_⟩
    · rw [hzero] at hone
      cases hone
    · rw [Except.ok.inj (hresult.symm.trans hresult'), hwritten]
  · have hnonzero : ¬ (((disk sys).updateFile file json).run tree).1.code = 0 := by
      rw [hsuccess, hresult]
      rintro ⟨summary, hsummary⟩
      cases hsummary
    refine ⟨hcodes, iff_of_false hnonzero hnot, (fun hupdate => nomatch hupdate),
      fun _ => hleft.imp_right fun hpart => ⟨rfl, hpart⟩, fun _ summary hresult' => ?_⟩
    rw [hresult] at hresult'
    cases hresult'

end Exits

namespace Sample

/-- A system on which the program owns every entry and has the rights that the owner's bits give. -/
def owned : System where
  grants right _ mode :=
    match right with
    | .search => mode.testBit 6
    | .add => mode.testBit 7
    | .write => mode.testBit 7
    | .read => mode.testBit 8
  fault? _ := none
  shortWrite? _ _ := none

theorem lookup_cons_of_ne {place other : Location} (h : other ≠ place) (e : Entry)
    (es : List (Location × Entry)) : ((place, e) :: es).lookup other = es.lookup other := by
  rw [List.lookup_cons, beq_false_of_ne h]

/-- The other entries of the tree. -/
theorem find?_tree (mode : Nat) (others : List (Location × Entry)) {place : Location}
    (hroot : place ≠ []) (hparent : place ≠ [['d']]) (hfile : place ≠ [fileName, ['d']]) :
    (tree mode others).find? place = others.lookup place := by
  rw [find?, if_neg hroot, tree, lookup_cons_of_ne hparent, lookup_cons_of_ne hfile]

theorem owned_isReliable (mode : Nat) : owned.IsReliable (tree mode []) where
  readable place content mode' hfind := by
    by_cases hroot : place = []
    · rw [hroot] at hfind
      cases hfind
    by_cases hparent : place = [['d']]
    · rw [hparent, find?_directory] at hfind
      cases hfind
    by_cases hfile : place = [fileName, ['d']]
    · rw [hfile, find?_fileName, Option.some.injEq, Entry.file.injEq] at hfind
      have hbit : fileMode.testBit 8 = true := by decide
      rw [← hfind.2]
      exact hbit
    · rw [find?_tree mode [] hroot hparent hfile] at hfind
      cases hfind
  calls _ := rfl

theorem searches_owned {mode : Nat} (h : mode.testBit 6 = true) : Searches owned mode :=
  ⟨by decide, h⟩

theorem readText_owned (mode : Nat) (h : mode.testBit 6 = true) :
    (tree mode []).readText owned "k.c" = .ok source :=
  readText_fileName (searches_owned h) [] (by decide)

/-- A refresh of the file in a directory to which entries can be added. -/
theorem exists_refresh :
    ∃ tree' o, (((disk owned).refreshFile "k.c").run (tree directoryMode [])).2 = tree' ∧
      refresh source = .ok o ∧ tree'.readText owned "k.c" = .ok o.content := by
  have hsearch : directoryMode.testBit 6 = true := by decide
  have hread := readText_owned directoryMode hsearch
  obtain ⟨summary, events, tree', o, hrun, -, hok, hreplace⟩ :=
    exists_run hread (fun _ => rfl)
      (replaceable_tree (searches_owned hsearch) (by decide) fun _ _ => rfl)
  obtain ⟨name, parent, mode, hentry, hgranted, hreplaced⟩ := replaced_of_run_replace hread hreplace
  have hfree : (tree directoryMode []).find? (siblingOf name parent) = none := by
    rw [entry, reach_fileName (searches_owned hsearch), Except.ok.injEq, Prod.mk.injEq] at hentry
    rw [siblingOf, ← (List.cons.inj hentry.1).1, ← (List.cons.inj hentry.1).2]
    rfl
  exact ⟨tree', o, by rw [hrun], hok, ((rewritesOnly_iff hentry hgranted hreplaced).2 hfree).reads⟩

/-- No sibling is made in a directory to which no entry can be added. -/
theorem not_replaceable {mode : Nat} (h : Searches owned mode) (hadd : mode.testBit 7 = false)
    (content : ByteArray) : ¬ Replaceable owned (tree mode []) "k.c" content := by
  rintro ⟨name, parent, old, mode', hreach, place, hopens, -⟩
  rw [reach_fileName h, Except.ok.injEq, Prod.mk.injEq] at hreach
  obtain ⟨rfl, rfl⟩ := List.cons.inj hreach.1
  have hplace : place = siblingOf fileName [['d']] :=
    walk_free (isEntryName_sibling fileName) rfl hopens.leads
  rw [hplace] at hopens
  rcases hopens.granted with ⟨-, hmay⟩ | ⟨_, _, hfile, -⟩
  · have hdenied : (tree mode []).mayAdd owned (siblingOf fileName [['d']]).parent = false := hadd
    rw [hdenied] at hmay
    cases hmay
  · cases hfile

theorem not_refreshedInPart {sys : System} (h : ∀ place content, sys.shortWrite? place content = none)
    {t t' : FileTree} {path : String} : ¬ RefreshedInPart sys t t' path := by
  rintro ⟨t, o, -, -, -, name, parent, old, mode, -, place, count, fault, -, hshort, -⟩
  rw [h] at hshort
  cases hshort

end Sample

namespace Sample

/-- The longest name. -/
def segment : Name := List.replicate 255 'a'

/-- A place that many directories below the working directory. -/
def deep : Nat → Location
  | 0 => [['d']]
  | k + 1 => segment :: deep k

/-- The name of the link to `deep (k + 1)`. -/
def hop (k : Nat) : Name := List.replicate (k + 1) 'l'

/-- Each link leads one directory below the one before. -/
def hopTarget : Nat → Text
  | 0 => segment
  | k + 1 => hop k ++ '/' :: segment

def hops : Nat → List (Location × Entry)
  | 0 => []
  | k + 1 => (deep (k + 1), .directory directoryMode) :: ([hop k, ['d']], .link (hopTarget k)) :: hops k

def winding : FileTree := tree directoryMode (hops 16)

def windingPath : String :=
  "llllllllllllllll/../../../../../../../../../../../../../../../../k.c"

theorem readPath_windingPath : readPath windingPath =
    .ok ⟨false, hop 15 :: (List.replicate 16 ['.', '.'] ++ [fileName])⟩ := by
  rfl

theorem ofText_hopTarget : ∀ k < 15, Path.ofText (hopTarget (k + 1)) = ⟨false, [hop k, segment]⟩ := by
  decide +kernel

theorem ofText_segment : Path.ofText segment = ⟨false, [segment]⟩ := by decide +kernel

theorem deep_succ (k : Nat) : deep (k + 1) = segment :: deep k := rfl

theorem length_deep (k : Nat) : (deep k).length = k + 1 := by
  induction k with
  | zero => rfl
  | succ k ih => rw [deep_succ, List.length_cons, ih]

theorem head?_segment : segment.head? = some 'a' := by decide

theorem head?_hop (k : Nat) : (hop k).head? = some 'l' := rfl

theorem deep_ne (k : Nat) {name : Name} {parent : Location} (h : name.head? ≠ some 'a') :
    deep (k + 1) ≠ name :: parent := by
  intro heq
  rw [deep_succ] at heq
  obtain ⟨rfl, -⟩ := List.cons.inj heq
  exact h head?_segment

theorem deep_ne_hop (k n : Nat) : deep (k + 1) ≠ [hop n, ['d']] :=
  deep_ne k (by rw [head?_hop]; decide)

theorem lookup_hops_deep {k n : Nat} (h : k < n) :
    (hops n).lookup (deep (k + 1)) = some (.directory directoryMode) := by
  induction n with
  | zero => omega
  | succ n ih =>
    by_cases hk : k = n
    · rw [hk, hops, List.lookup_cons_self]
    · have hne : deep (k + 1) ≠ deep (n + 1) := by
        intro heq
        have hlength := congrArg List.length heq
        rw [length_deep, length_deep] at hlength
        omega
      rw [hops, lookup_cons_of_ne hne, lookup_cons_of_ne (deep_ne_hop k n)]
      exact ih (by omega)

theorem lookup_hops_hop {k n : Nat} (h : k < n) :
    (hops n).lookup [hop k, ['d']] = some (.link (hopTarget k)) := by
  induction n with
  | zero => omega
  | succ n ih =>
    rw [hops, lookup_cons_of_ne (deep_ne_hop n k).symm]
    by_cases hk : k = n
    · rw [hk, List.lookup_cons_self]
    · have hne : [hop k, ['d']] ≠ [hop n, ['d']] := by
        intro heq
        have hlength := congrArg List.length (List.cons.inj heq).1
        simp [hop] at hlength
        omega
      rw [lookup_cons_of_ne hne]
      exact ih (by omega)

theorem find?_deep {k : Nat} (h : k ≤ 16) :
    winding.find? (deep k) = some (.directory directoryMode) := by
  cases k with
  | zero => rfl
  | succ k =>
    have hroot : deep (k + 1) ≠ [] := List.cons_ne_nil _ _
    rw [winding, find?_tree _ _ hroot (deep_ne k (by decide)) (deep_ne k (by decide))]
    exact lookup_hops_deep (by omega)

theorem find?_hop {k : Nat} (h : k < 16) :
    winding.find? (hop k :: [['d']]) = some (.link (hopTarget k)) := by
  have hparent : [hop k, ['d']] ≠ [['d']] := by simp
  have hfile : [hop k, ['d']] ≠ [fileName, ['d']] := by simp [hop, fileName, List.replicate_succ]
  rw [winding, find?_tree _ _ (List.cons_ne_nil _ _) hparent hfile]
  exact lookup_hops_hop h

theorem utf8ByteSize_segment : (String.ofList segment).utf8ByteSize = nameLimit := by decide +kernel

theorem pathSize_deep (k : Nat) : pathSize (deep k) = 256 * k + 2 := by
  induction k with
  | zero => rfl
  | succ k ih =>
    rw [deep_succ, pathSize, ih, utf8ByteSize_segment, nameLimit]
    omega

/-- The absolute path of the innermost directory is too long, and no other is as much as full. -/
theorem isTooDeep_deep : isTooDeep (deep 16) = true := by
  have hne : deep 16 ≠ [] := List.ne_nil_of_length_eq_add_one (length_deep 16)
  rw [isTooDeep, utf8ByteSize_path hne, pathSize_deep, pathLimit]
  rfl

theorem isFull_deep {k : Nat} (h : k < 16) : isFull (deep k) = false := by
  have hne : deep k ≠ [] := List.ne_nil_of_length_eq_add_one (length_deep k)
  rw [isFull, utf8ByteSize_path hne, pathSize_deep, pathLimit, decide_eq_false_iff_not]
  omega

theorem isSearchable_deep {k : Nat} (h : k ≤ 16) : winding.isSearchable .permissive (deep k) = true := by
  induction k with
  | zero => rfl
  | succ k ih =>
    have hfind := find?_deep h
    rw [deep_succ] at hfind ⊢
    rw [isSearchable, ih (by omega), hfind]
    rfl

theorem mayPass_deep (aim : Aim) {k : Nat} (h : k ≤ 16) : MayPass winding .permissive aim (deep k) :=
  ⟨_, find?_deep h, by simp [System.permissive]⟩

theorem looksUp_hop {aim : Aim} (haim : aim ≠ .writing) {k : Nat} (h : k < 16) (names : List Name) :
    LooksUp winding .permissive aim [['d']] (hop k) names := by
  have hshort : ∀ k < 16, (String.ofList (hop k)).utf8ByteSize ≤ nameLimit := by decide
  have hfull : ∀ k < 16, isFull [hop k, ['d']] = false := by decide
  refine ⟨mayPass_deep aim (Nat.zero_le 16), ?_, lookUpFault?_eq_none (Or.inl haim) (hshort k h)
    fun _ => ⟨isSearchable_deep (Nat.zero_le 16), hfull k h⟩⟩
  simp [IsEntryName, hop, List.replicate_succ]

theorem isEntryName_segment : IsEntryName segment := by decide

theorem looksUp_segment {aim : Aim} (haim : aim ≠ .writing) {k : Nat} (h : k < 16)
    (habsolute : aim = .absolute → k < 15) (names : List Name) :
    LooksUp winding .permissive aim (deep k) segment names := by
  refine ⟨mayPass_deep aim (Nat.le_of_lt h), isEntryName_segment,
    lookUpFault?_eq_none (Or.inl haim) (Nat.le_of_eq utf8ByteSize_segment) fun ha =>
      ⟨isSearchable_deep (Nat.le_of_lt h), ?_⟩⟩
  rw [← deep_succ]
  exact isFull_deep (Nat.succ_lt_succ (habsolute ha))

section Walks

variable {aim : Aim} {k : Nat} (haim : aim ≠ .writing) (h : k < 16)
  (habsolute : aim = .absolute → k < 15)

include haim h habsolute

theorem walk_segment (links : Nat) (names : List Name) :
    winding.walk .permissive aim links (deep k) (segment :: names) =
      winding.walk .permissive aim links (deep (k + 1)) names := by
  have hfind : winding.find? (segment :: deep k) = some (.directory directoryMode) := by
    rw [← deep_succ]
    exact find?_deep h
  exact (looksUp_segment haim h habsolute names).walk_into (by simp [hfind]) links

/-- Each link costs one link more than the one before. -/
theorem walk_hop (links : Nat) {names : List Name} (hne : names ≠ []) :
    winding.walk .permissive aim (links + (k + 1)) [['d']] (hop k :: names) =
      winding.walk .permissive aim links (deep (k + 1)) names := by
  induction k generalizing names with
  | zero =>
    rw [(looksUp_hop haim h names).walk_link (find?_hop h) links (Or.inl hne), hopTarget, ofText_segment]
    exact walk_segment haim h habsolute links names
  | succ k ih =>
    have habsolute' : aim = .absolute → k < 15 := fun ha => Nat.lt_of_succ_lt (habsolute ha)
    rw [← Nat.add_assoc, (looksUp_hop haim h names).walk_link (find?_hop h) _ (Or.inl hne),
      ofText_hopTarget k (by omega)]
    calc winding.walk .permissive aim (links + (k + 1)) [['d']] (hop k :: segment :: names)
        = winding.walk .permissive aim links (deep (k + 1)) (segment :: names) :=
          ih (by omega) habsolute' (List.cons_ne_nil _ _)
      _ = winding.walk .permissive aim links (deep (k + 2)) names :=
          walk_segment haim h habsolute links names

end Walks

theorem walk_climb {aim : Aim} {k : Nat} (h : k ≤ 16) (links : Nat) (names : List Name) :
    winding.walk .permissive aim links (deep k) (List.replicate k ['.', '.'] ++ names) =
      winding.walk .permissive aim links [['d']] names := by
  induction k with
  | zero => rfl
  | succ k ih =>
    rw [List.replicate_succ, List.cons_append, (mayPass_deep aim h).walk_up]
    exact ih (by omega)

theorem searches_permissive : Searches .permissive directoryMode := ⟨rfl, rfl⟩

theorem entry_windingPath : winding.entry .permissive windingPath =
    .ok (fileName :: [['d']], .file (encode source) fileMode) := by
  refine reach_eq_ok_iff.2 ⟨_, readPath_windingPath, ?_, find?_fileName _ _⟩
  calc winding.walk .permissive .target (24 + 16) [['d']]
        (hop 15 :: (List.replicate 16 ['.', '.'] ++ [fileName]))
      = winding.walk .permissive .target 24 (deep 16) (List.replicate 16 ['.', '.'] ++ [fileName]) :=
        walk_hop (by decide) (by decide) (by simp) 24 (by simp)
    _ = winding.walk .permissive .target 24 [['d']] [fileName] := walk_climb (Nat.le_refl 16) 24 _
    _ = .ok (fileName :: [['d']]) := walk_fileName searches_permissive _ .target 24

theorem reach_absolute_windingPath :
    winding.reach .permissive .absolute windingPath = .error .nameTooLong := by
  have hfault : ∀ names, winding.lookUpFault? .permissive .absolute (deep 15) segment names =
      some .nameTooLong := by
    intro names
    have hdeep : isTooDeep (segment :: deep 15) = true := isTooDeep_deep
    simp [lookUpFault?, hdeep]
  have hwalk : ∀ names : List Name, names ≠ [] →
      winding.walk .permissive .absolute linkLimit [['d']] (hop 15 :: names) = .error .nameTooLong := by
    intro names hne
    have hlooks := looksUp_hop (show Aim.absolute ≠ .writing by decide) (show 15 < 16 by decide) names
    have hlink := hlooks.walk_link (find?_hop (by decide)) 39 (Or.inl hne)
    rw [ofText_hopTarget 14 (by decide)] at hlink
    calc winding.walk .permissive .absolute linkLimit [['d']] (hop 15 :: names)
        = winding.walk .permissive .absolute (24 + 15) [['d']] (hop 14 :: segment :: names) := hlink
      _ = winding.walk .permissive .absolute 24 (deep 15) (segment :: names) :=
          walk_hop (by decide) (by decide) (by simp) 24 (by simp)
      _ = .error .nameTooLong :=
          walk_of_fault (mayPass_deep .absolute (by decide)) isEntryName_segment (hfault names) 24
  rw [reach, locate, readPath_windingPath]
  simp only [bind, Except.bind, follow, Bool.false_eq_true, if_false]
  rw [show winding.here = [['d']] from rfl, hwalk _ (by simp)]

theorem siblingWritable_winding (content : ByteArray) :
    SiblingWritable .permissive winding fileName [['d']] content := by
  have hdir := find?_directory (hops 16) directoryMode
  have hfree : winding.find? (siblingOf fileName [['d']]) = none := by decide
  have hlooks := searches_permissive.looksUp hdir .writing (isEntryName_sibling fileName)
    (by decide)
  exact ⟨_, ⟨by decide, searches_permissive.isSearchable hdir,
    hlooks.walk_of_notLink (by rw [← siblingOf, ← winding, hfree]; simp) linkLimit,
    Or.inl ⟨hfree, rfl⟩⟩, rfl⟩

theorem not_refreshable_windingPath : ¬ Refreshable .permissive winding windingPath := by
  obtain ⟨o, hok, -⟩ := refresh_source
  rw [refreshable_iff ⟨_, _, entry_windingPath⟩ hok]
  rintro (hcontent | ⟨name, parent, bytes, mode, hreach, -⟩)
  · exact content_ne_source hok hcontent
  · rw [reach_absolute_windingPath] at hreach
    cases hreach

theorem permissive_isReliable (t : FileTree) : System.permissive.IsReliable t :=
  ⟨fun _ _ _ _ => rfl, fun _ => rfl⟩

theorem run_windingPath :
    ∃ output, (Command.run (disk .permissive) ["--update", windingPath]).run winding =
      (output, winding) ∧ output.code = 1 := by
  have hasks : Asks ["--update", windingPath] windingPath true false false :=
    ⟨_, rfl, rfl, rfl, rfl, rfl⟩
  have hexits := exits_updateFile (permissive_isReliable winding) windingPath false
  have hcode := hexits.zeroOrOne.resolve_left fun hzero =>
    not_refreshable_windingPath (hexits.success.1 hzero)
  have hleft := (hexits.failed hcode).resolve_right fun hpart =>
    not_refreshedInPart (fun _ _ => rfl) hpart.2
  rw [run_of_asks hasks]
  exact ⟨_, Prod.ext rfl hleft, hcode⟩

/-! ## A disk without room -/

/-- A system on which there is no room for the content of a file. -/
def fullDisk : System where
  grants _ _ _ := true
  fault? _ := none
  shortWrite? _ _ := some (0, .noSpace)

theorem fullDisk_isReliable (t : FileTree) : fullDisk.IsReliable t :=
  ⟨fun _ _ _ _ => rfl, fun _ => rfl⟩

theorem not_refreshable_fullDisk : ¬ Refreshable fullDisk (tree directoryMode []) "k.c" := by
  have h : Searches fullDisk directoryMode := ⟨rfl, rfl⟩
  obtain ⟨o, hok, -⟩ := refresh_source
  rw [refreshable_iff ⟨_, _, reach_fileName h [] .target⟩ hok]
  rintro (hcontent | ⟨name, parent, old, mode, -, place, -, hshort⟩)
  · exact content_ne_source hok hcontent
  · cases hshort

/-- The sibling is left beside the keymap. -/
theorem find?_sibling_of_fullDisk : ∃ content mode,
    (((disk fullDisk).refreshFile "k.c").run (tree directoryMode [])).2.find? (siblingOf fileName [['d']]) =
      some (.file content mode) := by
  have h : Searches fullDisk directoryMode := ⟨rfl, rfl⟩
  obtain ⟨o, hok, -⟩ := refresh_source
  have hopens := siblingOpens_tree h rfl
  rw [run_refreshFile, readText_fileName h [] rfl]
  simp only [hok, run_store, if_neg (content_ne_source hok), run_replace (reach_fileName h [] .absolute)]
  rw [show fullDisk.fault? _ = none from rfl]
  simp only [run_replaceAt hopens]
  exact ⟨_, _, (hopens.find?_fill _ _).trans (if_pos rfl)⟩

theorem run_fullDisk :
    ∃ output tree', (Command.run (disk fullDisk) ["--update", "k.c"]).run (tree directoryMode []) =
      (output, tree') ∧ output.code = 1 ∧ tree' ≠ tree directoryMode [] := by
  have hasks : Asks ["--update", "k.c"] "k.c" true false false := ⟨_, rfl, rfl, rfl, rfl, rfl⟩
  have hexits := exits_updateFile (fullDisk_isReliable (tree directoryMode [])) "k.c" false
  have hcode := hexits.zeroOrOne.resolve_left fun hzero =>
    not_refreshable_fullDisk (hexits.success.1 hzero)
  rw [run_of_asks hasks]
  refine ⟨_, _, rfl, hcode, fun hsame => ?_⟩
  obtain ⟨content, mode, hfind⟩ := find?_sibling_of_fullDisk
  have hfree : (tree directoryMode []).find? (siblingOf fileName [['d']]) = none := rfl
  rw [← hsame] at hfree
  exact Option.some_ne_none _ (hfind.symm.trans hfree)

end Sample

end KeyChart
