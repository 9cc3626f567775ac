import KeyChart.Proofs.Files.Replacement
import KeyChart.Proofs.Refresh.Updates
import KeyChart.Refresh.File

/-!
The refresh of a file in a tree. Main statements: what a run comes to (`run_refreshFile`), and that a run
which writes changes the text of its file and nothing else exactly if no entry has the name of the
sibling (`refreshFile_rewritesOnly_iff`).
-/

namespace KeyChart

open FileTree

/-! ## Runs -/

section Runs

variable (sys : System) (tree : FileTree) (path : String)

theorem run_readText : ((disk sys).readText path).run.run tree = (tree.readText sys path, tree) := by
  simp only [disk, run_bind, run_get, run_lift]

theorem run_store (old : Text) (new : Outcome) :
    ((disk sys).store path old new).run tree =
      if new.content = old then ((.ok ⟨new.updated, new.skipped, false⟩, [.upToDate path]), tree)
      else
        match ((disk sys).replace path new.content).run.run tree with
        | (.error e, left) => ((.error (.notReplaced e), []), left)
        | (.ok (), left) =>
          ((.ok ⟨new.updated, new.skipped, true⟩, [.written path new.updated.length]), left) := by
  rw [Disk.store]
  split
  · rfl
  · rw [run_next]
    obtain ⟨answer, left⟩ := ((disk sys).replace path new.content).run.run tree
    cases answer with
    | error e => rfl
    | ok answer => rfl

theorem run_refreshFile :
    ((disk sys).refreshFile path).run tree =
      match tree.readText sys path with
      | .error fault => ((.error (.unreadable path fault), []), tree)
      | .ok t =>
        match refresh t with
        | .error e => ((.error (.notRefreshed e), Keymap.events t), tree)
        | .ok outcome =>
          let stored := ((disk sys).store path t outcome).run tree
          ((stored.1.1, Keymap.events t ++ (verdicts t).filterMap Verdict.event? ++ stored.1.2),
            stored.2) := by
  rw [Disk.refreshFile, run_next, run_readText]
  cases tree.readText sys path with
  | error fault => rfl
  | ok t =>
    dsimp only
    cases refresh t with
    | error e => rfl
    | ok outcome => rfl

end Runs

section Files

variable {sys : System} {tree tree' : FileTree} {path : String}

/-- A run that writes has refreshed the file's text and replaced the one by the other. -/
theorem run_refreshFile_written_iff :
    (∃ summary events, ((disk sys).refreshFile path).run tree = ((.ok summary, events), tree') ∧
        summary.written = true) ↔
      ∃ old o, tree.readText sys path = .ok old ∧ refresh old = .ok o ∧ o.content ≠ old ∧
        ((disk sys).replace path o.content).run.run tree = (.ok (), tree') := by
  constructor
  · rintro ⟨summary, events, hrun, hwritten⟩
    rw [run_refreshFile] at hrun
    cases hread : tree.readText sys path with
    | error fault =>
      rw [hread] at hrun
      cases hrun
    | ok old =>
      cases hrefresh : refresh old with
      | error e =>
        simp only [hread, hrefresh] at hrun
        cases hrun
      | ok o =>
        simp only [hread, hrefresh, run_store] at hrun
        refine ⟨old, o, rfl, hrefresh, ?_⟩
        split at hrun
        · -- the file was up to date
          cases hrun
          cases hwritten
        · next hne =>
          refine ⟨hne, ?_⟩
          cases hreplace : ((disk sys).replace path o.content).run.run tree with
          | mk answer left =>
            rw [hreplace] at hrun
            cases answer with
            | error e => cases hrun
            | ok answer =>
              cases hrun
              rfl
  · rintro ⟨old, o, hread, hrefresh, hne, hreplace⟩
    have hrun := run_refreshFile sys tree path
    simp only [hread, hrefresh, run_store, if_neg hne, hreplace] at hrun
    exact ⟨_, _, hrun, rfl⟩

/-- A run that writes changes the text of its file and nothing else exactly if no entry stands under the
sibling's name. -/
theorem refreshFile_rewritesOnly_iff {summary : Summary} {events : List Event}
    (hrun : ((disk sys).refreshFile path).run tree = ((.ok summary, events), tree'))
    (hwritten : summary.written = true) :
    ∃ name parent bytes mode old o, tree.entry sys path = .ok (name :: parent, .file bytes mode) ∧
      decode bytes = .ok old ∧ refresh old = .ok o ∧
      (RewritesOnly sys tree tree' path o.content ↔ tree.find? (siblingOf name parent) = none) := by
  obtain ⟨old, o, hread, hrefresh, _, hreplace⟩ :=
    run_refreshFile_written_iff.1 ⟨summary, events, hrun, hwritten⟩
  obtain ⟨name, parent, mode, hentry, hgranted, hreplaced⟩ := replaced_of_run_replace hread hreplace
  exact ⟨name, parent, encode old, mode, old, o, hentry, decode_encode old, hrefresh,
    rewritesOnly_iff hentry hgranted hreplaced⟩

end Files

/-! ## A file with and without an entry under the sibling's name -/

namespace Sample

theorem content_ne_source {o : Outcome} (hok : refresh source = .ok o) : o.content ≠ source := by
  have hredrawings : redrawings source =
      [⟨first.text ++ ['\n'], ['/', '*', ' ', '*', '/', ' '], second.header, second.table.tokens⟩] := by
    rw [redrawings, visits_source]
    decide
  obtain ⟨rest, hsource, hsplice⟩ := exists_splice_eq source
  rw [content_eq_splice hok, hsplice]
  intro h
  have hsame := List.append_cancel_right (h.trans hsource)
  -- the fourth character of the comment is the name's in one and the end mark's in the other
  rw [hredrawings, Redrawing.after_cons, Redrawing.before_cons, Redrawing.new, Redrawing.old,
    Diagram.draw, String.toList_ofList] at hsame
  simp [second, Header.canonical] at hsame

def fileName : Name := ['k', '.', 'c']

/-- A directory with these permission bits and a keymap, and what else there is. -/
def tree (mode : Nat) (others : List (Location × Entry)) : FileTree where
  entries := ([['d']], .directory mode) ::
    ([fileName, ['d']], .file (encode source) fileMode) :: others
  here := [['d']]

/-- The link under the sibling's name leads back to the keymap. -/
def tangled : FileTree := tree directoryMode [(siblingOf fileName [['d']], .link fileName)]

theorem readPath_fileName : readPath "k.c" = .ok ⟨false, [fileName]⟩ := by rfl

theorem ofText_fileName : Path.ofText fileName = ⟨false, [fileName]⟩ := by decide

/-- The directory of the keymap can be searched if it has these permission bits. -/
def Searches (sys : System) (mode : Nat) : Prop :=
  sys.grants .search [] directoryMode = true ∧ sys.grants .search [['d']] mode = true

theorem Searches.isSearchable {t : FileTree} {sys : System} {mode : Nat} (h : Searches sys mode)
    (hdir : t.find? [['d']] = some (.directory mode)) : t.isSearchable sys [['d']] = true := by
  simp only [FileTree.isSearchable, h.1, hdir, h.2, Bool.and_self]

theorem Searches.looksUp {t : FileTree} {sys : System} {mode : Nat} (h : Searches sys mode)
    (hdir : t.find? [['d']] = some (.directory mode)) (aim : Aim) {name : Name} (hname : IsEntryName name)
    (hshort : (String.ofList name).utf8ByteSize ≤ nameLimit) : LooksUp t sys aim [['d']] name [] := by
  have hfull : isFull (name :: [['d']]) = false := by
    have hparent : pathSize [['d']] = 2 := by rfl
    rw [nameLimit] at hshort
    rw [isFull, utf8ByteSize_path (List.cons_ne_nil _ _), pathSize, hparent, pathLimit,
      decide_eq_false_iff_not]
    omega
  exact ⟨⟨mode, hdir, by simp [h.2]⟩, hname,
    lookUpFault?_eq_none (Or.inr (List.cons_ne_nil _ _).symm) hshort fun _ =>
      ⟨h.isSearchable hdir, hfull⟩⟩

section Tree

variable {sys : System} {mode : Nat} (h : Searches sys mode) (others : List (Location × Entry))

theorem find?_directory (mode : Nat) : (tree mode others).find? [['d']] = some (.directory mode) := rfl

theorem find?_fileName (mode : Nat) :
    (tree mode others).find? (fileName :: [['d']]) = some (.file (encode source) fileMode) := rfl

include h

theorem walk_fileName (aim : Aim) (links : Nat) :
    (tree mode others).walk sys aim links [['d']] [fileName] = .ok (fileName :: [['d']]) :=
  (h.looksUp (find?_directory others mode) aim (by decide) (by decide)).walk_of_notLink
    (by simp [find?_fileName]) links

theorem reach_fileName (aim : Aim) :
    (tree mode others).reach sys aim "k.c" =
      .ok (fileName :: [['d']], .file (encode source) fileMode) :=
  reach_eq_ok_iff.2 ⟨_, readPath_fileName, walk_fileName h others aim linkLimit, find?_fileName others mode⟩

theorem readText_fileName (hread : sys.grants .read (fileName :: [['d']]) fileMode = true) :
    (tree mode others).readText sys "k.c" = .ok source :=
  readText_eq_ok_iff.2 ⟨_, _, reach_fileName h others .target, hread⟩

theorem siblingOpens_tree (hadd : sys.grants .add [['d']] mode = true) :
    SiblingOpens sys (tree mode []) fileName [['d']] (siblingOf fileName [['d']]) := by
  have hfree : (tree mode []).find? (siblingOf fileName [['d']]) = none := rfl
  have hlooks := h.looksUp (find?_directory [] mode) .writing (isEntryName_sibling fileName)
    (by decide)
  exact ⟨by decide, h.isSearchable (find?_directory [] mode),
    hlooks.walk_of_notLink (by rw [← siblingOf, hfree]; simp) linkLimit, Or.inl ⟨hfree, hadd⟩⟩

theorem replaceable_tree (hadd : sys.grants .add [['d']] mode = true)
    (hshort : ∀ place content, sys.shortWrite? place content = none) (content : ByteArray) :
    Replaceable sys (tree mode []) "k.c" content :=
  ⟨_, _, _, _, reach_fileName h [] .absolute, _, siblingOpens_tree h hadd, hshort _ _⟩

end Tree

theorem siblingOpens_tangled :
    SiblingOpens .permissive tangled fileName [['d']] (fileName :: [['d']]) := by
  have h : Searches .permissive directoryMode := ⟨rfl, rfl⟩
  have hlink : tangled.find? (siblingOf fileName [['d']]) = some (.link fileName) := by rfl
  have hdir := find?_directory [(siblingOf fileName [['d']], .link fileName)] directoryMode
  have hstep := (h.looksUp hdir .writing (isEntryName_sibling fileName) (by decide)).walk_link
    hlink 39 (Or.inr (by decide))
  rw [ofText_fileName] at hstep
  exact ⟨by decide, h.isSearchable hdir, hstep.trans (walk_fileName h _ .writing 39),
    Or.inr ⟨_, _, find?_fileName _ _, rfl⟩⟩

/-- A refresh of the file writes if its text can be replaced. -/
theorem exists_run {sys : System} {t : FileTree} (hread : t.readText sys "k.c" = .ok source)
    (hcalls : ∀ call, sys.fault? call = none) (h : ∀ content, Replaceable sys t "k.c" content) :
    ∃ summary events tree' o, ((disk sys).refreshFile "k.c").run t = ((.ok summary, events), tree') ∧
      summary.written = true ∧ refresh source = .ok o ∧
      ((disk sys).replace "k.c" o.content).run.run t = (.ok (), tree') := by
  obtain ⟨o, hok, -⟩ := refresh_source
  obtain ⟨tree', hreplace⟩ := (run_replace_ok_iff hread hcalls).2 (h (encode o.content))
  obtain ⟨summary, events, hrun, hwritten⟩ := run_refreshFile_written_iff.2
    ⟨source, o, hread, hok, content_ne_source hok, hreplace⟩
  exact ⟨summary, events, tree', o, hrun, hwritten, hok, hreplace⟩

end Sample

theorem refreshFile_rewritesOnly_sample : ∃ summary events tree' o,
    ((disk .permissive).refreshFile "k.c").run (Sample.tree directoryMode []) =
        ((.ok summary, events), tree') ∧
      summary.written = true ∧ refresh Sample.source = .ok o ∧
      RewritesOnly .permissive (Sample.tree directoryMode []) tree' "k.c" o.content := by
  have h : Sample.Searches .permissive directoryMode := ⟨rfl, rfl⟩
  obtain ⟨summary, events, tree', _, hrun, hwritten, -⟩ :=
    Sample.exists_run (Sample.readText_fileName h [] rfl) (fun _ => rfl)
      (Sample.replaceable_tree h rfl fun _ _ => rfl)
  obtain ⟨name, parent, bytes, mode, old, o, hentry, hdecode, hok, hiff⟩ :=
    refreshFile_rewritesOnly_iff hrun hwritten
  rw [entry, Sample.reach_fileName h] at hentry
  simp only [Except.ok.injEq, Prod.mk.injEq, List.cons.injEq, Entry.file.injEq] at hentry
  obtain ⟨⟨rfl, rfl⟩, rfl, rfl⟩ := hentry
  rw [decode_encode, Except.ok.injEq] at hdecode
  exact ⟨summary, events, tree', o, hrun, hwritten, hdecode ▸ hok, hiff.2 rfl⟩

/-- The link takes the place of the file that it leads to, and the text is lost. -/
theorem refreshFile_loses_text : ∃ summary events tree',
    ((disk .permissive).refreshFile "k.c").run Sample.tangled = ((.ok summary, events), tree') ∧
      summary.written = true ∧ Sample.tangled.readText .permissive "k.c" = .ok Sample.source ∧
      tree'.readText .permissive "k.c" = .error .linkLoop := by
  have h : Sample.Searches .permissive directoryMode := ⟨rfl, rfl⟩
  have hread := Sample.readText_fileName h [(siblingOf Sample.fileName [['d']], .link Sample.fileName)] rfl
  obtain ⟨summary, events, tree', o, hrun, hwritten, -, hreplace⟩ :=
    Sample.exists_run hread (fun _ => rfl) fun content =>
      ⟨_, _, _, _, Sample.reach_fileName h _ .absolute, _, Sample.siblingOpens_tangled, rfl⟩
  obtain ⟨name, parent, mode, hentry, -, hreplaced⟩ := replaced_of_run_replace hread hreplace
  rw [entry, Sample.reach_fileName h] at hentry
  simp only [Except.ok.injEq, Prod.mk.injEq, List.cons.injEq, Entry.file.injEq] at hentry
  obtain ⟨⟨rfl, rfl⟩, -, rfl⟩ := hentry
  have hlink : Sample.tangled.find? (siblingOf Sample.fileName [['d']]) = some (.link Sample.fileName) := by
    rfl
  have hfind := hreplaced.find?_of_back hlink Sample.siblingOpens_tangled.leads
  have hlooks : LooksUp tree' .permissive .target [['d']] Sample.fileName [] :=
    h.looksUp (by rw [hfind]; decide) .target (by decide) (by decide)
  have hloop := hlooks.walk_of_selfLink (by rw [hfind, if_pos rfl]) Sample.ofText_fileName
    (by decide) linkLimit
  refine ⟨summary, events, tree', hrun, hwritten, hread, ?_⟩
  have hhere : tree'.here = [['d']] := hreplaced.here
  rw [readText, readBytes, entry, reach, locate, Sample.readPath_fileName]
  simp only [bind, Except.bind, follow, hhere, Bool.false_eq_true, if_false, hloop]

end KeyChart
