import KeyChart.Proofs.Refresh.Reach
import KeyChart.Proofs.Refresh.Survival

/-!
What a refresh removes. The comment above a declaration is looked for by its marks alone, from the end
mark back to the nearest opening, so an end mark in a line comment may make a pair with an opening far
above. Main statement: an update removes one comment for each updated layer, and no earlier declaration
but those inside that comment, exactly if the text above each updated layer ends in a comment without
further marks and no edit reaches back (`removes_comments_iff`).
-/

namespace KeyChart

open Text Comment

/-- A text ends in a comment that holds no further mark, blanks behind it aside. -/
def EndsInComment (t : Text) : Prop :=
  ∃ u v w, t = u ++ openMark ++ v ++ endMark ++ w ∧ ¬ Holds openMark v ∧ ¬ Holds endMark v ∧
    IsBlank w

/-- The edit of an updated layer replaces a comment that holds no further mark, blanks and the header
of the layer. -/
def ReplacesComment (t : Text) (u : Layer × Edit) : Prop :=
  ∃ body w, within u.2.span t = openMark ++ body ++ endMark ++ w ++ within u.1.declaration t ∧
    ¬ Holds openMark body ∧ ¬ Holds endMark body ∧ IsBlank w

/-- Each declaration before an updated layer ends in front of its edit or lies in the replaced
comment. -/
def SparesDeclarations (t : Text) (u : Layer × Edit) : Prop :=
  ∀ extent ∈ Keymap.extents t, extent.start < u.1.declaration.start →
    extent.stop ≤ u.2.span.start ∨
      u.2.span.start < extent.start ∧ extent.stop ≤ u.1.declaration.start

theorem exists_site_of_mem_updates {t : Text} {u : Layer × Edit} (hu : u ∈ updates t) :
    ∃ p ∈ Redrawing.sites [] (redrawings t),
      u = (p.2.layer (lineStarts t) p.1, p.2.edit .abbreviated p.1) := by
  rw [updates_eq_map_sites] at hu
  obtain ⟨p, hp, hpu⟩ := List.mem_map.1 hu
  exact ⟨p, hp, hpu.symm⟩

theorem replacesComment_iff {t : Text} {u : Layer × Edit} (hu : u ∈ updates t) :
    ReplacesComment t u ↔ EndsInComment (takeBytes u.1.declaration.start t) := by
  obtain ⟨p, hp, rfl⟩ := exists_site_of_mem_updates hu
  obtain ⟨⟨x, w, hcomment, hopen, hblank⟩, _⟩ :=
    isCommented_of_mem_plan (mem_redrawings_of_mem_sites hp)
  rw [ReplacesComment, EndsInComment, within_declaration hp, within_span hp, takeBytes_declaration hp,
    Redrawing.old]
  constructor
  · intro hreplaces
    obtain ⟨body, w', hbody, hnot, hend, hw'⟩ := hreplaces
    refine ⟨p.1, body, w', ?_, hnot, hend, hw'⟩
    rw [List.append_cancel_right hbody]
    simp only [List.append_assoc]
  · intro hends
    obtain ⟨u', body, w', heq, hnot, hend, hw'⟩ := hends
    rw [hcomment, ← List.append_assoc, ← List.append_assoc, ← List.append_assoc] at heq
    obtain ⟨_, rfl⟩ := body_unique heq hopen hnot hblank hw'
    exact ⟨x, w, by rw [hcomment], hopen, hend, hblank⟩

/-- An edit that does not start inside an earlier declaration spares it or has it in its comment. -/
theorem sparesDeclarations_iff {t : Text} {u : Layer × Edit} (hu : u ∈ updates t) :
    SparesDeclarations t u ↔ ∀ extent ∈ Keymap.extents t, ¬ reachesInto u extent := by
  have hlayer : u.1 ∈ Keymap.declared t :=
    (List.mem_filter.1 ((sublist_layers t).subset (List.mem_map_of_mem hu))).1
  rw [declared_eq_map_sites] at hlayer
  obtain ⟨s', hs', hsu⟩ := List.mem_map.1 hlayer
  have hstart : u.1.declaration.start = byteSize s'.1 := by rw [← hsu]; rfl
  constructor
  · intro h extent hextent hreach
    rw [reachesInto, Bool.and_eq_true, Bool.and_eq_true, decide_eq_true_iff, decide_eq_true_iff,
      decide_eq_true_iff] at hreach
    rcases h extent hextent hreach.1.1 with hstop | hin
    · omega
    · omega
  · intro h extent hextent hlt
    have hnot := h extent hextent
    rw [reachesInto, Bool.and_eq_true, Bool.and_eq_true, decide_eq_true_iff, decide_eq_true_iff,
      decide_eq_true_iff] at hnot
    rw [Keymap.extents_eq_map_sites] at hextent
    obtain ⟨s, hs, rfl⟩ := List.mem_map.1 hextent
    -- the declaration ends before the header of the updated layer, so only its start matters
    have hstop := Visit.extent_stop_le_of_mem_sites hs hs' (by rw [← hstart]; exact hlt)
    rw [hstart] at hnot hlt ⊢
    omega

theorem removes_comments_iff (t : Text) :
    (∀ u ∈ updates t, ReplacesComment t u ∧ SparesDeclarations t u) ↔
      (∀ u ∈ updates t, EndsInComment (takeBytes u.1.declaration.start t)) ∧ ¬ ReachesBack t := by
  constructor
  · intro h
    refine ⟨fun u hu => (replacesComment_iff hu).1 (h u hu).1, ?_⟩
    intro hback
    obtain ⟨u, hu, extent, hextent, hreach⟩ := hback
    exact (sparesDeclarations_iff hu).1 (h u hu).2 extent hextent hreach
  · intro hwhen u hu
    obtain ⟨hcomment, hreach⟩ := hwhen
    refine ⟨(replacesComment_iff hu).2 (hcomment u hu), (sparesDeclarations_iff hu).2 ?_⟩
    intro extent hextent hinto
    exact hreach ⟨u, hu, extent, hextent, hinto⟩

/-! ## A declaration that is taken for a comment -/

namespace Sample

/-- A comment and a declaration with one key. -/
def commented : Visit where
  gap := ['/', '*', ' ', 'a', ' ', '*', '/', '\n']
  header := Header.canonical ['A']
  table := first.table

/-- An end mark in a line comment, and a declaration with a key for each physical one. -/
def misread : Visit := { second with gap := [' ', '/', '/', ' ', '*', '/', '\n'] }

def misreadSource : Text := commented.text ++ (misread.text ++ ['\n'])

theorem visits_misreadSource : Keymap.visits misreadSource = [commented, misread] :=
  visits_pair (show Header.Bare _ by decide) (wellFormed_canonical rfl) (by decide +kernel)
    ⟨by decide, by decide⟩ (wellFormed_canonical rfl) (by decide +kernel)

/-- What stands between the first opening and the last end mark before the second declaration. -/
def misreadBody : Text :=
  [' ', 'a', ' ', '*', '/', '\n'] ++ (commented.header.spelled ++ commented.table.text) ++
    [' ', '/', '/', ' ']

/-- The redrawing of the second declaration, whose comment is all the text before it. -/
def misreading : Redrawing where
  kept := []
  comment := openMark ++ misreadBody ++ endMark ++ ['\n']
  header := misread.header
  tokens := misread.table.tokens

theorem redrawings_misreadSource : redrawings misreadSource = [misreading] := by
  rw [redrawings, visits_misreadSource]
  decide

theorem not_reachesBack_misreadSource : ¬ ReachesBack misreadSource := by
  rw [reachesBack_iff, redrawings_misreadSource, visits_misreadSource]
  decide

theorem not_endsInComment_misread : ¬ EndsInComment misreading.comment := by
  intro hends
  obtain ⟨u, v, w, heq, hopen, hend, hw⟩ := hends
  have hbody : ¬ Holds openMark misreadBody := by
    intro hholds
    have hsome := beforeLast?_isSome_of_holds hholds
    revert hsome
    decide
  have hblank : IsBlank ['\n'] := by
    intro c hc
    rw [List.mem_singleton.1 hc]
    decide
  -- the body of any such comment is the one that the search found, and it holds an end mark
  obtain ⟨_, rfl⟩ := @body_unique [] misreadBody ['\n'] u v w heq hbody hopen hblank hw
  exact hend ⟨[' ', 'a', ' '], _, rfl⟩

end Sample

theorem removes_declaration_misread : ∃ o, refresh Sample.misreadSource = .ok o ∧
    o.updated = [['B']] ∧ ⟨['A'], .keyCount 1⟩ ∈ o.skipped ∧
    (Keymap.layers o.content).map Layer.contents = [(['B'], List.replicate 58 ['K'])] ∧
    ∃ u ∈ updates Sample.misreadSource, ¬ ReplacesComment Sample.misreadSource u := by
  have hlayers : Keymap.layers Sample.misreadSource =
      [Sample.commented.layer (lineStarts Sample.misreadSource) Sample.commented.gap,
        Sample.misread.layer (lineStarts Sample.misreadSource)
          (Sample.commented.text ++ Sample.misread.gap)] := by
    rw [Keymap.layers, declared_eq_map_sites, Sample.visits_misreadSource]
    rfl
  have hok : refresh Sample.misreadSource = .ok _ :=
    refresh_eq_ok_iff.2 ⟨by rw [hlayers]; exact List.cons_ne_nil _ _, rfl⟩
  have hsite : ([], Sample.misreading) ∈ Redrawing.sites [] (redrawings Sample.misreadSource) := by
    rw [Sample.redrawings_misreadSource]
    exact List.mem_cons_self
  refine ⟨_, hok, ?_, ?_, ?_, _, mem_updates_of_mem_sites hsite, ?_⟩
  · rw [updated_eq hok, Sample.redrawings_misreadSource]
    rfl
  · have hverdict : Verdict.skipped (Sample.commented.layer (lineStarts Sample.misreadSource)
        Sample.commented.gap) (.keyCount 1) ∈ verdicts Sample.misreadSource := by
      rw [verdicts, hlayers, Verdict.judge, Layer.edit_eq_error_of_keyCount (by decide)]
      exact List.mem_cons_self
    exact List.mem_filterMap.2 ⟨_, hverdict, rfl⟩
  · rw [content_eq_splice hok, layers_splice .abbreviated Sample.not_reachesBack_misreadSource,
      map_contents_unhidden, Sample.redrawings_misreadSource, Sample.visits_misreadSource]
    decide
  · rw [replacesComment_iff (mem_updates_of_mem_sites hsite), takeBytes_declaration hsite]
    exact Sample.not_endsInComment_misread

end KeyChart
