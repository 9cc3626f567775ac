import KeyChart.Proofs.Keymap.Tokens
import KeyChart.Proofs.Refresh.Classification

/-!
Sources made of blocks, one block a layer: a comment, the header on the next line, and the table.
Main statement: a refresh of such a source changes the comments of the layers with a key for each
physical one, each into its diagram, and nothing else (`refresh_blocks`).
-/

namespace KeyChart

open Text Comment Header

/-- A layer as it is written in a source; `body` stands between the marks of its comment. -/
structure Block where
  name : Text
  body : Text
  tokens : List Text

namespace Block

/-- The comment opens once, no header stands in it, and the table has keys. The body may hold an end
mark. -/
structure WellFormed (b : Block) : Prop where
  name : IsName b.name
  opensOnce : ¬ Holds openMark b.body
  bare : Bare b.body
  tokens_ne_nil : b.tokens ≠ []
  isToken : ∀ token ∈ b.tokens, IsToken token

def comment (b : Block) : Text := openMark ++ b.body ++ endMark

/-- What stands between a table and the next block. -/
def separator : Text := [',', '\n']

/-- The declaration of the layer, with a comment on the lines above it. -/
def below (comment : Text) (b : Block) : Text :=
  comment ++ '\n' :: ((canonical b.name).spelled ++ (Table.joined b.tokens ++ [')']))

def written (b : Block) : Text := b.below b.comment ++ separator

/-- The comment that the block has after a refresh. -/
def freshComment (b : Block) : Text := (Diagram.draw? b.name b.tokens).getD b.comment

def redrawn (b : Block) : Text := b.below b.freshComment ++ separator

/-- Why the layer is skipped, if it is. -/
def reason? (b : Block) : Option SkipReason :=
  if b.tokens.length = 58 then none else some (.keyCount b.tokens.length)

/-- The visit of a reading that comes to the block behind a text without headers. -/
def visit (lead : Text) (b : Block) : Visit where
  gap := lead ++ b.comment ++ ['\n']
  header := canonical b.name
  table := ⟨Table.joined b.tokens ++ [')'], b.tokens, true⟩

theorem text_visit (lead : Text) (b : Block) : (b.visit lead).text = lead ++ b.below b.comment := by
  simp only [visit, Visit.text, below, List.append_assoc, List.singleton_append]

theorem freshComment_of_ne {b : Block} (h : b.tokens.length ≠ 58) : b.freshComment = b.comment := by
  rw [freshComment, Diagram.draw?_eq_none_iff.2 h, Option.getD_none]

theorem freshComment_of_eq {b : Block} (h : b.tokens.length = 58) :
    b.freshComment = Diagram.draw b.name (Diagram.keyLabel b.tokens) := by
  rw [freshComment, Diagram.draw?_of_length h, Option.getD_some]

/-! ## Reading -/

namespace WellFormed

variable {b : Block}

theorem bare_comment (h : b.WellFormed) : Bare (b.comment ++ ['\n']) := by
  have hmarks : Bare (b.body ++ '*' :: ['/', '\n']) :=
    h.bare.append_stop (bare_of_length_lt (by decide)) (by decide)
  have hopen : Bare (openMark ++ (b.body ++ '*' :: ['/', '\n'])) :=
    hmarks.append_left (by rw [openMark_eq]; decide)
  rw [comment, endMark_eq, List.append_assoc, List.append_assoc]
  exact hopen

theorem bare_gap (h : b.WellFormed) {lead : Text} (hlead : Bare lead) :
    Bare (b.visit lead).gap := by
  have hcomment := h.bare_comment
  rw [comment, openMark_eq] at hcomment
  rw [visit, comment, openMark_eq, List.append_assoc]
  exact hlead.append_stop hcomment (by decide)

theorem admits_separator (h : b.WellFormed) : Place.tableEnd.Admits (b.visit separator).gap := by
  have hgap : (b.visit separator).gap = ',' :: '\n' :: (b.comment ++ ['\n']) := rfl
  rw [hgap]
  exact ⟨List.mem_cons_of_mem _ List.mem_cons_self, h.bare_comment⟩

theorem visit_of_admits (h : b.WellFormed) {p : Place} {lead after : Text} {vs : List Visit}
    (hgap : p.Admits (b.visit lead).gap) (hlater : Visits .tableEnd after vs) :
    Visits p ((b.visit lead).text ++ after) (b.visit lead :: vs) :=
  .visit hgap (wellFormed_canonical h.name) (Table.read_joined h.tokens_ne_nil h.isToken after) hlater

/-- The text before the comment is where the search for it ends. -/
theorem beforeComment?_gap (h : b.WellFormed) (since lead : Text) :
    beforeComment? (since ++ (b.visit lead).gap) = some (since ++ lead) := by
  refine beforeComment?_eq_some_iff.2 ⟨b.body, ['\n'], ?_, h.opensOnce, isBlank_singleton (by decide)⟩
  rw [visit, comment]
  simp only [List.append_assoc]

end WellFormed

/-- Blocks, each with the text in front of it. -/
abbrev Led := List (Text × Block)

def visits (blocks : Led) : List Visit := blocks.map fun q => q.2.visit q.1

/-- Blocks of which all but the first stand behind a separator. -/
def led (lead : Text) : List Block → Led
  | [] => []
  | b :: bs => (lead, b) :: led separator bs

theorem mem_of_mem_led {lead : Text} {blocks : List Block} {q : Text × Block}
    (h : q ∈ led lead blocks) : q.2 ∈ blocks := by
  induction blocks generalizing lead with
  | nil => cases h
  | cons b bs ih =>
    rw [led, List.mem_cons] at h
    rcases h with rfl | h
    · exact List.mem_cons_self
    · exact List.mem_cons_of_mem _ (ih h)

theorem map_led {α : Type} (f : Block → α) (lead : Text) (blocks : List Block) :
    (led lead blocks).map (fun q => f q.2) = blocks.map f := by
  induction blocks generalizing lead with
  | nil => rfl
  | cons b bs ih => rw [led, List.map_cons, ih, List.map_cons]

/-- The separator behind each block is as well the text in front of the next one. -/
theorem flatMap_led (f : Block → Text) (lead : Text) (b : Block) (bs : List Block) :
    lead ++ (b :: bs).flatMap (fun b => f b ++ separator) =
      (led lead (b :: bs)).flatMap (fun q => q.1 ++ f q.2) ++ separator := by
  induction bs generalizing lead b with
  | nil => simp [led]
  | cons b' bs ih =>
    have hled : led lead (b :: b' :: bs) = (lead, b) :: led separator (b' :: bs) := rfl
    calc lead ++ (b :: b' :: bs).flatMap (fun b => f b ++ separator)
        = lead ++ f b ++ (separator ++ (b' :: bs).flatMap fun b => f b ++ separator) := by
          rw [List.flatMap_cons]
          simp only [List.append_assoc]
      _ = (led lead (b :: b' :: bs)).flatMap (fun q => q.1 ++ f q.2) ++ separator := by
          rw [ih separator b', hled, List.flatMap_cons]
          simp only [List.append_assoc]

theorem flatMap_text_visits (blocks : Led) :
    (visits blocks).flatMap Visit.text = blocks.flatMap fun q => q.1 ++ q.2.below q.2.comment := by
  simp only [visits, List.flatMap_map, text_visit]

section Reading

variable {pre suf : Text} {blocks : List Block}

theorem visits_led_separator (hsuf : Bare suf) (hblocks : ∀ b ∈ blocks, b.WellFormed) :
    Visits .tableEnd ((visits (led separator blocks)).flatMap Visit.text ++ (separator ++ suf))
      (visits (led separator blocks)) := by
  induction blocks with
  | nil => exact .none hsuf
  | cons b bs ih =>
    have hb := hblocks b List.mem_cons_self
    rw [led, visits, List.map_cons, List.flatMap_cons, List.append_assoc]
    exact hb.visit_of_admits hb.admits_separator (ih fun b hb => hblocks b (List.mem_cons_of_mem _ hb))

theorem source_eq (hne : blocks ≠ []) : pre ++ blocks.flatMap written ++ suf =
    (visits (led pre blocks)).flatMap Visit.text ++ (separator ++ suf) := by
  obtain ⟨b, bs, rfl⟩ := List.exists_cons_of_ne_nil hne
  rw [flatMap_text_visits, ← List.append_assoc, ← flatMap_led fun b => b.below b.comment]
  rfl

/-- A reading of the source comes to every block. -/
theorem visits_source (hpre : Bare pre) (hsuf : Bare suf) (hne : blocks ≠ [])
    (hblocks : ∀ b ∈ blocks, b.WellFormed) :
    Keymap.visits (pre ++ blocks.flatMap written ++ suf) = visits (led pre blocks) := by
  rw [source_eq hne]
  obtain ⟨b, bs, rfl⟩ := List.exists_cons_of_ne_nil hne
  have hb := hblocks b List.mem_cons_self
  have hlater := visits_led_separator hsuf fun b hb => hblocks b (List.mem_cons_of_mem _ hb)
  apply Visits.eq_visits
  rw [led, visits, List.map_cons, List.flatMap_cons, List.append_assoc]
  exact hb.visit_of_admits (hb.bare_gap hpre) hlater

end Reading

/-! ## Redrawing -/

theorem kept?_visit {b : Block} (h : b.WellFormed) (hcount : b.tokens.length = 58)
    (since lead : Text) : (b.visit lead).kept? since = some (since ++ lead) :=
  Visit.kept?_eq_some_iff.2 ⟨hcount, h.beforeComment?_gap since lead⟩

/-- A plan of blocks draws the diagram of every block that has one. -/
theorem after_plan {blocks : Led} (hblocks : ∀ q ∈ blocks, q.2.WellFormed) (since : Text) :
    Redrawing.after .abbreviated (plan since (visits blocks)).1 ++ (plan since (visits blocks)).2 =
      since ++ blocks.flatMap fun q => q.1 ++ q.2.below q.2.freshComment := by
  induction blocks generalizing since with
  | nil => simp [visits, plan]
  | cons q qs ih =>
    obtain ⟨lead, b⟩ := q
    have hb := hblocks (lead, b) List.mem_cons_self
    have hqs := fun since => ih (fun q hq => hblocks q (List.mem_cons_of_mem _ hq)) since
    rw [visits, List.map_cons, ← visits, List.flatMap_cons]
    by_cases hcount : b.tokens.length = 58
    · obtain ⟨comment, _, _, hplan⟩ := plan_cons_of_some (kept?_visit hb hcount since lead) (visits qs)
      rw [hplan, Redrawing.after_cons, List.append_assoc _ (Redrawing.after _ _), hqs,
        freshComment_of_eq hcount]
      simp only [Redrawing.new, Labelling.abbreviated, visit, canonical, below, List.append_assoc,
        List.cons_append]
    · have hnone : (b.visit lead).kept? since = none := if_neg hcount
      rw [plan_cons_of_none hnone, hqs, text_visit, freshComment_of_ne hcount, List.append_assoc]

/-- The verdict on every block goes by the number of its keys alone. -/
theorem map_judge (lineStarts : Array Nat) {blocks : Led} (hblocks : ∀ q ∈ blocks, q.2.WellFormed)
    {t before tail : Text} {free : Nat}
    (ht : t = before ++ ((visits blocks).flatMap Visit.text ++ tail)) (hfree : free ≤ byteSize before) :
    (Verdict.judge t free ((Visit.sites before (visits blocks)).map
        fun s => s.2.layer lineStarts s.1)).map (fun v => (v.layer.name, v.reason?)) =
      blocks.map fun q => (q.2.name, q.2.reason?) := by
  induction blocks generalizing before free with
  | nil => rfl
  | cons q qs ih =>
    obtain ⟨lead, b⟩ := q
    have hb := hblocks (lead, b) List.mem_cons_self
    have hqs := @ih (fun q hq => hblocks q (List.mem_cons_of_mem _ hq)) (before ++ (b.visit lead).text)
    rw [visits, List.map_cons, ← visits, List.flatMap_cons] at ht
    rw [visits, List.map_cons, ← visits, Visit.sites, List.map_cons, List.map_cons, Verdict.judge]
    rw [List.append_assoc, ← List.append_assoc before] at ht
    by_cases hcount : b.tokens.length = 58
    · obtain ⟨comment, hgap, _, _⟩ := plan_cons_of_some (kept?_visit hb hcount before lead) []
      have htext : t = [] ++ (before ++ (b.visit lead).gap) ++ ((b.visit lead).header.spelled ++
          ((b.visit lead).table.text ++ ((visits qs).flatMap Visit.text ++ tail))) := by
        rw [ht, Visit.text]
        simp only [List.append_assoc, List.nil_append]
      have he := Visit.edit_layer_of_some lineStarts htext (kept?_visit hb hcount before lead) hgap
      rw [List.nil_append] at he
      have hstart : ¬ byteSize (before ++ lead) < free := by
        rw [byteSize_append]
        omega
      simp only [he, Redrawing.edit, List.nil_append, if_neg hstart, List.map_cons]
      rw [hqs ht]
      · simp only [reason?, if_pos hcount]
        rfl
      · -- the edit ends with the header
        rw [← hgap]
        simp only [Visit.text, byteSize_append]
        omega
    · have he : ((b.visit lead).layer lineStarts (before ++ (b.visit lead).gap)).edit t = _ :=
        Layer.edit_eq_error_of_keyCount hcount
      simp only [he, List.map_cons]
      rw [hqs ht]
      · simp only [reason?, if_neg hcount]
        rfl
      · rw [byteSize_append]
        omega

/-! ## The refreshed source -/

/-- The verdicts on blocks as a report lists them. -/
theorem filterMap_reason? (blocks : List Block) :
    (blocks.map fun b => (b.name, b.reason?)).filterMap
        (fun entry => entry.2.map fun reason => (⟨entry.1, reason⟩ : Skipped)) =
      (blocks.filter fun b => b.tokens.length ≠ 58).map
        fun b => ⟨b.name, .keyCount b.tokens.length⟩ := by
  induction blocks with
  | nil => rfl
  | cons b bs ih =>
    rw [List.map_cons]
    by_cases hcount : b.tokens.length = 58
    · rw [List.filterMap_cons_none (by rw [reason?, if_pos hcount]; rfl), ih,
        List.filter_cons_of_neg (by simp [hcount])]
    · rw [List.filterMap_cons_some (by rw [reason?, if_neg hcount]; rfl), ih,
        List.filter_cons_of_pos (by simp [hcount]), List.map_cons]

theorem filter_reason?_eq_none (blocks : List Block) :
    ((blocks.map fun b => (b.name, b.reason?)).filter fun entry => entry.2 = none).map Prod.fst =
      (blocks.filter fun b => b.tokens.length = 58).map name := by
  rw [List.filter_map, List.map_map]
  have hnone : ∀ b : Block, b.reason? = none ↔ b.tokens.length = 58 := by
    intro b
    rw [reason?]
    split <;> simp_all
  simp only [Function.comp_def, hnone]

section Refresh

variable {pre suf : Text} {blocks : List Block}

theorem layers_source (hpre : Bare pre) (hsuf : Bare suf) (hne : blocks ≠ [])
    (hblocks : ∀ b ∈ blocks, b.WellFormed) :
    Keymap.layers (pre ++ blocks.flatMap written ++ suf) =
      (Visit.sites [] (visits (led pre blocks))).map
        fun s => s.2.layer (lineStarts (pre ++ blocks.flatMap written ++ suf)) s.1 := by
  rw [Keymap.layers, declared_eq_map_sites, visits_source hpre hsuf hne hblocks,
    List.filter_eq_self]
  intro l hl
  obtain ⟨s, hs, rfl⟩ := List.mem_map.1 hl
  obtain ⟨vs₁, vs₂, hvs, _⟩ := Visit.exists_append_of_mem_sites hs
  -- each visit is one of a block, whose table is not empty
  have hmem : s.2 ∈ visits (led pre blocks) := hvs ▸ List.mem_append_right vs₁ List.mem_cons_self
  obtain ⟨q, hq, hqs⟩ := List.mem_map.1 hmem
  rw [decide_eq_true_iff, ← hqs]
  exact (hblocks q.2 (mem_of_mem_led hq)).tokens_ne_nil

theorem map_verdicts (hpre : Bare pre) (hsuf : Bare suf) (hne : blocks ≠ [])
    (hblocks : ∀ b ∈ blocks, b.WellFormed) :
    (verdicts (pre ++ blocks.flatMap written ++ suf)).map (fun v => (v.layer.name, v.reason?)) =
      blocks.map fun b => (b.name, b.reason?) := by
  rw [verdicts, layers_source hpre hsuf hne hblocks,
    map_judge _ (fun q hq => hblocks q.2 (mem_of_mem_led hq)) (source_eq hne) (Nat.zero_le _)]
  exact map_led (fun b => (b.name, b.reason?)) pre blocks

theorem splice_source (hpre : Bare pre) (hsuf : Bare suf) (hne : blocks ≠ [])
    (hblocks : ∀ b ∈ blocks, b.WellFormed) :
    Edit.splice (editsWith .abbreviated (pre ++ blocks.flatMap written ++ suf))
        (pre ++ blocks.flatMap written ++ suf) =
      pre ++ blocks.flatMap redrawn ++ suf := by
  have hvisits := visits_source hpre hsuf hne hblocks
  have hled : ∀ q ∈ led pre blocks, q.2.WellFormed := fun q hq => hblocks q.2 (mem_of_mem_led hq)
  have hafter := after_plan hled []
  have hsource : pre ++ blocks.flatMap written ++ suf = _ := source_eq hne
  rw [← hvisits] at hsource
  rw [splice_editsWith .abbreviated hsource, redrawings, hvisits, ← List.append_assoc, hafter, List.nil_append, ← List.append_assoc]
  obtain ⟨b, bs, rfl⟩ := List.exists_cons_of_ne_nil hne
  rw [← flatMap_led fun b => b.below b.freshComment]
  rfl

end Refresh
end Block

/-- A source of blocks, between texts without headers: exactly the comments of the blocks with a key for
each physical one give way to diagrams, and the report lists those blocks and the others. -/
theorem refresh_blocks {pre suf : Text} {blocks : List Block} (hpre : Bare pre) (hsuf : Bare suf)
    (hne : blocks ≠ []) (hblocks : ∀ b ∈ blocks, b.WellFormed) :
    ∃ o, refresh (pre ++ blocks.flatMap Block.written ++ suf) = .ok o ∧
      o.content = pre ++ blocks.flatMap Block.redrawn ++ suf ∧
      o.updated = (blocks.filter fun b => b.tokens.length = 58).map Block.name ∧
      o.skipped = (blocks.filter fun b => b.tokens.length ≠ 58).map
        fun b => ⟨b.name, .keyCount b.tokens.length⟩ := by
  have hentries := Block.map_verdicts hpre hsuf hne hblocks
  have hlayers : Keymap.layers (pre ++ blocks.flatMap Block.written ++ suf) ≠ [] := by
    rw [← map_layer_verdicts]
    intro hnil
    rw [List.map_eq_nil_iff.1 hnil] at hentries
    exact hne (List.map_eq_nil_iff.1 hentries.symm)
  refine ⟨_, refresh_eq_ok_iff.2 ⟨hlayers, rfl⟩, ?_, ?_, ?_⟩
  · rw [content_eq_splice (refresh_eq_ok_iff.2 ⟨hlayers, rfl⟩),
      Block.splice_source hpre hsuf hne hblocks]
  · rw [Outcome.ofVerdicts, filterMap_updatedName?_eq, ← Block.filter_reason?_eq_none, ← hentries,
      List.filter_map, List.map_map]
    rfl
  · rw [Outcome.ofVerdicts, ← Block.filterMap_reason?, ← hentries, List.filterMap_map]
    rfl

/-! ## A source of two blocks -/

namespace Sample

/-- A layer with one key, whose keycode goes over two lines and holds a comma. -/
def shortBlock : Block where
  name := ['A']
  body := ['\n', 'a', '\n']
  tokens := [['L', 'T', '(', '1', ',', '\n', 'K', ')']]

/-- A layer with a key for each physical one below an empty comment. -/
def fullBlock : Block := ⟨['B'], [], List.replicate 58 ['K']⟩

theorem wellFormed_shortBlock : shortBlock.WellFormed where
  name := Header.isName_singleton (by decide)
  opensOnce := openMark_eq ▸ not_holds_of_not_mem_left (by decide)
  bare := Header.bare_of_length_lt (by decide)
  tokens_ne_nil := List.cons_ne_nil _ _
  isToken := by
    intro token htoken
    rw [List.mem_singleton.1 htoken]
    exact ⟨List.cons_ne_nil _ _, by decide, by decide, not_holds_of_not_mem_left (by decide),
      openMark_eq ▸ not_holds_of_not_mem_left (by decide)⟩

theorem wellFormed_fullBlock : fullBlock.WellFormed where
  name := Header.isName_singleton (by decide)
  opensOnce := openMark_eq ▸ not_holds_of_not_mem_left (by decide)
  bare := Header.bare_nil
  tokens_ne_nil := List.cons_ne_nil _ _
  isToken := by
    intro token htoken
    rw [List.eq_of_mem_replicate htoken]
    exact ⟨List.cons_ne_nil _ _, by decide, by decide, not_holds_of_not_mem_left (by decide),
      openMark_eq ▸ not_holds_of_not_mem_left (by decide)⟩

end Sample

theorem refresh_blocks_sample :
    ∃ o, refresh (['\n'] ++ [Sample.shortBlock, Sample.fullBlock].flatMap Block.written ++ ['}']) =
        .ok o ∧
      o.content =
        ['\n'] ++ [Sample.shortBlock, Sample.fullBlock].flatMap Block.redrawn ++ ['}'] ∧
      o.updated = [['B']] ∧ o.skipped = [⟨['A'], .keyCount 1⟩] := by
  obtain ⟨o, hok, hcontent, hupdated, hskipped⟩ :=
    @refresh_blocks ['\n'] ['}'] [Sample.shortBlock, Sample.fullBlock]
      (Header.bare_of_length_lt (by decide)) (Header.bare_of_length_lt (by decide))
      (List.cons_ne_nil _ _) (by
        simp only [List.forall_mem_cons, List.not_mem_nil, false_implies, implies_true, and_true]
        exact ⟨Sample.wellFormed_shortBlock, Sample.wellFormed_fullBlock⟩)
  exact ⟨o, hok, hcontent, hupdated, hskipped⟩

end KeyChart
