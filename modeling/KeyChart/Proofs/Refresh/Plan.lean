import KeyChart.Proofs.Diagram.Shape
import KeyChart.Proofs.Keymap.Visits
import KeyChart.Proofs.Refresh.CommentAbove
import KeyChart.Refresh.Edit

/-!
What a refresh redraws, said of the text since the last redrawing only. A visit is redrawn if it has a
key for each physical one and a comment above it that opens behind the last redrawing. Main
statements: a plan and what is left behind it are the whole text (`plan_text`), each redrawing replaces
a comment, blanks and a header (`isCommented_of_mem_plan`), and one splice of its edits keeps the texts
between them (`splice_edits`).
-/

namespace KeyChart

open Text Comment

/-- One visit that is redrawn: the text kept since the last one, the comment with the blanks behind
it, the header, and the keys. -/
structure Redrawing where
  kept : Text
  comment : Text
  header : Header
  tokens : List Text
  deriving DecidableEq, Repr

/-- A choice of the labels to draw for a layer with this name and these keys. -/
abbrev Labelling := Text → List Text → Fin Diagram.keyCount → Text

/-- The labelling of a refresh. -/
def Labelling.abbreviated : Labelling := fun _ tokens => Diagram.keyLabel tokens

namespace Redrawing

def old (r : Redrawing) : Text := r.comment ++ r.header.spelled

def new (label : Labelling) (r : Redrawing) : Text :=
  Diagram.draw r.header.name (label r.header.name r.tokens) ++
    '\n' :: (Header.canonical r.header.name).spelled

/-- The text that redrawings cover. -/
def before (rs : List Redrawing) : Text := rs.flatMap fun r => r.kept ++ r.old

/-- The same text once it is redrawn. -/
def after (label : Labelling) (rs : List Redrawing) : Text := rs.flatMap fun r => r.kept ++ r.new label

/-- Redrawings with the text in front of each comment, for a text with `front` in front of it. -/
def sites (front : Text) : List Redrawing → List (Text × Redrawing)
  | [] => []
  | r :: rs => (front ++ r.kept, r) :: sites (front ++ (r.kept ++ r.old)) rs

def layer (r : Redrawing) (lineStarts : Array Nat) (front : Text) : Layer where
  name := r.header.name
  tokens := r.tokens
  line := lineAt lineStarts (byteSize (front ++ r.comment))
  declaration := ⟨byteSize (front ++ r.comment),
    byteSize (front ++ r.comment) + byteSize r.header.spelled⟩

def edit (r : Redrawing) (label : Labelling) (front : Text) : Edit where
  span := ⟨byteSize front, byteSize (front ++ r.comment) + byteSize r.header.spelled⟩
  replacement := r.new label

/-- What is replaced is one opening, a text without one, an end mark, blanks and a header. -/
def IsCommented (r : Redrawing) : Prop :=
  ∃ v w, r.comment = openMark ++ v ++ endMark ++ w ∧ ¬ Holds openMark v ∧ IsBlank w

@[simp] theorem before_nil : before [] = [] := rfl

@[simp] theorem before_cons (r : Redrawing) (rs : List Redrawing) :
    before (r :: rs) = r.kept ++ r.old ++ before rs := List.flatMap_cons

@[simp] theorem after_nil (label : Labelling) : after label [] = [] := rfl

@[simp] theorem after_cons (label : Labelling) (r : Redrawing) (rs : List Redrawing) :
    after label (r :: rs) = r.kept ++ r.new label ++ after label rs := List.flatMap_cons

theorem before_append (rs rs' : List Redrawing) : before (rs ++ rs') = before rs ++ before rs' := by
  simp [before]

theorem sites_append (front : Text) (rs rs' : List Redrawing) :
    sites front (rs ++ rs') = sites front rs ++ sites (front ++ before rs) rs' := by
  induction rs generalizing front with
  | nil => simp [sites]
  | cons r rs ih => simp [sites, ih]

theorem map_snd_sites (front : Text) (rs : List Redrawing) :
    (sites front rs).map Prod.snd = rs := by
  induction rs generalizing front with
  | nil => rfl
  | cons r rs ih => rw [sites, List.map_cons, ih]

theorem exists_append_of_mem_sites {front : Text} {rs : List Redrawing} {p : Text × Redrawing}
    (h : p ∈ sites front rs) : ∃ rs₁ rs₂, rs = rs₁ ++ p.2 :: rs₂ ∧
      p.1 = front ++ before rs₁ ++ p.2.kept := by
  induction rs generalizing front with
  | nil => cases h
  | cons r rs ih =>
    rw [sites, List.mem_cons] at h
    rcases h with rfl | h
    · exact ⟨[], rs, rfl, by simp⟩
    · obtain ⟨rs₁, rs₂, hrs, hp⟩ := ih h
      exact ⟨r :: rs₁, rs₂, by rw [hrs]; rfl, by rw [hp]; simp⟩

theorem byteSize_front_le {front : Text} {rs : List Redrawing} {p : Text × Redrawing}
    (h : p ∈ sites front rs) : byteSize front ≤ byteSize p.1 := by
  obtain ⟨rs₁, rs₂, _, hp⟩ := exists_append_of_mem_sites h
  rw [hp]
  simp only [byteSize_append]
  omega

theorem spliceFrom_edits (label : Labelling) (front rest : Text) (rs : List Redrawing) :
    Edit.spliceFrom (byteSize front) ((sites front rs).map fun p => p.2.edit label p.1)
        (before rs ++ rest) = after label rs ++ rest := by
  induction rs generalizing front with
  | nil => rfl
  | cons r rs ih =>
    have hedit : r.edit label (front ++ r.kept) =
        ⟨⟨byteSize front + byteSize r.kept, byteSize front + byteSize (r.kept ++ r.old)⟩,
          r.new label⟩ := by
      simp only [edit, old, byteSize_append, Nat.add_assoc]
    have hnext : byteSize front + byteSize (r.kept ++ r.old) =
        byteSize (front ++ (r.kept ++ r.old)) := by simp
    rw [sites, List.map_cons, hedit, before_cons, List.append_assoc, Edit.splice_cons_append, hnext,
      ih, after_cons, List.append_assoc (r.kept ++ r.new label)]

theorem splice_edits (label : Labelling) (rest : Text) (rs : List Redrawing) :
    Edit.splice ((sites [] rs).map fun p => p.2.edit label p.1) (before rs ++ rest) =
      after label rs ++ rest :=
  spliceFrom_edits label [] rest rs

end Redrawing

/-! ## The plan -/

/-- The text from `since` up to the comment of a visit that is to be redrawn. -/
def Visit.kept? (since : Text) (v : Visit) : Option Text :=
  if v.table.tokens.length = Diagram.keyCount then beforeComment? (since ++ v.gap) else none

/-- The redrawings that visits ask for and the text behind the last one, given the text between the
last redrawing before them and the first of them. -/
def plan (since : Text) : List Visit → List Redrawing × Text
  | [] => ([], since)
  | v :: vs =>
    match v.kept? since with
    | none => plan (since ++ v.text) vs
    | some kept =>
      let later := plan v.table.text vs
      (⟨kept, (since ++ v.gap).drop kept.length, v.header, v.table.tokens⟩ :: later.1, later.2)

theorem plan_cons_of_none {since : Text} {v : Visit} (h : v.kept? since = none) (vs : List Visit) :
    plan since (v :: vs) = plan (since ++ v.text) vs := by
  rw [plan, h]

theorem Visit.kept?_eq_some_iff {since kept : Text} {v : Visit} :
    v.kept? since = some kept ↔
      v.table.tokens.length = Diagram.keyCount ∧ beforeComment? (since ++ v.gap) = some kept := by
  rw [kept?]
  split <;> simp_all

/-- A visit with a comment gives the redrawing of that comment, and the plan begins anew behind its
header. -/
theorem plan_cons_of_some {since kept : Text} {v : Visit} (h : v.kept? since = some kept)
    (vs : List Visit) : ∃ comment, since ++ v.gap = kept ++ comment ∧
      Redrawing.IsCommented ⟨kept, comment, v.header, v.table.tokens⟩ ∧
      plan since (v :: vs) =
        (⟨kept, comment, v.header, v.table.tokens⟩ :: (plan v.table.text vs).1,
          (plan v.table.text vs).2) := by
  obtain ⟨x, w, hx, hnot, hw⟩ := beforeComment?_eq_some_iff.1 (Visit.kept?_eq_some_iff.1 h).2
  refine ⟨openMark ++ x ++ endMark ++ w, by simpa using hx, ⟨x, w, rfl, hnot, hw⟩, ?_⟩
  rw [plan, h, hx]
  simp only [List.append_assoc, List.drop_left]

/-- What a plan covers and what is left behind it are the whole text. -/
theorem plan_text (since : Text) (vs : List Visit) :
    Redrawing.before (plan since vs).1 ++ (plan since vs).2 = since ++ vs.flatMap Visit.text := by
  induction vs generalizing since with
  | nil => simp [plan]
  | cons v vs ih =>
    cases h : v.kept? since with
    | none => rw [plan_cons_of_none h, ih, List.flatMap_cons, List.append_assoc]
    | some kept =>
      obtain ⟨comment, hgap, _, hplan⟩ := plan_cons_of_some h vs
      let later := plan v.table.text vs
      calc Redrawing.before (plan since (v :: vs)).1 ++ (plan since (v :: vs)).2
          = kept ++ comment ++ v.header.spelled ++ (Redrawing.before later.1 ++ later.2) := by
            rw [hplan, Redrawing.before_cons, Redrawing.old]
            simp only [List.append_assoc, later]
        _ = since ++ v.gap ++ v.header.spelled ++ (v.table.text ++ vs.flatMap Visit.text) := by
            rw [ih, hgap]
        _ = since ++ (v :: vs).flatMap Visit.text := by
            rw [List.flatMap_cons, Visit.text]
            simp only [List.append_assoc]

theorem isCommented_of_mem_plan {since : Text} {vs : List Visit} {r : Redrawing}
    (h : r ∈ (plan since vs).1) : r.IsCommented ∧ r.tokens.length = Diagram.keyCount := by
  induction vs generalizing since with
  | nil => cases h
  | cons v vs ih =>
    cases hv : v.kept? since with
    | none =>
      rw [plan_cons_of_none hv] at h
      exact ih h
    | some kept =>
      obtain ⟨comment, _, hcomment, hplan⟩ := plan_cons_of_some hv vs
      rw [hplan, List.mem_cons] at h
      rcases h with rfl | h
      · exact ⟨hcomment, (Visit.kept?_eq_some_iff.1 hv).1⟩
      · exact ih h

/-- The sites of visits, cut at one that is redrawn; `front` is the text up to the last redrawing. -/
theorem Visit.sites_append_cons {front since : Text} {pending : List Visit} {v : Visit}
    {r : Redrawing} (hheader : r.header = v.header)
    (hcomment : since ++ pending.flatMap text ++ v.gap = r.kept ++ r.comment) (vs : List Visit) :
    sites (front ++ since) (pending ++ v :: vs) =
      sites (front ++ since) pending ++ (front ++ (r.kept ++ r.comment), v) ::
        sites (front ++ (r.kept ++ r.old) ++ v.table.text) vs := by
  rw [sites_append, sites, Redrawing.old, ← List.append_assoc r.kept, ← hcomment, hheader]
  simp only [text, List.append_assoc]

end KeyChart
