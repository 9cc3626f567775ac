import KeyChart.Keymap.Header.Lemmas

/-!
Bare texts: those that no header stands in. Main statements: the first header of a text is the one
behind its longest bare front part (`first?_eq_some_iff_bare`), parts of a bare text are bare
(`Bare.left`, `Bare.right`), and bare texts stay bare when they are joined at a character that no
header has (`Bare.append_stop`).
-/

namespace KeyChart
namespace Header

/-- No header stands in the text. -/
def Bare (t : Text) : Prop := first? t = none

instance (t : Text) : Decidable (Bare t) := inferInstanceAs (Decidable (first? t = none))

/-- A character that occurs in headers. -/
def hasChar (c : Char) : Bool := isGap c || isNameChar c || "[]=(".toList.contains c

/-! ## The characters of a header -/

theorem hasChar_of_mem_spelled {h : Header} (wf : h.WellFormed) {c : Char} (hc : c ∈ h.spelled) :
    hasChar c = true := by
  have gap : ∀ {g : Text}, IsGap g → c ∈ g → hasChar c = true := by
    intro g hg hm
    simp [hasChar, hg c hm]
  simp only [spelled, List.mem_cons, List.mem_append, List.not_mem_nil, or_false] at hc
  rcases hc with rfl | hc | hc | hc | rfl | hc | rfl | hc | hc | hc | rfl
  · decide
  · exact gap wf.beforeName hc
  · simp [hasChar, wf.name.2 c hc]
  · exact gap wf.afterName hc
  · decide
  · exact gap wf.beforeSign hc
  · decide
  · exact gap wf.afterSign hc
  · -- the word is made of capitals
    have hword : word.all hasChar = true := by decide
    exact List.all_eq_true.1 hword c hc
  · exact gap wf.beforeParen hc
  · decide

theorem length_spelled_ge {h : Header} (wf : h.WellFormed) : 11 ≤ h.spelled.length := by
  have hname := List.length_pos_iff.2 wf.name.1
  have hword : word.length = 6 := by decide
  simp only [spelled, List.length_append, List.length_cons, List.length_nil, hword]
  omega

theorem isName_singleton {c : Char} (h : isNameChar c = true) : IsName [c] := by
  refine ⟨List.cons_ne_nil _ _, fun d hd => ?_⟩
  rwa [List.mem_singleton.1 hd]

theorem wellFormed_canonical {name : Text} (h : IsName name) : (canonical name).WellFormed := by
  have none : IsGap [] := fun _ hc => absurd hc List.not_mem_nil
  have one : IsGap [' '] := by
    intro c hc
    rw [List.mem_singleton.1 hc]
    decide
  exact ⟨h, none, none, one, one, none⟩

theorem spelled_ne_nil (h : Header) : h.spelled ≠ [] := List.cons_ne_nil _ _

theorem spelled_eq_cons (h : Header) : ∃ t, h.spelled = '[' :: t := ⟨_, rfl⟩

/-- The bracket that opens a header is its only one. -/
theorem not_mem_tail_spelled {h : Header} (wf : h.WellFormed) : '[' ∉ h.spelled.tail := by
  have gap : ∀ {g : Text}, IsGap g → '[' ∉ g := by
    intro g hg hm
    have hb := hg _ hm
    revert hb
    decide
  have name : '[' ∉ h.name := by
    intro hm
    have hb := wf.name.2 _ hm
    revert hb
    decide
  have hword : '[' ∉ word := by decide
  simp only [spelled, List.tail_cons, List.mem_append, List.mem_cons, List.not_mem_nil, or_false,
    gap wf.beforeName, gap wf.afterName, gap wf.beforeSign, gap wf.afterSign, gap wf.beforeParen,
    name, hword, false_or]
  decide

/-! ## Where a header stands -/

theorem bare_iff {t : Text} :
    Bare t ↔ ∀ (u : Text) (h : Header) (r : Text), h.WellFormed → t ≠ u ++ (h.spelled ++ r) := by
  constructor
  · intro hb u h r wf ht
    -- a header found before `h` would do as well, so the search cannot fail on the way
    induction u generalizing t with
    | nil =>
      obtain ⟨s, hs⟩ := spelled_eq_cons h
      have hread := read?_spelled_append wf r
      rw [Bare, ht, List.nil_append, hs, List.cons_append, first?, ← List.cons_append, ← hs,
        hread] at hb
      cases hb
    | cons c u ih =>
      rw [Bare, ht, List.cons_append, first?] at hb
      split at hb
      · cases hb
      · exact ih (Option.map_eq_none_iff.1 hb) rfl
  · intro hne
    cases hf : first? t with
    | none => exact hf
    | some p =>
      obtain ⟨lead, h, rest⟩ := p
      obtain ⟨ht, wf, _⟩ := first?_eq_some_iff.1 hf
      exact absurd ht (hne lead h rest wf)

/-! ## Bare texts and their parts -/

theorem bare_nil : Bare [] := rfl

theorem Bare.left {u v : Text} (hb : Bare (u ++ v)) : Bare u := by
  refine bare_iff.2 fun a h r wf hu => ?_
  apply bare_iff.1 hb a h (r ++ v) wf
  rw [hu, List.append_assoc, List.append_assoc]

theorem Bare.right {u v : Text} (hb : Bare (u ++ v)) : Bare v := by
  refine bare_iff.2 fun a h r wf hv => ?_
  apply bare_iff.1 hb (u ++ a) h r wf
  rw [hv, List.append_assoc]

theorem bare_of_length_lt {t : Text} (ht : t.length < 11) : Bare t := by
  refine bare_iff.2 fun a h r wf he => ?_
  have hlen := congrArg List.length he
  have hge := length_spelled_ge wf
  simp only [List.length_append] at hlen
  omega

theorem Bare.cons {t : Text} (hb : Bare t) {c : Char} (hc : c ≠ '[') : Bare (c :: t) := by
  refine bare_iff.2 fun a h r wf he => ?_
  cases a with
  | nil =>
    obtain ⟨s, hs⟩ := spelled_eq_cons h
    rw [hs, List.nil_append, List.cons_append] at he
    exact hc (List.cons.inj he).1
  | cons d a =>
    rw [List.cons_append] at he
    exact bare_iff.1 hb a h r wf (List.cons.inj he).2

theorem Bare.append_left {v : Text} (hb : Bare v) {u : Text} (hu : '[' ∉ u) : Bare (u ++ v) := by
  induction u with
  | nil => exact hb
  | cons c u ih =>
    rw [List.mem_cons, not_or] at hu
    exact (ih hu.2).cons (Ne.symm hu.1)

theorem Bare.append_stop {u v : Text} {c : Char} (hu : Bare u) (hv : Bare (c :: v))
    (hc : hasChar c = false) : Bare (u ++ c :: v) := by
  refine bare_iff.2 fun a h r wf he => ?_
  rcases List.append_eq_append_iff.1 he with ⟨x, _, hx⟩ | ⟨x, hua, hx⟩
  · exact bare_iff.1 hv x h r wf hx
  rcases List.append_eq_append_iff.1 hx with ⟨y, hxs, _⟩ | ⟨y, hs, hy⟩
  · exact bare_iff.1 hu a h y wf (by rw [hua, hxs])
  · -- what is left of the header after `u` is nothing or begins with `c`
    cases y with
    | nil =>
      rw [List.append_nil] at hs
      exact bare_iff.1 hu a h [] wf (by rw [hua, hs, List.append_nil])
    | cons d y =>
      rw [List.cons_append] at hy
      obtain ⟨rfl, -⟩ := List.cons.inj hy
      have hm := hasChar_of_mem_spelled wf (hs ▸ List.mem_append_right x List.mem_cons_self)
      rw [hc] at hm
      cases hm

/-! ## The first header -/

theorem read?_append_spelled_of_bare {c : Char} {v r : Text} {h : Header} (hb : Bare (c :: v)) :
    read? (c :: v ++ (h.spelled ++ r)) = none := by
  cases hr : read? (c :: v ++ (h.spelled ++ r)) with
  | none => rfl
  | some p =>
    obtain ⟨h', r'⟩ := p
    obtain ⟨he, wf'⟩ := read?_eq_some_iff.1 hr
    exfalso
    rcases List.append_eq_append_iff.1 he with ⟨x, hs', hx⟩ | ⟨x, hcv, _⟩
    · -- the header would have to hold the bracket of the one behind it
      cases x with
      | nil =>
        rw [List.append_nil] at hs'
        exact bare_iff.1 hb [] h' [] wf' (by rw [hs', List.append_nil, List.nil_append])
      | cons d x =>
        obtain ⟨s, hs⟩ := spelled_eq_cons h
        rw [hs, List.cons_append, List.cons_append] at hx
        have htail : '[' ∈ h'.spelled.tail := by
          rw [hs', List.cons_append, List.tail_cons, (List.cons.inj hx).1]
          exact List.mem_append_right v List.mem_cons_self
        exact not_mem_tail_spelled wf' htail
    · exact bare_iff.1 hb [] h' x wf' hcv

theorem first?_eq_some_iff_bare {t lead rest : Text} {h : Header} :
    first? t = some (lead, h, rest) ↔
      t = lead ++ (h.spelled ++ rest) ∧ h.WellFormed ∧ Bare lead := by
  rw [first?_eq_some_iff]
  constructor
  · intro hfirst
    obtain ⟨ht, wf, hnone⟩ := hfirst
    refine ⟨ht, wf, bare_iff.2 fun u h' r' wf' hl => ?_⟩
    obtain ⟨s, hs⟩ := spelled_eq_cons h'
    have hn := hnone u '[' (s ++ r') (by rw [hl, hs]; rfl)
    have hread := read?_spelled_append wf' (r' ++ (h.spelled ++ rest))
    rw [hs] at hread
    simp only [List.cons_append, List.append_assoc] at hn hread
    rw [hn] at hread
    cases hread
  · intro hsplit
    obtain ⟨ht, wf, hb⟩ := hsplit
    refine ⟨ht, wf, fun u c v hl => ?_⟩
    rw [hl] at hb
    exact read?_append_spelled_of_bare hb.right

end Header
end KeyChart
