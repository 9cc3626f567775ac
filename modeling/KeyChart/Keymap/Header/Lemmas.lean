import KeyChart.Keymap.Header.Basic

/-!
Headers read back. Main statements: reading takes exactly the well-formed spellings
(`read?_eq_some_iff`), and the header found in a text is the leftmost one (`first?_eq_some_iff`).
-/

namespace KeyChart
namespace Header

/-! ## Reading takes the well-formed spellings -/

theorem isGap_of_isNameChar {c : Char} (h : isNameChar c = true) : isGap c = false := by
  have hupper : c.isUpper = decide (c.val ≥ 'A'.val ∧ c.val ≤ 'Z'.val) := rfl
  simp only [isNameChar, Char.isDigit, hupper, Bool.or_eq_true, Bool.and_eq_true,
    decide_eq_true_eq, beq_iff_eq] at h
  simp only [isGap, Text.isBlank, Text.blankRuns, List.any_cons, List.any_nil, Char.toNat]
  have hn : ∀ a b : UInt32, a ≤ b → a.toNat ≤ b.toNat := fun _ _ h => h
  rcases h with (⟨h₁, h₂⟩ | ⟨h₁, h₂⟩) | rfl
  · have h₁ := hn _ _ h₁
    have h₂ := hn _ _ h₂
    simp at h₁ h₂ ⊢
    omega
  · have h₁ := hn _ _ h₁
    have h₂ := hn _ _ h₂
    simp at h₁ h₂ ⊢
    omega
  · decide

theorem eq_spelled_append_of_read? {t r : Text} {h : Header} (hr : read? t = some (h, r)) :
    t = h.spelled ++ r ∧ h.WellFormed := by
  simp only [read?, Option.bind_eq_bind, Option.bind_eq_some_iff, Text.after?_eq_some_iff] at hr
  obtain ⟨t₁, h₁, t₄, h₄, t₅, h₅, t₆, h₆, rest, h₇, hr⟩ := hr
  split at hr
  · cases hr
  · next hname =>
    cases hr
    refine ⟨?_, ⟨hname, fun _ hc => Text.mem_takeWhile hc⟩, fun _ hc => Text.mem_takeWhile hc,
      fun _ hc => Text.mem_takeWhile hc, fun _ hc => Text.mem_takeWhile hc, fun _ hc => Text.mem_takeWhile hc,
      fun _ hc => Text.mem_takeWhile hc⟩
    simp only [List.cons_append, List.nil_append] at h₁ h₄ h₅ h₇
    simp only [spelled, List.cons_append, List.nil_append, List.append_assoc]
    rw [← h₇, List.takeWhile_append_dropWhile, ← h₆, List.takeWhile_append_dropWhile, ← h₅,
      List.takeWhile_append_dropWhile, ← h₄, List.takeWhile_append_dropWhile,
      List.takeWhile_append_dropWhile, List.takeWhile_append_dropWhile, h₁]

theorem read?_spelled_append {h : Header} (wf : h.WellFormed) (r : Text) :
    read? (h.spelled ++ r) = some (h, r) := by
  obtain ⟨name, g₁, g₂, g₃, g₄, g₅⟩ := h
  obtain ⟨⟨hne, hname⟩, h₁, h₂, h₃, h₄, h₅⟩ := wf
  dsimp only at hne hname h₁ h₂ h₃ h₄ h₅
  have stop : ∀ (c : Char) (v : Text), isGap c = false →
      ∀ d ∈ (c :: v).head?, isGap d = false := by
    intro c v hc d hd
    cases hd
    exact hc
  have k₅ := Text.takeWhile_append_stop h₅ (stop '(' r (by decide))
  have k₄ : (g₄ ++ (word ++ (g₅ ++ '(' :: r))).takeWhile isGap = g₄ ∧
      (g₄ ++ (word ++ (g₅ ++ '(' :: r))).dropWhile isGap = word ++ (g₅ ++ '(' :: r) :=
    Text.takeWhile_append_stop h₄ (stop 'L' ("AYOUT".toList ++ (g₅ ++ '(' :: r)) (by decide))
  have k₃ := Text.takeWhile_append_stop h₃ (stop '=' (g₄ ++ (word ++ (g₅ ++ '(' :: r))) (by decide))
  let r₂ := g₃ ++ '=' :: (g₄ ++ (word ++ (g₅ ++ '(' :: r)))
  have k₂ := Text.takeWhile_append_stop h₂ (stop ']' r₂ (by decide))
  have kn : (name ++ (g₂ ++ ']' :: r₂)).takeWhile isNameChar = name ∧
      (name ++ (g₂ ++ ']' :: r₂)).dropWhile isNameChar = g₂ ++ ']' :: r₂ := by
    refine Text.takeWhile_append_stop hname ?_
    intro c hc
    cases hn : isNameChar c with
    | false => rfl
    | true =>
      cases g₂ with
      | nil => cases hc; revert hn; decide
      | cons d g =>
        cases hc
        rw [← isGap_of_isNameChar hn]
        exact (h₂ _ List.mem_cons_self).symm
  have k₁ : (g₁ ++ (name ++ (g₂ ++ ']' :: r₂))).takeWhile isGap = g₁ ∧
      (g₁ ++ (name ++ (g₂ ++ ']' :: r₂))).dropWhile isGap = name ++ (g₂ ++ ']' :: r₂) := by
    refine Text.takeWhile_append_stop h₁ ?_
    intro c hc
    cases name with
    | nil => exact absurd rfl hne
    | cons d n =>
      cases hc
      exact isGap_of_isNameChar (hname _ List.mem_cons_self)
  have aft : ∀ (m : Char) (v : Text), Text.after? [m] (m :: v) = some v :=
    fun m v => Text.after?_eq_some_iff.2 rfl
  simp only [spelled, List.cons_append, List.append_assoc, List.nil_append]
  simp only [read?, Option.bind_eq_bind, aft, Option.bind_some]
  rw [k₁.2, k₁.1, kn.1, kn.2, k₂.1, k₂.2]
  simp only [aft, Option.bind_some, r₂]
  rw [k₃.1, k₃.2]
  simp only [aft, Option.bind_some]
  rw [k₄.1, k₄.2, Text.after?_eq_some_iff.2 rfl, Option.bind_some, k₅.1, k₅.2]
  simp only [aft, Option.bind_some, if_neg hne]

theorem read?_eq_some_iff {t r : Text} {h : Header} :
    read? t = some (h, r) ↔ t = h.spelled ++ r ∧ h.WellFormed := by
  refine ⟨eq_spelled_append_of_read?, ?_⟩
  intro ⟨ht, wf⟩
  rw [ht]
  exact read?_spelled_append wf r

/-! ## The first header is the leftmost -/

theorem first?_eq_some_iff {t lead rest : Text} {h : Header} :
    first? t = some (lead, h, rest) ↔
      t = lead ++ (h.spelled ++ rest) ∧ h.WellFormed ∧
        ∀ u c v, lead = u ++ c :: v → read? (c :: v ++ (h.spelled ++ rest)) = none := by
  induction t generalizing lead with
  | nil =>
    simp only [first?, reduceCtorEq, false_iff]
    intro ⟨ht, _⟩
    have hlen := congrArg List.length ht
    simp [spelled] at hlen
  | cons c t ih =>
    cases hr : read? (c :: t) with
    | some p =>
      obtain ⟨h', r⟩ := p
      obtain ⟨ht, wf⟩ := read?_eq_some_iff.1 hr
      simp only [first?, hr, Option.some.injEq, Prod.mk.injEq]
      constructor
      · intro ⟨hl, hh, hrest⟩
        subst hl hh hrest
        exact ⟨ht, wf, fun u c v hv => by simp at hv⟩
      · intro ⟨ht', wf', hnone⟩
        cases lead with
        | nil =>
          rw [ht', List.nil_append, read?_spelled_append wf'] at hr
          simp only [Option.some.injEq, Prod.mk.injEq] at hr
          exact ⟨rfl, hr.1.symm, hr.2.symm⟩
        | cons d lead =>
          have hd := hnone [] d lead rfl
          rw [← ht', hr] at hd
          cases hd
    | none =>
      simp only [first?, hr, Option.map_eq_some_iff, Prod.exists, Prod.mk.injEq]
      constructor
      · intro ⟨l, h', r, hf, hl, hh, hrest⟩
        subst hl hh hrest
        obtain ⟨ht, wf, hnone⟩ := ih.1 hf
        refine ⟨by rw [ht]; rfl, wf, ?_⟩
        intro u d v hv
        cases u with
        | nil =>
          simp only [List.nil_append, List.cons.injEq] at hv
          rw [← hv.1, ← hv.2, List.cons_append, ← ht]
          exact hr
        | cons e u =>
          simp only [List.cons_append, List.cons.injEq] at hv
          exact hnone u d v hv.2
      · intro ⟨ht, wf, hnone⟩
        cases lead with
        | nil =>
          rw [ht, List.nil_append, read?_spelled_append wf] at hr
          cases hr
        | cons d lead =>
          simp only [List.cons_append, List.cons.injEq] at ht
          refine ⟨lead, h, rest, ih.2 ⟨ht.2, wf, ?_⟩, by rw [ht.1], rfl, rfl⟩
          intro u e v hv
          exact hnone (d :: u) e v (by rw [hv]; rfl)

theorem length_lt_of_first? {t lead rest : Text} {h : Header}
    (hf : first? t = some (lead, h, rest)) : rest.length < t.length := by
  have hlen := congrArg List.length (first?_eq_some_iff.1 hf).1
  simp only [spelled, List.length_append, List.length_cons] at hlen
  omega

end Header
end KeyChart
