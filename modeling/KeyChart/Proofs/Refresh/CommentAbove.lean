import KeyChart.Proofs.Text.Cuts
import KeyChart.Refresh.Comment

/-!
The comment above a place, said without a search. Main statements: what is found is the last opening
before an end mark with only blanks behind it (`beforeComment?_eq_some_iff`,
`beforeComment?_eq_some_iff_last`, `beforeComment?_eq_none_iff`), and a comment that opens inside an
end part of a text is found in that part alone (`beforeComment?_append`,
`eq_append_or_lt_of_beforeComment?`).
-/

namespace KeyChart
namespace Comment

open Text

theorem beforeLast?_openMark_append {u v : Text} (hv : ¬ Holds openMark v) :
    beforeLast? openMark (u ++ openMark ++ v) = some u := by
  have hsome : (beforeLast? openMark (u ++ openMark ++ v)).isSome = true :=
    beforeLast?_isSome_of_holds ⟨u, v, rfl⟩
  obtain ⟨x, hx⟩ := Option.isSome_iff_exists.1 hsome
  obtain ⟨y, hy⟩ := eq_append_of_beforeLast? hx
  have hlen := length_le_of_beforeLast? hx rfl
  rw [List.append_assoc, List.append_assoc] at hy
  obtain ⟨z, hxz, hz⟩ : ∃ z, x = u ++ z ∧ openMark ++ v = z ++ (openMark ++ y) := by
    rcases List.append_eq_append_iff.1 hy with ⟨z, hxu, hz⟩ | ⟨z, hux, hz⟩
    · exact ⟨z, hxu, hz⟩
    · rw [hux, List.length_append] at hlen
      have hnil : z = [] := List.length_eq_zero_iff.1 (by omega)
      subst hnil
      exact ⟨[], by simpa using hux.symm, by simpa using hz.symm⟩
  -- a later opening would share a character with the first one or stand in `v`
  match z with
  | [] => rw [hx, hxz, List.append_nil]
  | [c] => cases hz
  | [c, d] =>
    cases hz
    exact absurd ⟨[], y, rfl⟩ hv
  | c :: d :: e :: z =>
    have hvz : v = e :: z ++ (openMark ++ y) := by
      simp only [openMark, String.toList, List.cons_append] at hz
      exact (List.cons.inj (List.cons.inj hz).2).2
    exact absurd ⟨e :: z, y, by rw [hvz, List.append_assoc]⟩ hv

theorem not_blank_last_append_endMark (t : Text) :
    ∀ c ∈ (t ++ endMark).getLast?, isBlank c = false := by
  intro c hc
  have hslash : (t ++ endMark).getLast? = some '/' := by
    rw [List.getLast?_append]
    rfl
  rw [hslash] at hc
  cases hc
  decide

theorem beforeComment?_eq_some_iff {t u : Text} :
    beforeComment? t = some u ↔
      ∃ v w, t = u ++ openMark ++ v ++ endMark ++ w ∧ ¬ Holds openMark v ∧ IsBlank w := by
  constructor
  · intro h
    simp only [beforeComment?, Option.bind_eq_bind, Option.bind_eq_some_iff] at h
    obtain ⟨body, hend, hopen⟩ := h
    obtain ⟨v, hv⟩ := eq_append_of_beforeLast? hopen
    obtain ⟨w, hw, ht⟩ := exists_blank_append_trimEnd t
    refine ⟨v, w, ?_, not_holds_of_beforeLast? (List.cons_ne_nil _ _) hopen hv, hw⟩
    rw [ht, before?_eq_some_iff.1 hend, hv]
  · intro hcomment
    obtain ⟨v, w, ht, hv, hw⟩ := hcomment
    simp only [beforeComment?, Option.bind_eq_bind, Option.bind_eq_some_iff]
    refine ⟨u ++ openMark ++ v, before?_eq_some_iff.2 ?_, beforeLast?_openMark_append hv⟩
    rw [ht, trimEnd_append_blank hw (not_blank_last_append_endMark _)]

/-- A text ends in one such comment at most. -/
theorem body_unique {u v w u' v' w' : Text}
    (h : u ++ openMark ++ v ++ endMark ++ w = u' ++ openMark ++ v' ++ endMark ++ w')
    (hv : ¬ Holds openMark v) (hv' : ¬ Holds openMark v') (hw : IsBlank w) (hw' : IsBlank w') :
    u = u' ∧ v = v' := by
  have hu : beforeComment? (u ++ openMark ++ v ++ endMark ++ w) = some u :=
    beforeComment?_eq_some_iff.2 ⟨v, w, rfl, hv, hw⟩
  -- the search has one answer, so both openings are at one place
  rw [beforeComment?_eq_some_iff.2 ⟨v', w', h, hv', hw'⟩, Option.some.injEq] at hu
  have htrim := congrArg trimEnd h
  rw [trimEnd_append_blank hw (not_blank_last_append_endMark _),
    trimEnd_append_blank hw' (not_blank_last_append_endMark _), hu] at htrim
  exact ⟨hu.symm, List.append_cancel_left (List.append_cancel_right htrim)⟩

/-! ## The nearest opening -/

/-- The text is `u`, a comment opening, any text, an end mark and blanks. -/
def OpensBehind (u t : Text) : Prop :=
  ∃ v w, t = u ++ openMark ++ v ++ endMark ++ w ∧ IsBlank w

/-- Of all such front parts `u` is the longest. -/
def OpensLastBehind (u t : Text) : Prop :=
  OpensBehind u t ∧ ∀ u', OpensBehind u' t → u'.length ≤ u.length

theorem beforeComment?_isSome_of_opensBehind {t u : Text} (h : OpensBehind u t) :
    ∃ x, beforeComment? t = some x ∧ u.length ≤ x.length := by
  obtain ⟨v, w, ht, hw⟩ := h
  have hsome : (beforeLast? openMark (u ++ openMark ++ v)).isSome = true :=
    beforeLast?_isSome_of_holds ⟨u, v, rfl⟩
  obtain ⟨x, hx⟩ := Option.isSome_iff_exists.1 hsome
  refine ⟨x, ?_, length_le_of_beforeLast? hx rfl⟩
  simp only [beforeComment?, Option.bind_eq_bind, Option.bind_eq_some_iff]
  refine ⟨u ++ openMark ++ v, before?_eq_some_iff.2 ?_, hx⟩
  rw [ht, trimEnd_append_blank hw (not_blank_last_append_endMark _)]

theorem opensBehind_of_beforeComment? {t u : Text} (h : beforeComment? t = some u) :
    OpensBehind u t := by
  obtain ⟨v, w, ht, _, hw⟩ := beforeComment?_eq_some_iff.1 h
  exact ⟨v, w, ht, hw⟩

theorem beforeComment?_eq_none_iff {t : Text} :
    beforeComment? t = none ↔ ∀ u, ¬ OpensBehind u t := by
  constructor
  · intro hnone u hopens
    obtain ⟨x, hx, _⟩ := beforeComment?_isSome_of_opensBehind hopens
    rw [hnone] at hx
    cases hx
  · intro hnot
    cases hx : beforeComment? t with
    | none => rfl
    | some x => exact absurd (opensBehind_of_beforeComment? hx) (hnot x)

theorem beforeComment?_eq_some_iff_last {t u : Text} :
    beforeComment? t = some u ↔ OpensLastBehind u t := by
  constructor
  · intro h
    refine ⟨opensBehind_of_beforeComment? h, fun u' hopens => ?_⟩
    obtain ⟨x, hx, hle⟩ := beforeComment?_isSome_of_opensBehind hopens
    rw [h, Option.some.injEq] at hx
    rwa [hx]
  · intro hlast
    obtain ⟨hopens, hlongest⟩ := hlast
    obtain ⟨x, hx, hle⟩ := beforeComment?_isSome_of_opensBehind hopens
    have hge := hlongest x (opensBehind_of_beforeComment? hx)
    -- both are front parts of the text and equally long
    obtain ⟨v, w, ht, _⟩ := hopens
    obtain ⟨v', w', ht', _⟩ := opensBehind_of_beforeComment? hx
    rw [ht', List.append_assoc, List.append_assoc, List.append_assoc, List.append_assoc,
      List.append_assoc, List.append_assoc] at ht
    rw [hx, (List.append_inj ht (Nat.le_antisymm hge hle)).1]

theorem OpensLastBehind.unique {t u u' : Text} (h : OpensLastBehind u t)
    (h' : OpensLastBehind u' t) : u = u' := by
  have hu := beforeComment?_eq_some_iff_last.2 h
  rwa [beforeComment?_eq_some_iff_last.2 h', Option.some.injEq, eq_comm] at hu

/-! ## Comments in the end part of a text -/

theorem beforeComment?_append {r u : Text} (h : beforeComment? r = some u) (y : Text) :
    beforeComment? (y ++ r) = some (y ++ u) := by
  obtain ⟨v, w, hr, hv, hw⟩ := beforeComment?_eq_some_iff.1 h
  refine beforeComment?_eq_some_iff.2 ⟨v, w, ?_, hv, hw⟩
  rw [hr]
  simp only [List.append_assoc]

theorem eq_append_or_lt_of_beforeComment? {y r u : Text} (h : beforeComment? (y ++ r) = some u) :
    (∃ x, u = y ++ x ∧ beforeComment? r = some x) ∨ byteSize u < byteSize y := by
  obtain ⟨v, w, hyr, hv, hw⟩ := beforeComment?_eq_some_iff.1 h
  by_cases hlt : byteSize u < byteSize y
  · exact Or.inr hlt
  · left
    simp only [List.append_assoc] at hyr
    obtain ⟨x, hu, hr⟩ := exists_append_of_byteSize_le hyr.symm (by omega)
    refine ⟨x, hu, beforeComment?_eq_some_iff.2 ⟨v, w, ?_, hv, hw⟩⟩
    rw [hr]
    simp only [List.append_assoc]

end Comment
end KeyChart
