import KeyChart.Text.Blank

/-!
Marks at the ends of a text and inside it. Main statements: each search says where its mark stands
(`after?_eq_some_iff`, `before?_eq_some_iff`, `eq_append_of_beforeLast?`), and the text before the last
mark is the longest text before any (`length_le_of_beforeLast?`).
-/

namespace KeyChart
namespace Text

/-- What follows `mark` at the start of a text. -/
def after? : Text → Text → Option Text
  | [], t => some t
  | _ :: _, [] => none
  | m :: mark, c :: t => if m = c then after? mark t else none

/-- What comes before `mark` at the end of a text. -/
def before? (mark t : Text) : Option Text :=
  (after? mark.reverse t.reverse).map List.reverse

/-- What comes before the last place where `mark` stands. -/
def beforeLast? (mark : Text) : Text → Option Text
  | [] => if mark = [] then some [] else none
  | c :: t =>
    match beforeLast? mark t with
    | some u => some (c :: u)
    | none => if (after? mark (c :: t)).isSome then some [] else none

/-- What comes before the first `c`, and what follows it. -/
def cutAt? (c : Char) : Text → Option (Text × Text)
  | [] => none
  | d :: t => if d = c then some ([], t) else (cutAt? c t).map fun p => (d :: p.1, p.2)

/-- The text holds `mark` somewhere. -/
def Holds (mark t : Text) : Prop := ∃ u v, t = u ++ mark ++ v

/-! ## Runs of characters -/

theorem mem_takeWhile {p : Char → Bool} {t : Text} {c : Char} (h : c ∈ t.takeWhile p) :
    p c = true :=
  List.all_eq_true.1 List.all_takeWhile c h

theorem takeWhile_append_stop {p : Char → Bool} {u v : Text} (hu : ∀ c ∈ u, p c = true)
    (hv : ∀ c ∈ v.head?, p c = false) :
    (u ++ v).takeWhile p = u ∧ (u ++ v).dropWhile p = v := by
  induction u with
  | nil =>
    cases v with
    | nil => exact ⟨rfl, rfl⟩
    | cons c r =>
      have hc : p c = false := hv c rfl
      rw [List.nil_append, List.takeWhile_cons_of_neg (by simp [hc]),
        List.dropWhile_cons_of_neg (by simp [hc])]
      exact ⟨rfl, rfl⟩
  | cons c u ih =>
    have hc := hu c List.mem_cons_self
    have h := ih fun d hd => hu d (List.mem_cons_of_mem _ hd)
    rw [List.cons_append, List.takeWhile_cons_of_pos hc, List.dropWhile_cons_of_pos hc, h.1, h.2]
    exact ⟨rfl, rfl⟩

/-! ## Where the marks stand -/

theorem after?_eq_some_iff {mark t r : Text} : after? mark t = some r ↔ t = mark ++ r := by
  induction mark generalizing t with
  | nil => simp [after?, eq_comm]
  | cons m mark ih =>
    cases t with
    | nil => simp [after?]
    | cons c t =>
      by_cases h : m = c
      · simp [after?, h, ih]
      · simp [after?, h, Ne.symm h]

theorem before?_eq_some_iff {mark t r : Text} : before? mark t = some r ↔ t = r ++ mark := by
  simp only [before?, Option.map_eq_some_iff, after?_eq_some_iff]
  constructor
  · rintro ⟨s, hs, rfl⟩
    have h := congrArg List.reverse hs
    simpa using h
  · rintro rfl
    exact ⟨r.reverse, by simp, by simp⟩

theorem eq_append_of_beforeLast? {mark t u : Text} (h : beforeLast? mark t = some u) :
    ∃ v, t = u ++ mark ++ v := by
  induction t generalizing u with
  | nil =>
    simp only [beforeLast?] at h
    split at h
    · cases h; exact ⟨[], by simp_all⟩
    · cases h
  | cons c t ih =>
    simp only [beforeLast?] at h
    split at h
    · next w hw =>
      cases h
      obtain ⟨v, hv⟩ := ih hw
      exact ⟨v, by simp [hv]⟩
    · split at h
      · next hs =>
        cases h
        obtain ⟨r, hr⟩ := Option.isSome_iff_exists.1 hs
        exact ⟨r, by simpa using after?_eq_some_iff.1 hr⟩
      · cases h

theorem beforeLast?_isSome_of_holds {mark t : Text} (h : Holds mark t) :
    (beforeLast? mark t).isSome = true := by
  induction t with
  | nil =>
    obtain ⟨u, v, h⟩ := h
    have hm : mark = [] := by
      have := congrArg List.length h
      simp at this
      exact List.length_eq_zero_iff.1 (by omega)
    simp [beforeLast?, hm]
  | cons c t ih =>
    obtain ⟨u, v, h⟩ := h
    simp only [beforeLast?]
    cases u with
    | nil =>
      split
      · rfl
      · rw [h, List.nil_append, after?_eq_some_iff.2 rfl]
        rfl
    | cons d u =>
      simp only [List.cons_append, List.cons.injEq] at h
      obtain ⟨w, hw⟩ := Option.isSome_iff_exists.1 (ih ⟨u, v, h.2⟩)
      simp [hw]

theorem length_le_of_beforeLast? {mark t u w v : Text} (h : beforeLast? mark t = some u)
    (ht : t = w ++ mark ++ v) : w.length ≤ u.length := by
  induction t generalizing u w with
  | nil =>
    have hlen := congrArg List.length ht
    simp only [List.length_append, List.length_nil] at hlen
    omega
  | cons c t ih =>
    cases w with
    | nil => exact Nat.zero_le _
    | cons d w =>
      simp only [List.cons_append, List.cons.injEq] at ht
      have hsome := beforeLast?_isSome_of_holds ⟨w, v, ht.2⟩
      simp only [beforeLast?] at h
      split at h
      · next x hx =>
        cases h
        exact Nat.succ_le_succ (ih hx ht.2)
      · next hx =>
        rw [hx] at hsome
        cases hsome

theorem cutAt?_eq_some_iff {c : Char} {t u v : Text} :
    cutAt? c t = some (u, v) ↔ t = u ++ c :: v ∧ c ∉ u := by
  induction t generalizing u with
  | nil => simp [cutAt?]
  | cons d t ih =>
    by_cases h : d = c
    · subst h
      simp only [cutAt?, if_true, Option.some.injEq, Prod.mk.injEq]
      constructor
      · rintro ⟨rfl, rfl⟩
        simp
      · rintro ⟨he, hc⟩
        cases u with
        | nil => simp_all
        | cons e u => simp_all
    · simp only [cutAt?, if_neg h, Option.map_eq_some_iff, Prod.mk.injEq]
      constructor
      · rintro ⟨⟨a, b⟩, hab, rfl, rfl⟩
        obtain ⟨rfl, hc⟩ := ih.1 hab
        simp [hc, Ne.symm h]
      · rintro ⟨he, hc⟩
        cases u with
        | nil => simp_all
        | cons e u =>
          simp only [List.cons_append, List.cons.injEq] at he
          refine ⟨(u, v), ih.2 ⟨he.2, fun hm => hc (List.mem_cons_of_mem _ hm)⟩, by simp [he.1], rfl⟩

end Text
end KeyChart
