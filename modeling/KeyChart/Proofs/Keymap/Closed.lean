import KeyChart.Keymap.Table

/-!
Closed tables. Main statements: a table with its closing parenthesis reads the same before any text
(`Table.read_append_of_closed`), and one without it takes in all that follows
(`Table.text_of_not_closed`).
-/

namespace KeyChart

namespace Cut

/-- A scan of `t` ends where `r` begins, and it would end there before any other text. -/
def StopsBefore (region : Region) (depth : Nat) (t r : Text) : Prop :=
  ∃ u, u ≠ [] ∧ t = u ++ r ∧
    ∀ s, scan region depth (u ++ s) = { scan region depth t with rest := some s }

/-- A scan that reads some characters, looks at no more than one behind them and goes on. -/
theorem StopsBefore.step {region region' : Region} {depth depth' : Nat} {t r : Text}
    (h : StopsBefore region depth t r) (front : Text) (f : Cut → Cut)
    (hf : ∀ cut s, f { cut with rest := s } = { f cut with rest := s })
    (hstep : ∀ s, s.head? = t.head? → scan region' depth' (front ++ s) = f (scan region depth s)) :
    StopsBefore region' depth' (front ++ t) r := by
  obtain ⟨u, hu, ht, hs⟩ := h
  refine ⟨front ++ u, by simp [hu], by rw [ht, List.append_assoc], fun s => ?_⟩
  obtain ⟨c, v, rfl⟩ := List.exists_cons_of_ne_nil hu
  have hhead : (c :: v ++ s).head? = t.head? := by rw [ht]; rfl
  rw [List.append_assoc, hstep _ hhead, hs s, hf, hstep t rfl]

theorem stopsBefore_of_rest {region : Region} {depth : Nat} {t r : Text}
    (h : (scan region depth t).rest = some r) : StopsBefore region depth t r := by
  have same : ∀ (cut : Cut) (s : Option Text),
      id { cut with rest := s } = { id cut with rest := s } := fun _ _ => rfl
  -- a pattern of two characters that `t` does not begin is begun by no text with its first character
  have other : ∀ {a c d : Char} {t s : Text}, s.head? = t.head? →
      (∀ v, c = a → t = d :: v → False) → ∀ v, c = a → s = d :: v → False := by
    intro a c d t s hst ht v hc hs
    rw [hs, List.head?_cons, eq_comm, List.head?_eq_some_iff] at hst
    obtain ⟨w, hw⟩ := hst
    exact ht w hc hw
  fun_induction scan region depth t with
  | case1 => cases h
  | case2 depth t ih =>
    exact (ih h).step ['\n'] id same fun s _ => by rw [List.cons_append, scan, if_pos rfl]; rfl
  | case3 depth c t hc ih =>
    exact (ih h).step [c] id same fun s _ => by rw [List.cons_append, scan, if_neg hc]; rfl
  | case4 depth t ih => exact (ih h).step ['*', '/'] id same fun s _ => rfl
  | case5 depth c t hc ih =>
    refine (ih h).step [c] id same fun s hs => ?_
    rw [List.cons_append, List.nil_append, scan]
    · rfl
    · exact other hs hc
  | case6 depth t ih => exact (ih h).step ['/', '/'] id same fun s _ => rfl
  | case7 depth t ih => exact (ih h).step ['/', '*'] id same fun s _ => rfl
  | case8 depth t ih => exact (ih h).step ['('] (push '(') (fun _ _ => rfl) fun s _ => rfl
  | case9 t =>
    cases h
    exact ⟨[')'], List.cons_ne_nil _ _, rfl, fun s => rfl⟩
  | case10 depth t ih => exact (ih h).step [')'] (push ')') (fun _ _ => rfl) fun s _ => rfl
  | case11 t ih => exact (ih h).step [','] comma (fun _ _ => rfl) fun s _ => rfl
  | case12 depth c t hline hblock hopen hclose hpop hcomma ih =>
    refine (ih h).step [c] (push c) (fun _ _ => rfl) fun s hs => ?_
    rw [List.cons_append, List.nil_append, scan]
    · exact other hs hline
    · exact other hs hblock
    · exact hopen
    · exact hclose
    · exact hpop
    · exact hcomma

end Cut

namespace Table

theorem closed_iff {t : Text} :
    (read t).1.closed = true ↔ ∃ r, (Cut.scan .code 0 t).rest = some r := by
  rw [← Option.isSome_iff_exists]
  rfl

theorem read_append_of_closed {t : Text} (h : (read t).1.closed = true) (s : Text) :
    read ((read t).1.text ++ s) = ((read t).1, s) := by
  obtain ⟨r, hr⟩ := closed_iff.1 h
  obtain ⟨u, _, ht, hs⟩ := Cut.stopsBefore_of_rest hr
  have htext : (read t).1.text = u := by
    simp only [read, hr, Option.getD_some]
    rw [ht, Text.upTo_append]
  have hread : ∀ v, read (u ++ v) = (⟨u, (Cut.scan .code 0 t).tokens, true⟩, v) := by
    intro v
    simp only [read, hs v, Option.getD_some, Text.upTo_append, Option.isSome_some]
    rfl
  have hself := hread r
  rw [← ht] at hself
  rw [htext, hread, hself]

theorem text_of_not_closed {t : Text} (h : (read t).1.closed = false) :
    (read t).1.text = t ∧ (read t).2 = [] := by
  have hnone : (Cut.scan .code 0 t).rest = none := by
    rw [← Option.isSome_eq_false_iff.trans Option.isNone_iff_eq_none]
    exact h
  simp [read, hnone, Text.upTo]

end Table
end KeyChart
