import KeyChart.Proofs.Text.Cuts

/-!
Lines counted. Main statements: of the places where a line starts no two have as many newlines before
them (`IsLines.unique`), the search in the table of line starts counts the entries up to an offset
(`countUpTo_eq`), and so the line of a byte is the number of newlines before it (`lineAt_lineStarts`).
The table has an entry for every place where a line starts (`getElem?_lineStarts`) and, as its size tells
(`size_lineStarts`), no other.
-/

namespace KeyChart
namespace Text

/-! ## Newlines -/

@[simp] theorem newlines_nil : newlines [] = 0 := rfl

@[simp] theorem newlines_append (u v : Text) : newlines (u ++ v) = newlines u + newlines v :=
  List.count_append

theorem newlines_eq_zero_iff {t : Text} : newlines t = 0 ↔ '\n' ∉ t := List.count_eq_zero

theorem newlines_cons_of_ne {c : Char} (h : c ≠ '\n') (t : Text) :
    newlines (c :: t) = newlines t :=
  List.count_cons_of_ne h

theorem newlines_cons_newline (t : Text) : newlines ('\n' :: t) = newlines t + 1 :=
  List.count_cons_self

theorem ne_newline_of_size {c : Char} (h : 1 < c.utf8Size) : c ≠ '\n' := by
  rintro rfl
  revert h
  decide

theorem newlines_le_of_append (u v : Text) : newlines u ≤ newlines (u ++ v) := by
  rw [newlines_append]
  exact Nat.le_add_right _ _

theorem newlines_takeBytes_le {m n : Nat} (h : m ≤ n) (t : Text) :
    newlines (takeBytes m t) ≤ newlines (takeBytes n t) := by
  induction t generalizing m n with
  | nil => exact Nat.le_refl _
  | cons c t ih =>
    rw [takeBytes, takeBytes]
    split
    · exact Nat.zero_le _
    · rw [if_neg (by omega), newlines, newlines, List.count_cons, List.count_cons]
      exact Nat.add_le_add_right (ih (by omega)) _

theorem takeBytes_byteSize_add (u : Text) (n : Nat) (v : Text) :
    takeBytes (byteSize u + n) (u ++ v) = u ++ takeBytes n v := by
  induction u with
  | nil => rw [byteSize, Nat.zero_add, List.nil_append, List.nil_append]
  | cons c u ih =>
    have hpos := Char.utf8Size_pos c
    rw [byteSize, List.cons_append, takeBytes, if_neg (by omega), Nat.add_assoc,
      Nat.add_sub_cancel_left, ih, List.cons_append]

/-- The newlines before the last byte of a text. -/
theorem newlines_takeBytes_sub_one (u : Text) (c : Char) (v : Text) :
    newlines (takeBytes (byteSize (u ++ [c]) - 1) (u ++ c :: v)) = newlines u := by
  have hpos := Char.utf8Size_pos c
  have hsize : byteSize (u ++ [c]) - 1 = byteSize u + (c.utf8Size - 1) := by
    simp only [byteSize_append, byteSize]
    omega
  have hnil : takeBytes (c.utf8Size - 1 - c.utf8Size) v = [] := by
    rw [show c.utf8Size - 1 - c.utf8Size = 0 by omega]
    cases v <;> rfl
  rw [hsize, takeBytes_byteSize_add, newlines_append, takeBytes, hnil]
  split
  · rfl
  · -- a character of more than one byte is no newline
    rw [newlines_cons_of_ne (ne_newline_of_size (by omega)), newlines_nil, Nat.add_zero]

/-! ## Whole lines -/

/-- The text is empty or has the newline of its last line, so that a line starts behind it. -/
def IsLines (t : Text) : Prop := t = [] ∨ t.getLast? = some '\n'

instance (t : Text) : Decidable (IsLines t) := inferInstanceAs (Decidable (_ ∨ _))

theorem isLines_nil : IsLines [] := Or.inl rfl

theorem isLines_concat (u : Text) : IsLines (u ++ ['\n']) := Or.inr List.getLast?_concat

theorem IsLines.eq_nil_or_concat {t : Text} (h : IsLines t) : t = [] ∨ ∃ u, t = u ++ ['\n'] := by
  rcases h with h | h
  · exact Or.inl h
  · exact Or.inr (List.getLast?_eq_some_iff.1 h)

theorem IsLines.append {u v : Text} (hu : IsLines u) (hv : IsLines v) : IsLines (u ++ v) := by
  rcases hv.eq_nil_or_concat with rfl | ⟨w, rfl⟩
  · rwa [List.append_nil]
  · rw [← List.append_assoc]
    exact isLines_concat _

theorem IsLines.right {u v : Text} (h : IsLines (u ++ v)) : IsLines v := by
  cases hv : v.getLast? with
  | none => exact Or.inl (List.getLast?_eq_none_iff.1 hv)
  | some c =>
    rcases h with hnil | hlast
    · rw [(List.append_eq_nil_iff.1 hnil).2] at hv
      cases hv
    · rw [List.getLast?_append, hv] at hlast
      exact Or.inr (hv.trans hlast)

theorem IsLines.mem_newline {t : Text} (h : IsLines t) (hne : t ≠ []) : '\n' ∈ t := by
  rcases h.eq_nil_or_concat with rfl | ⟨u, rfl⟩
  · exact absurd rfl hne
  · exact List.mem_append_right u List.mem_cons_self

/-- Every place of a text is on a line, behind whole lines. -/
theorem exists_line (t : Text) : ∃ u lead, t = u ++ lead ∧ IsLines u ∧ '\n' ∉ lead := by
  have holds : ∀ v : Text, '\n' ∈ v → Holds ['\n'] v := by
    intro v hv
    obtain ⟨x, y, rfl⟩ := List.append_of_mem hv
    exact ⟨x, y, by rw [List.append_assoc, List.singleton_append]⟩
  cases hlast : beforeLast? ['\n'] t with
  | none =>
    refine ⟨[], t, rfl, isLines_nil, fun hmem => ?_⟩
    have hsome := beforeLast?_isSome_of_holds (holds t hmem)
    rw [hlast] at hsome
    cases hsome
  | some u =>
    obtain ⟨lead, ht⟩ := eq_append_of_beforeLast? hlast
    exact ⟨u ++ ['\n'], lead, ht, isLines_concat u, fun hmem =>
      not_holds_of_beforeLast? (List.cons_ne_nil _ _) hlast ht (holds lead hmem)⟩

theorem IsLines.unique {u v x y : Text} (hu : IsLines u) (hv : IsLines v) (h : u ++ x = v ++ y)
    (hcount : newlines u = newlines v) : u = v := by
  -- what one has more of than the other ends in a newline, if there is anything
  have same : ∀ {a r : Text}, IsLines (a ++ r) → newlines (a ++ r) = newlines a → a ++ r = a := by
    intro a r hlines hsame
    rw [newlines_append, Nat.add_eq_left, newlines_eq_zero_iff] at hsame
    have hr : r = [] :=
      Decidable.byContradiction fun hne => hsame (hlines.right.mem_newline hne)
    rw [hr, List.append_nil]
  rcases List.append_eq_append_iff.1 h with ⟨r, rfl, _⟩ | ⟨r, rfl, _⟩
  · exact (same hv hcount.symm).symm
  · exact same hu hcount

theorem lineRest_append_of_not_mem {u : Text} (h : '\n' ∉ u) (v : Text) :
    lineRest (u ++ v) = u ++ lineRest v := by
  induction u with
  | nil => rfl
  | cons c u ih =>
    rw [List.mem_cons, not_or] at h
    rw [List.cons_append, lineRest, if_neg (Ne.symm h.1), ih h.2, List.cons_append]

/-! ## The search -/

/-- If the entries that are at most `offset` are the first `p` ones, the search finds `p`. -/
theorem countUpTo_eq {table : Array Nat} {offset p lo hi : Nat} (h : hi ≤ table.size)
    (hle : ∀ i (hi : i < table.size), i < p → table[i] ≤ offset)
    (hgt : ∀ i (hi : i < table.size), p ≤ i → offset < table[i]) (hlo : lo ≤ p) (hhi : p ≤ hi) :
    countUpTo table offset lo hi h = p := by
  fun_induction countUpTo table offset lo hi h with
  | case1 lo hi h hlt hmid hentry ih =>
    -- the middle entry counts, so `p` is behind it
    have hp : (lo + hi) / 2 < p :=
      Nat.lt_of_not_le fun hnot => Nat.not_lt_of_le hentry (hgt _ hmid hnot)
    exact ih hp hhi
  | case2 lo hi h hlt hmid hentry ih =>
    have hp : p ≤ (lo + hi) / 2 := Nat.le_of_not_lt fun hnot => hentry (hle _ hmid hnot)
    exact ih hlo hp
  | case3 lo hi h hnot => omega

theorem lineAt_toArray_append {front back : List Nat} {offset : Nat} (hle : ∀ x ∈ front, x ≤ offset)
    (hgt : ∀ x ∈ back, offset < x) : lineAt (front ++ back).toArray offset = front.length - 1 := by
  rw [lineAt, countUpTo_eq (p := front.length) _ (fun i hi hlt => ?_) (fun i hi hge => ?_)
    (Nat.zero_le _) (by simp)]
  · rw [List.getElem_toArray, List.getElem_append_left hlt]
    exact hle _ (List.getElem_mem hlt)
  · rw [List.getElem_toArray, List.getElem_append_right hge]
    exact hgt _ (List.getElem_mem _)

/-! ## The table -/

theorem le_of_mem_laterLineStarts {start : Nat} {c : Char} {t : Text} {x : Nat}
    (h : x ∈ laterLineStarts start (c :: t)) : start + c.utf8Size ≤ x := by
  induction t generalizing start c with
  | nil => cases h
  | cons d t ih =>
    simp only [laterLineStarts] at h
    split at h
    · rcases List.mem_cons.1 h with rfl | hlater
      · exact Nat.le_refl _
      · exact Nat.le_trans (Nat.le_add_right _ _) (ih hlater)
    · exact Nat.le_trans (Nat.le_add_right _ _) (ih h)

/-- The later line starts up to a byte of the text, and those behind it. -/
theorem exists_laterLineStarts_split {start offset : Nat} {t : Text} (hstart : start ≤ offset)
    (h : offset < start + byteSize t) : ∃ front back, laterLineStarts start t = front ++ back ∧
      front.length = newlines (takeBytes (offset - start) t) ∧ (∀ x ∈ front, x ≤ offset) ∧
      ∀ x ∈ back, offset < x := by
  -- a character that reaches over the offset is no newline, as it has more than one byte
  have reach : ∀ {c : Char} {t : Text} {start : Nat}, start ≤ offset →
      offset < start + c.utf8Size → newlines (takeBytes (offset - start) (c :: t)) = 0 := by
    intro c t start hstart hlt
    rw [takeBytes]
    split
    · rfl
    · next hpos =>
      have hnil : takeBytes (offset - start - c.utf8Size) t = [] := by
        rw [show offset - start - c.utf8Size = 0 by omega]
        cases t <;> rfl
      rw [hnil, newlines_cons_of_ne (ne_newline_of_size (by omega)), newlines_nil]
  induction t generalizing start with
  | nil =>
    simp only [byteSize] at h
    omega
  | cons c t ih =>
    by_cases hlt : offset < start + c.utf8Size
    · refine ⟨[], laterLineStarts start (c :: t), rfl, (reach hstart hlt).symm,
        fun x hx => absurd hx List.not_mem_nil, fun x hx => ?_⟩
      have hle := le_of_mem_laterLineStarts hx
      omega
    · cases t with
      | nil =>
        simp only [byteSize] at h
        omega
      | cons d t =>
        rw [byteSize] at h
        have hstart' : start + c.utf8Size ≤ offset := Nat.le_of_not_lt hlt
        obtain ⟨front, back, hsplit, hlength, hle, hgt⟩ := ih hstart' (by omega)
        have hpos := Char.utf8Size_pos c
        have htake : takeBytes (offset - start) (c :: d :: t) =
            c :: takeBytes (offset - (start + c.utf8Size)) (d :: t) := by
          rw [takeBytes, if_neg (by omega), Nat.sub_sub]
        rw [laterLineStarts, htake]
        split
        · next hc =>
          subst hc
          refine ⟨(start + '\n'.utf8Size) :: front, back, by rw [hsplit]; rfl, ?_, ?_, hgt⟩
          · rw [List.length_cons, hlength, newlines_cons_newline]
          · intro x hx
            rcases List.mem_cons.1 hx with rfl | hx
            · omega
            · exact hle x hx
        · next hc => exact ⟨front, back, hsplit, by rw [newlines_cons_of_ne hc, hlength], hle, hgt⟩

/-- The line starts up to a byte of the text are one more than the newlines before it. -/
theorem exists_lineStarts_split {offset : Nat} {t : Text} (h : offset < byteSize t) :
    ∃ front back : List Nat, lineStarts t = (front ++ back).toArray ∧
      front.length = newlines (takeBytes offset t) + 1 ∧ (∀ x ∈ front, x ≤ offset) ∧
      ∀ x ∈ back, offset < x := by
  obtain ⟨front, back, hsplit, hlength, hle, hgt⟩ :=
    exists_laterLineStarts_split (Nat.zero_le offset) (by rwa [Nat.zero_add])
  refine ⟨0 :: front, back, by rw [lineStarts, hsplit, List.cons_append], ?_,
    List.forall_mem_cons.2 ⟨Nat.zero_le _, hle⟩, hgt⟩
  rw [List.length_cons, hlength, Nat.sub_zero]

theorem lineAt_lineStarts {t : Text} {offset : Nat} (h : offset < byteSize t) :
    lineAt (lineStarts t) offset = newlines (takeBytes offset t) := by
  obtain ⟨front, back, hsplit, hlength, hle, hgt⟩ := exists_lineStarts_split h
  rw [hsplit, lineAt_toArray_append hle hgt, hlength, Nat.add_sub_cancel]

theorem lineAt_byteSize (u : Text) {v : Text} (h : v ≠ []) :
    lineAt (lineStarts (u ++ v)) (byteSize u) = newlines u := by
  have hpos := byteSize_pos h
  rw [lineAt_lineStarts (by rw [byteSize_append]; omega), takeBytes_append]

/-! ## The entries -/

/-- A line behind a newline starts where the text before it ends. -/
theorem getElem?_laterLineStarts (start : Nat) (u : Text) {v : Text} (hv : v ≠ []) :
    (laterLineStarts start (u ++ '\n' :: v))[newlines u]? = some (start + byteSize (u ++ ['\n'])) := by
  induction u generalizing start with
  | nil =>
    obtain ⟨d, w, rfl⟩ := List.exists_cons_of_ne_nil hv
    rfl
  | cons c u ih =>
    obtain ⟨d, w, hd⟩ : ∃ d w, u ++ '\n' :: v = d :: w :=
      List.exists_cons_of_ne_nil (List.append_ne_nil_of_right_ne_nil u (List.cons_ne_nil _ _))
    have hlater := ih (start + c.utf8Size)
    rw [hd] at hlater
    rw [List.cons_append, hd, laterLineStarts, List.cons_append, byteSize, ← Nat.add_assoc]
    split
    · next hc =>
      subst hc
      rw [newlines_cons_newline, List.getElem?_cons_succ, hlater]
    · next hc => rw [newlines_cons_of_ne hc, hlater]

theorem length_laterLineStarts (start : Nat) (t : Text) :
    (laterLineStarts start t).length = newlines t.dropLast := by
  fun_induction laterLineStarts start t with
  | case1 => rfl
  | case2 => rfl
  | case3 start d t ih =>
    rw [List.length_cons, ih, List.dropLast_cons_cons, newlines_cons_newline]
  | case4 start c d t hc ih => rw [ih, List.dropLast_cons_cons, newlines_cons_of_ne hc]

/-- A newline at the end of the text opens no line. -/
theorem size_lineStarts (t : Text) : (lineStarts t).size = newlines t.dropLast + 1 := by
  rw [lineStarts, List.size_toArray, List.length_cons, length_laterLineStarts]

theorem getElem?_lineStarts {u v : Text} (hu : IsLines u) (hv : v ≠ [] ∨ u = []) :
    (lineStarts (u ++ v))[newlines u]? = some (byteSize u) := by
  rw [lineStarts, List.getElem?_toArray]
  rcases hu.eq_nil_or_concat with rfl | ⟨u, rfl⟩
  · rfl
  · have hne : v ≠ [] := hv.resolve_right (List.append_ne_nil_of_right_ne_nil u (List.cons_ne_nil _ _))
    have hentry := getElem?_laterLineStarts 0 u hne
    rw [Nat.zero_add] at hentry
    rw [List.append_assoc, List.singleton_append, newlines_append, newlines_cons_newline, newlines_nil,
      List.getElem?_cons_succ, hentry]

end Text
end KeyChart
