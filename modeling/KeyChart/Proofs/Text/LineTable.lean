import KeyChart.Proofs.Text.Lines

/-!
The table of line starts and the search in it. Its entries are zero and the bytes of the text that a
newline stands right before (`mem_lineStarts_iff`), each one once and in order (`pairwise_lineStarts`).
Main statement: besides, the line that is found for a byte of the text is the number of newlines before
the byte, and it is the line that holds it (`lineStarts_table`).
-/

namespace KeyChart
namespace Text

/-- A newline ends right before byte `n` of the text. -/
def FollowsNewline (t : Text) (n : Nat) : Prop := ∃ u v, t = u ++ '\n' :: v ∧ n = byteSize u + 1

/-- The line starts at the byte or before it, and the next line, if there is one, starts behind it. -/
structure HoldsByte (starts : Array Nat) (line offset : Nat) : Prop where
  start : ∃ start ∈ starts[line]?, start ≤ offset
  next : ∀ start ∈ starts[line + 1]?, offset < start

theorem byteSize_concat_newline (u : Text) : byteSize (u ++ ['\n']) = byteSize u + 1 :=
  byteSize_append u ['\n']

/-- A line starts where a newline ends, unless the text ends there too. -/
theorem followsNewline_and_lt_iff {t : Text} {n : Nat} :
    n < byteSize t ∧ FollowsNewline t n ↔
      ∃ u v, t = u ++ '\n' :: v ∧ v ≠ [] ∧ n = byteSize (u ++ ['\n']) := by
  constructor
  · rintro ⟨hlt, u, v, rfl, rfl⟩
    refine ⟨u, v, rfl, ?_, (byteSize_concat_newline u).symm⟩
    rintro rfl
    rw [byteSize_concat_newline] at hlt
    exact Nat.lt_irrefl _ hlt
  · rintro ⟨u, v, rfl, hv, rfl⟩
    refine ⟨?_, u, v, rfl, byteSize_concat_newline u⟩
    rw [List.append_cons u '\n' v, byteSize_append (u ++ ['\n']) v]
    exact Nat.lt_add_of_pos_right (byteSize_pos hv)

/-! ## The entries -/

theorem mem_laterLineStarts_iff {start x : Nat} {t : Text} :
    x ∈ laterLineStarts start t ↔
      ∃ u v, t = u ++ '\n' :: v ∧ v ≠ [] ∧ x = start + byteSize (u ++ ['\n']) := by
  constructor
  · intro h
    -- a line behind the first character is one of the text behind that character
    have behind : ∀ {c : Char} {start : Nat} {t : Text},
        (∃ u v, t = u ++ '\n' :: v ∧ v ≠ [] ∧ x = start + c.utf8Size + byteSize (u ++ ['\n'])) →
        ∃ u v, c :: t = u ++ '\n' :: v ∧ v ≠ [] ∧ x = start + byteSize (u ++ ['\n']) := by
      rintro c start t ⟨u, v, rfl, hv, hx⟩
      exact ⟨c :: u, v, rfl, hv, by rw [hx, List.cons_append, byteSize, Nat.add_assoc]⟩
    fun_induction laterLineStarts start t with
    | case1 => cases h
    | case2 => cases h
    | case3 start d t ih =>
      rcases List.mem_cons.1 h with rfl | h
      · exact ⟨[], d :: t, rfl, List.cons_ne_nil _ _, rfl⟩
      · exact behind (ih h)
    | case4 start c d t hc ih => exact behind (ih h)
  · rintro ⟨u, v, rfl, hv, rfl⟩
    exact List.mem_of_getElem? (getElem?_laterLineStarts start u hv)

theorem mem_lineStarts_iff {t : Text} {x : Nat} :
    x ∈ lineStarts t ↔ x = 0 ∨ x < byteSize t ∧ FollowsNewline t x := by
  rw [lineStarts, List.mem_toArray, List.mem_cons, mem_laterLineStarts_iff, followsNewline_and_lt_iff]
  simp only [Nat.zero_add]

theorem pairwise_laterLineStarts (start : Nat) (t : Text) :
    (laterLineStarts start t).Pairwise (· < ·) := by
  fun_induction laterLineStarts start t with
  | case1 => exact List.Pairwise.nil
  | case2 => exact List.Pairwise.nil
  | case3 start d t ih =>
    refine List.pairwise_cons.2 ⟨fun x hx => ?_, ih⟩
    exact Nat.lt_of_lt_of_le (Nat.lt_add_of_pos_right d.utf8Size_pos) (le_of_mem_laterLineStarts hx)
  | case4 start c d t hc ih => exact ih

theorem pairwise_lineStarts (t : Text) : (lineStarts t).toList.Pairwise (· < ·) := by
  rw [lineStarts, List.toList_toArray, List.pairwise_cons]
  refine ⟨fun x hx => ?_, pairwise_laterLineStarts 0 t⟩
  obtain ⟨u, v, -, -, rfl⟩ := mem_laterLineStarts_iff.1 hx
  rw [byteSize_concat_newline]
  omega

/-! ## The line of a byte -/

theorem holdsByte_lineAt {t : Text} {offset : Nat} (h : offset < byteSize t) :
    HoldsByte (lineStarts t) (lineAt (lineStarts t) offset) offset := by
  obtain ⟨front, back, hsplit, hlength, hle, hgt⟩ := exists_lineStarts_split h
  rw [lineAt_lineStarts h, hsplit]
  constructor
  · have hlast : newlines (takeBytes offset t) < front.length := by omega
    refine ⟨front[newlines (takeBytes offset t)], ?_, hle _ (List.getElem_mem hlast)⟩
    rw [List.getElem?_toArray, List.getElem?_append_left hlast]
    exact List.getElem?_eq_getElem hlast
  · intro start hstart
    rw [List.getElem?_toArray, ← hlength, List.getElem?_append_right (Nat.le_refl _)] at hstart
    exact hgt start (List.mem_of_getElem? hstart)

theorem lineStarts_table (t : Text) :
    (lineStarts t).toList.Pairwise (· < ·) ∧
    (lineStarts t)[0]? = some 0 ∧
    (∀ x, x ∈ lineStarts t ↔ x = 0 ∨ x < byteSize t ∧ FollowsNewline t x) ∧
    ∀ offset, offset < byteSize t →
      lineAt (lineStarts t) offset = newlines (takeBytes offset t) ∧
      HoldsByte (lineStarts t) (lineAt (lineStarts t) offset) offset :=
  ⟨pairwise_lineStarts t, rfl, fun _ => mem_lineStarts_iff, fun _ h =>
    ⟨lineAt_lineStarts h, holdsByte_lineAt h⟩⟩

namespace Sample

/-- A character of two bytes, an empty line and a newline at the end. -/
def accented : Text := ['é', '\n', '\n', 'a', '\n']

end Sample

/-- A byte inside a character, and the newline that ends the text. -/
theorem lineStarts_table_sample :
    lineStarts Sample.accented = #[0, 3, 4] ∧
    (1 < byteSize Sample.accented ∧ lineAt (lineStarts Sample.accented) 1 = 0 ∧
      HoldsByte (lineStarts Sample.accented) 0 1) ∧
    5 < byteSize Sample.accented ∧ lineAt (lineStarts Sample.accented) 5 = 2 ∧
      HoldsByte (lineStarts Sample.accented) 2 5 := by
  obtain ⟨-, -, -, hline⟩ := lineStarts_table Sample.accented
  have hinside : 1 < byteSize Sample.accented := by decide
  have hlast : 5 < byteSize Sample.accented := by decide
  obtain ⟨hfirst, hholds⟩ := hline 1 hinside
  obtain ⟨hthird, hholds'⟩ := hline 5 hlast
  rw [show newlines (takeBytes 1 Sample.accented) = 0 by decide] at hfirst
  rw [show newlines (takeBytes 5 Sample.accented) = 2 by decide] at hthird
  rw [hfirst] at hholds
  rw [hthird] at hholds'
  exact ⟨rfl, ⟨hinside, hfirst, hholds⟩, hlast, hthird, hholds'⟩

end Text
end KeyChart
