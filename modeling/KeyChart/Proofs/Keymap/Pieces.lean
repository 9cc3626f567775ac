import KeyChart.Proofs.Keymap.Stages
import KeyChart.Proofs.Keymap.Tokens
import KeyChart.Proofs.Text.Trim

/-!
Tokens read from a table. A scan joins the code around a comment, and no comment opens where it does so, as
a slash before a comment would have opened one itself. A comma ends a piece where all parentheses match, so
only the end of the text can leave some open, and only in the last piece. Main statements: what is read from
a table are front parts of tokens (`Table.isTokenFront_of_mem`), and all of a closed table are whole tokens,
which can be written again (`Table.isToken_of_closed`).
-/

namespace KeyChart

open Text Comment

/-! ## Blanks around a piece -/

namespace Text

theorem IsBlank.count_eq_zero {w : Text} (hw : IsBlank w) {c : Char} (hc : isBlank c = false) :
    w.count c = 0 := by
  apply List.count_eq_zero.2
  intro hmem
  rw [hw c hmem] at hc
  cases hc

end Text

theorem NestedFront.of_blank_append {v t w : Text} (hv : IsBlank v)
    (h : NestedFront 0 (v ++ t ++ w)) : NestedFront 0 t := by
  have hopen : isBlank '(' = false := by decide
  have hclose : isBlank ')' = false := by decide
  refine ⟨fun x y ht => ?_, fun x y ht => ?_⟩
  · have hle := h.closes (v ++ x) (y ++ w) (by rw [ht]; simp only [List.append_assoc])
    rw [List.count_append, List.count_append, hv.count_eq_zero hopen, hv.count_eq_zero hclose] at hle
    omega
  · have hlt := h.commas (v ++ x) (y ++ w) (by
      rw [ht]
      simp only [List.append_assoc, List.cons_append])
    rw [List.count_append, List.count_append, hv.count_eq_zero hopen, hv.count_eq_zero hclose] at hlt
    omega

theorem NestedFront.trim {t : Text} (h : NestedFront 0 t) : NestedFront 0 (trim t) := by
  obtain ⟨v, w, hv, -, ht⟩ := exists_blank_trim t
  rw [ht] at h
  exact h.of_blank_append hv

theorem Text.count_trim {c : Char} (hc : isBlank c = false) (t : Text) :
    (trim t).count c = t.count c := by
  obtain ⟨v, w, hv, hw, ht⟩ := exists_blank_trim t
  have hcount := congrArg (List.count c) ht
  rw [List.count_append, List.count_append, hv.count_eq_zero hc, hw.count_eq_zero hc] at hcount
  omega

theorem Nested.trim {t : Text} (h : Nested 0 t) : Nested 0 (trim t) := by
  obtain ⟨hfront, hclosed⟩ := nested_iff_front.1 h
  rw [nested_iff_front, count_trim (by decide), count_trim (by decide)]
  exact ⟨hfront.trim, hclosed⟩

theorem Text.Holds.of_trim {mark t : Text} (h : Holds mark (trim t)) : Holds mark t := by
  obtain ⟨v, w, -, -, ht⟩ := exists_blank_trim t
  rw [ht]
  exact (h.append_left v).append_right w

theorem Text.holds_pair_cons_iff {a b c : Char} {t : Text} :
    Holds [a, b] (c :: t) ↔ (c = a ∧ t.head? = some b) ∨ Holds [a, b] t := by
  have hsingle : ¬ Holds [a, b] [c] := by
    rintro ⟨x, y, hxy⟩
    have hlength := congrArg List.length hxy
    simp only [List.length_append, List.length_cons, List.length_nil] at hlength
    omega
  have happend := @holds_pair_append_iff a b [c] t
  rw [List.singleton_append, List.getLast?_singleton, Option.some.injEq] at happend
  rw [happend, or_iff_right hsingle, or_comm]

/-! ## Pieces with matching parentheses -/

/-- Pieces of which the first one begins inside `depth` parentheses. All match their parentheses, but the
last one of a table that is not closed may leave some open. -/
def NestedPieces (closed : Bool) (depth : Nat) : List Text → Prop
  | [] => True
  | p :: ps =>
    (Nested depth p ∨ NestedFront depth p ∧ ps = [] ∧ closed = false) ∧ NestedPieces closed 0 ps

section Pieces

variable {closed : Bool} {depth : Nat} {p : Text} {ps : List Text}

/-- One character in front of the first piece. -/
theorem NestedPieces.push {depth' : Nat} {c : Char} (h : NestedPieces closed depth' (p :: ps))
    (hdepth : depth' + [c].count ')' = depth + [c].count '(') (hcomma : c = ',' → 0 < depth) :
    NestedPieces closed depth ((c :: p) :: ps) := by
  obtain ⟨hfirst | ⟨hfront, hend⟩, hlater⟩ := h
  · exact ⟨Or.inl ((nested_cons_iff depth' hdepth).2 ⟨hcomma, hfirst⟩), hlater⟩
  · exact ⟨Or.inr ⟨(nestedFront_cons_iff depth' hdepth).2 ⟨hcomma, hfront⟩, hend⟩, hlater⟩

/-- A comma outside all parentheses, or the parenthesis that closes the table. -/
theorem NestedPieces.comma (h : NestedPieces closed 0 ps) : NestedPieces closed 0 ([] :: ps) :=
  ⟨Or.inl (nested_nil_iff.2 rfl), h⟩

theorem NestedPieces.map_trim (h : NestedPieces closed 0 ps) :
    NestedPieces closed 0 (ps.map trim) := by
  induction ps with
  | nil => trivial
  | cons p ps ih =>
    obtain ⟨hfirst | ⟨hfront, rfl, hopen⟩, hlater⟩ := h
    · exact ⟨Or.inl hfirst.trim, ih hlater⟩
    · exact ⟨Or.inr ⟨hfront.trim, rfl, hopen⟩, ih hlater⟩

theorem NestedPieces.filter (h : NestedPieces closed 0 ps) (keep : Text → Bool) :
    NestedPieces closed 0 (ps.filter keep) := by
  induction ps with
  | nil => trivial
  | cons p ps ih =>
    obtain ⟨hfirst, hlater⟩ := h
    rw [List.filter_cons]
    split
    · refine ⟨hfirst.imp_right fun hlast => ?_, ih hlater⟩
      exact ⟨hlast.1, by rw [hlast.2.1, List.filter_nil], hlast.2.2⟩
    · exact ih hlater

theorem NestedPieces.of_append {front back : List Text} (h : NestedPieces closed 0 (front ++ p :: back)) :
    Nested 0 p ∨ NestedFront 0 p ∧ back = [] ∧ closed = false := by
  induction front with
  | nil => exact h.1
  | cons _ front ih => exact ih h.2

end Pieces

/-! ## The pieces of a scan -/

namespace Cut

theorem nestedPieces_scan (region : Region) (depth : Nat) (t : Text) :
    NestedPieces (scan region depth t).rest.isSome depth
      ((scan region depth t).piece :: (scan region depth t).pieces) := by
  fun_induction scan region depth t with
  | case1 region depth => exact ⟨Or.inr ⟨nestedFront_nil depth, rfl, rfl⟩, trivial⟩
  | case2 depth t ih => exact ih
  | case3 depth c t hc ih => exact ih
  | case4 depth t ih => exact ih
  | case5 depth c t hc ih => exact ih
  | case6 depth t ih => exact ih
  | case7 depth t ih => exact ih
  | case8 depth t ih => exact ih.push rfl fun hc => absurd hc (by decide)
  | case9 t => exact NestedPieces.comma trivial
  | case10 depth t ih => exact ih.push rfl fun hc => absurd hc (by decide)
  | case11 t ih => exact ih.comma
  | case12 depth c t hline hblock hopen hclose hpop hcomma ih =>
    have hne : c ≠ '(' := hopen
    have hne' : c ≠ ')' := by
      cases depth with
      | zero => exact hclose rfl
      | succ depth => exact hpop depth rfl
    refine ih.push (by simp [hne, hne']) fun hc => ?_
    exact Nat.pos_of_ne_zero fun hzero => hcomma hzero hc

/-- A piece that begins with a character other than a slash begins where its text does. -/
theorem head?_piece {depth : Nat} {t : Text} (ht : t.head? ≠ some '/') :
    ∀ c ∈ (scan .code depth t).piece.head?, t.head? = some c := by
  intro c hc
  cases t with
  | nil => cases hc
  | cons d t =>
    have hd : d ≠ '/' := fun heq => ht (by rw [heq]; rfl)
    rw [scan_code_cons (fun _ heq => absurd heq hd) (fun _ heq => absurd heq hd)] at hc
    split at hc
    · cases hc
    · split at hc
      · cases hc
      · exact hc

/-- No comment opens in a piece. -/
theorem not_holds_of_scan {region : Region} {depth : Nat} {t : Text} {d : Char}
    (hd : d = '/' ∨ d = '*') :
    ∀ p ∈ (scan region depth t).piece :: (scan region depth t).pieces, ¬ Holds ['/', d] p := by
  have nil : ¬ Holds ['/', d] [] := not_holds_of_not_mem_left List.not_mem_nil
  -- a character in front of a piece opens a comment only if it is a slash
  have cons : ∀ {c : Char} {piece : Text}, ¬ Holds ['/', d] piece →
      (c = '/' → piece.head? ≠ some d) → ¬ Holds ['/', d] (c :: piece) := by
    intro c piece hpiece hc
    rw [holds_pair_cons_iff]
    rintro (⟨hslash, hhead⟩ | hholds)
    · exact hc hslash hhead
    · exact hpiece hholds
  fun_induction scan region depth t with
  | case1 => exact List.forall_mem_singleton.2 nil
  | case2 depth t ih => exact ih
  | case3 depth c t hc ih => exact ih
  | case4 depth t ih => exact ih
  | case5 depth c t hc ih => exact ih
  | case6 depth t ih => exact ih
  | case7 depth t ih => exact ih
  | case8 depth t ih =>
    obtain ⟨hpiece, hpieces⟩ := List.forall_mem_cons.1 ih
    exact List.forall_mem_cons.2 ⟨cons hpiece fun heq => absurd heq (by decide), hpieces⟩
  | case9 t => exact List.forall_mem_singleton.2 nil
  | case10 depth t ih =>
    obtain ⟨hpiece, hpieces⟩ := List.forall_mem_cons.1 ih
    exact List.forall_mem_cons.2 ⟨cons hpiece fun heq => absurd heq (by decide), hpieces⟩
  | case11 t ih => exact List.forall_mem_cons.2 ⟨nil, ih⟩
  | case12 depth c t hline hblock hopen hclose hpop hcomma ih =>
    obtain ⟨hpiece, hpieces⟩ := List.forall_mem_cons.1 ih
    refine List.forall_mem_cons.2 ⟨cons hpiece fun hc hhead => ?_, hpieces⟩
    have hslash : t.head? ≠ some '/' := by
      intro heq
      obtain ⟨r, hr⟩ := List.head?_eq_some_iff.1 heq
      exact hline r hc hr
    have hstar : t.head? ≠ some '*' := by
      intro heq
      obtain ⟨r, hr⟩ := List.head?_eq_some_iff.1 heq
      exact hblock r hc hr
    have hfirst := head?_piece hslash d hhead
    rcases hd with rfl | rfl
    · exact hslash hfirst
    · exact hstar hfirst

theorem mem_tokens_iff {cut : Cut} {token : Text} :
    token ∈ cut.tokens ↔ token ≠ [] ∧ ∃ p ∈ cut.piece :: cut.pieces, trim p = token := by
  rw [tokens, List.mem_filter, List.mem_map, decide_eq_true_eq, and_comm]

end Cut

/-! ## Tokens -/

/-- A keycode as it stands in a table, perhaps with some closing parentheses missing at its end. -/
structure IsTokenFront (t : Text) : Prop where
  ne_nil : t ≠ []
  head : ∀ c ∈ t.head?, isBlank c = false
  last : ∀ c ∈ t.getLast?, isBlank c = false
  noLineComment : ¬ Holds ['/', '/'] t
  noBlockComment : ¬ Holds openMark t
  closes : ∀ u v, t = u ++ v → u.count ')' ≤ u.count '('
  commas : ∀ u v, t = u ++ ',' :: v → ¬ Text.Balanced u

theorem IsTokenFront.isToken {t : Text} (h : IsTokenFront t) (hbalanced : Text.Balanced t) : IsToken t where
  ne_nil := h.ne_nil
  trimmed := trim_eq_self h.head h.last
  nested := by
    rw [Text.Balanced] at hbalanced
    refine ⟨fun u v ht => ?_, by omega, fun u v ht => ?_⟩
    · have hle := h.closes u v ht
      omega
    · have hle := h.closes u (',' :: v) ht
      have hne := h.commas u v ht
      rw [Text.Balanced] at hne
      omega
  noLineComment := h.noLineComment
  noBlockComment := h.noBlockComment

namespace Table

theorem nestedPieces_tokens (t : Text) : NestedPieces (read t).1.closed 0 (read t).1.tokens :=
  (Cut.nestedPieces_scan .code 0 t).map_trim.filter fun token => token ≠ []

theorem isTokenFront_of_mem {t token : Text} (h : token ∈ (read t).1.tokens) : IsTokenFront token := by
  have hfront : NestedFront 0 token := by
    obtain ⟨front, back, hsplit⟩ := List.append_of_mem h
    have hpieces := nestedPieces_tokens t
    rw [hsplit] at hpieces
    rcases hpieces.of_append with hnested | ⟨hfront, -⟩
    · exact (nested_iff_front.1 hnested).1
    · exact hfront
  obtain ⟨hne, p, hp, rfl⟩ := Cut.mem_tokens_iff.1 h
  have hline := Cut.not_holds_of_scan (Or.inl rfl) p hp
  have hblock := Cut.not_holds_of_scan (Or.inr rfl) p hp
  refine ⟨hne, not_blank_head_trim p, not_blank_last_trim p, fun hholds => hline hholds.of_trim,
    fun hholds => hblock (openMark_eq ▸ hholds.of_trim), fun u v ht => ?_, fun u v ht => ?_⟩
  · have hle := hfront.closes u v ht
    omega
  · have hlt := hfront.commas u v ht
    rw [Text.Balanced]
    omega

/-- Only the last token of a table that is not closed may leave parentheses open. -/
theorem balanced_of_tokens_eq {t token : Text} {front back : List Text}
    (h : (read t).1.tokens = front ++ token :: back)
    (hend : back ≠ [] ∨ (read t).1.closed = true) : Text.Balanced token := by
  have hpieces := nestedPieces_tokens t
  rw [h] at hpieces
  rcases hpieces.of_append with hnested | ⟨-, hback, hopen⟩
  · have hclosed := hnested.closed
    rw [Text.Balanced]
    omega
  · rw [hopen] at hend
    exact absurd hback (hend.resolve_right Bool.false_ne_true)

theorem isToken_of_closed {t : Text} (h : (read t).1.closed = true) :
    ∀ token ∈ (read t).1.tokens, IsToken token := by
  intro token htoken
  obtain ⟨front, back, hsplit⟩ := List.append_of_mem htoken
  exact (isTokenFront_of_mem htoken).isToken (balanced_of_tokens_eq hsplit (Or.inr h))

end Table
end KeyChart
