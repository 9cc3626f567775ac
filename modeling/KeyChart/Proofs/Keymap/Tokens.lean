import KeyChart.Proofs.Text.Marks
import KeyChart.Keymap.Table
import KeyChart.Refresh.Comment

/-!
Tables written from their tokens. A token is a piece of code whose parentheses match, with commas inside
them only and no comment. Main statement: tokens joined by commas and closed by a parenthesis are read
back, whatever follows (`Table.read_joined`).
-/

namespace KeyChart

open Text Comment

/-- Inside `depth` open parentheses no front part of the text closes more than there are, all are closed
at its end, and no comma stands outside them. -/
structure Nested (depth : Nat) (t : Text) : Prop where
  closes : ∀ u v, t = u ++ v → u.count ')' ≤ depth + u.count '('
  closed : t.count ')' = depth + t.count '('
  commas : ∀ u v, t = u ++ ',' :: v → u.count ')' < depth + u.count '('

/-- The same of a text that may leave parentheses open at its end. -/
structure NestedFront (depth : Nat) (t : Text) : Prop where
  closes : ∀ u v, t = u ++ v → u.count ')' ≤ depth + u.count '('
  commas : ∀ u v, t = u ++ ',' :: v → u.count ')' < depth + u.count '('

/-- A keycode as it may be written in a table. -/
structure IsToken (t : Text) : Prop where
  ne_nil : t ≠ []
  trimmed : trim t = t
  nested : Nested 0 t
  noLineComment : ¬ Holds ['/', '/'] t
  noBlockComment : ¬ Holds openMark t

/-! ## Matching parentheses -/

/-- `Nested` as a walk through the text. -/
def isNested : Nat → Text → Bool
  | depth, [] => depth == 0
  | depth, '(' :: t => isNested (depth + 1) t
  | 0, ')' :: _ => false
  | depth + 1, ')' :: t => isNested depth t
  | depth, ',' :: t => depth != 0 && isNested depth t
  | depth, _ :: t => isNested depth t

theorem nested_iff_front {depth : Nat} {t : Text} :
    Nested depth t ↔ NestedFront depth t ∧ t.count ')' = depth + t.count '(' :=
  ⟨fun h => ⟨⟨h.closes, h.commas⟩, h.closed⟩, fun h => ⟨h.1.closes, h.2, h.1.commas⟩⟩

theorem nestedFront_nil (depth : Nat) : NestedFront depth [] := ⟨by simp, by simp⟩

theorem nested_nil_iff {depth : Nat} : Nested depth [] ↔ depth = 0 := by
  rw [nested_iff_front, and_iff_right (nestedFront_nil depth), List.count_nil, List.count_nil,
    Nat.add_zero, eq_comm]

theorem count_cons_eq_add (c d : Char) (t : Text) : (c :: t).count d = [c].count d + t.count d := by
  rw [← List.singleton_append, List.count_append]

/-- One character, with the depth that it leaves. -/
theorem nestedFront_cons_iff {depth : Nat} (depth' : Nat) {c : Char} {t : Text}
    (hdepth : depth' + [c].count ')' = depth + [c].count '(') :
    NestedFront depth (c :: t) ↔ (c = ',' → 0 < depth) ∧ NestedFront depth' t := by
  constructor
  · intro h
    refine ⟨?_, ?_, ?_⟩
    · rintro rfl
      simpa using h.commas [] t rfl
    · intro u v ht
      have hle := h.closes (c :: u) v (by rw [ht, List.cons_append])
      rw [count_cons_eq_add c ')' u, count_cons_eq_add c '(' u] at hle
      omega
    · intro u v ht
      have hlt := h.commas (c :: u) v (by rw [ht, List.cons_append])
      rw [count_cons_eq_add c ')' u, count_cons_eq_add c '(' u] at hlt
      omega
  · rintro ⟨hcomma, h⟩
    refine ⟨?_, ?_⟩
    · intro u v ht
      cases u with
      | nil => simp
      | cons d u =>
        obtain ⟨rfl, htail⟩ := List.cons.inj ht
        have hle := h.closes u v htail
        rw [count_cons_eq_add c ')' u, count_cons_eq_add c '(' u]
        omega
    · intro u v ht
      cases u with
      | nil => simpa using hcomma (List.cons.inj ht).1
      | cons d u =>
        obtain ⟨rfl, htail⟩ := List.cons.inj ht
        have hlt := h.commas u v htail
        rw [count_cons_eq_add c ')' u, count_cons_eq_add c '(' u]
        omega

theorem nested_cons_iff {depth : Nat} (depth' : Nat) {c : Char} {t : Text}
    (hdepth : depth' + [c].count ')' = depth + [c].count '(') :
    Nested depth (c :: t) ↔ (c = ',' → 0 < depth) ∧ Nested depth' t := by
  have hclosed : (c :: t).count ')' = depth + (c :: t).count '(' ↔
      t.count ')' = depth' + t.count '(' := by
    rw [count_cons_eq_add c ')' t, count_cons_eq_add c '(' t]
    omega
  rw [nested_iff_front, nestedFront_cons_iff depth' hdepth, hclosed, and_assoc, ← nested_iff_front]

theorem isNested_iff {depth : Nat} {t : Text} : isNested depth t = true ↔ Nested depth t := by
  fun_induction isNested depth t with
  | case1 depth => rw [nested_nil_iff, beq_iff_eq]
  | case2 depth t ih =>
    rw [ih, nested_cons_iff (depth + 1) rfl]
    simp
  | case3 t =>
    -- nothing is open
    simp only [Bool.false_eq_true, false_iff]
    intro h
    have hle := h.closes [')'] t rfl
    revert hle
    decide
  | case4 depth t ih =>
    rw [ih, nested_cons_iff depth rfl]
    simp
  | case5 depth t ih =>
    rw [Bool.and_eq_true, ih, nested_cons_iff depth rfl, bne_iff_ne, Nat.pos_iff_ne_zero]
    simp
  | case6 depth c t hopen hclose hclose' hcomma ih =>
    have hne : c ≠ '(' := hopen
    have hne' : c ≠ ')' := by
      intro hc
      cases depth with
      | zero => exact hclose rfl hc
      | succ depth => exact hclose' depth rfl hc
    rw [ih, nested_cons_iff depth (by simp [hne, hne'])]
    simp only [iff_and_self]
    intro _ hc
    exact absurd hc hcomma

instance (depth : Nat) (t : Text) : Decidable (Nested depth t) :=
  decidable_of_iff (isNested depth t = true) isNested_iff

/-! ## A token in a table -/

namespace Cut

/-- Puts a text in front of the first piece. -/
def pushAll (t : Text) (cut : Cut) : Cut := { cut with piece := t ++ cut.piece }

@[simp] theorem pushAll_nil (cut : Cut) : cut.pushAll [] = cut := rfl

@[simp] theorem push_pushAll (c : Char) (t : Text) (cut : Cut) :
    (cut.pushAll t).push c = cut.pushAll (c :: t) := rfl

theorem scan_append_of_nested {depth : Nat} {t s : Text} (h : Nested depth t)
    (hline : ¬ Holds ['/', '/'] t) (hblock : ¬ Holds ['/', '*'] t) (hs : s.head? ≠ some '/')
    (hs' : s.head? ≠ some '*') : scan .code depth (t ++ s) = (scan .code 0 s).pushAll t := by
  rw [← isNested_iff] at h
  have tail : ∀ {c d e : Char} {t : Text}, ¬ Holds [d, e] (c :: t) → ¬ Holds [d, e] t :=
    fun hnot hholds => hnot (hholds.append_left [_])
  fun_induction isNested depth t with
  | case1 depth =>
    rw [beq_iff_eq] at h
    rw [h, List.nil_append, pushAll_nil]
  | case2 depth t ih => rw [List.cons_append, scan, ih h (tail hline) (tail hblock), push_pushAll]
  | case3 t => cases h
  | case4 depth t ih => rw [List.cons_append, scan, ih h (tail hline) (tail hblock), push_pushAll]
  | case5 depth t ih =>
    rw [Bool.and_eq_true, bne_iff_ne] at h
    obtain ⟨depth, rfl⟩ := Nat.exists_eq_succ_of_ne_zero h.1
    rw [List.cons_append, scan, ih h.2 (tail hline) (tail hblock), push_pushAll]
    all_goals simp
  | case6 depth c t hopen hclose hclose' hcomma ih =>
    -- a slash at the end of the text makes no comment with what follows
    have other : ∀ {d : Char} {v : Text}, ¬ Holds ['/', d] (c :: t) → s.head? ≠ some d →
        c = '/' → t ++ s = d :: v → False := by
      intro d v hnot hhead hc hts
      cases t with
      | nil =>
        rw [List.nil_append] at hts
        exact hhead (by rw [hts, List.head?_cons])
      | cons e t =>
        obtain ⟨rfl, _⟩ := List.cons.inj hts
        exact hnot ⟨[], t, by rw [hc]; rfl⟩
    rw [List.cons_append, scan, ih h (tail hline) (tail hblock), push_pushAll]
    · exact fun v hc hts => other hline hs hc hts
    · exact fun v hc hts => other hblock hs' hc hts
    · exact hopen
    · exact hclose
    · exact hclose'
    · exact fun _ => hcomma

/-! ## All tokens of a table -/

theorem tokens_pushAll_comma {token : Text} (h : IsToken token) (cut : Cut) :
    (cut.comma.pushAll token).tokens = token :: cut.tokens := by
  simp only [tokens, pushAll, comma, List.append_nil, List.map_cons, h.trimmed]
  rw [List.filter_cons_of_pos (by simp [h.ne_nil])]

theorem tokens_push_blank {c : Char} (hc : isBlank c = true) (cut : Cut) :
    (cut.push c).tokens = cut.tokens := by
  have htrim : trim (c :: cut.piece) = trim cut.piece := by
    rw [trim, trim, trimStart, List.dropWhile_cons_of_pos hc, ← trimStart]
  simp only [tokens, push, List.map_cons, htrim]

end Cut

namespace Table

/-- Tokens as a table lists them. -/
def joined (tokens : List Text) : Text := List.intercalate [',', ' '] tokens

theorem scan_joined {tokens : List Text} (hne : tokens ≠ []) (h : ∀ token ∈ tokens, IsToken token)
    (after : Text) :
    (Cut.scan .code 0 (joined tokens ++ ')' :: after)).tokens = tokens ∧
      (Cut.scan .code 0 (joined tokens ++ ')' :: after)).rest = some after := by
  have scan : ∀ {token s : Text}, IsToken token → s.head? ≠ some '/' → s.head? ≠ some '*' →
      Cut.scan .code 0 (token ++ s) = (Cut.scan .code 0 s).pushAll token := by
    intro token s htoken hs hs'
    exact Cut.scan_append_of_nested htoken.nested htoken.noLineComment
      (openMark_eq ▸ htoken.noBlockComment) hs hs'
  induction tokens with
  | nil => exact absurd rfl hne
  | cons token tokens ih =>
    have htoken := h token List.mem_cons_self
    cases tokens with
    | nil =>
      rw [joined, List.intercalate_singleton, scan htoken (by simp) (by simp), Cut.scan]
      refine ⟨?_, rfl⟩
      simp [Cut.tokens, Cut.pushAll, htoken.trimmed, htoken.ne_nil]
    | cons token' tokens =>
      obtain ⟨htokens, hrest⟩ :=
        ih (List.cons_ne_nil _ _) fun t ht => h t (List.mem_cons_of_mem _ ht)
      have hscan : Cut.scan .code 0 (joined (token :: token' :: tokens) ++ ')' :: after) =
          ((Cut.scan .code 0 (joined (token' :: tokens) ++ ')' :: after)).push ' ').comma.pushAll
            token := by
        rw [joined, List.intercalate_cons_cons, List.append_assoc, List.append_assoc,
          scan htoken (by simp) (by simp), List.cons_append, List.cons_append, List.nil_append]
        rfl
      rw [hscan, Cut.tokens_pushAll_comma htoken, Cut.tokens_push_blank (by decide), htokens]
      exact ⟨rfl, hrest⟩

theorem read_joined {tokens : List Text} (hne : tokens ≠ []) (h : ∀ token ∈ tokens, IsToken token)
    (after : Text) :
    read ((joined tokens ++ [')']) ++ after) = (⟨joined tokens ++ [')'], tokens, true⟩, after) := by
  obtain ⟨htokens, hrest⟩ := scan_joined hne h after
  rw [← List.singleton_append, ← List.append_assoc] at htokens hrest
  simp only [read, htokens, hrest, Option.getD_some, Option.isSome_some, upTo_append]

end Table
end KeyChart
