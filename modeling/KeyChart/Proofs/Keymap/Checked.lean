import KeyChart.Proofs.Keymap.Concatenation
import KeyChart.Proofs.Keymap.Coverage
import KeyChart.Proofs.Text.Slices

/-!
A reading that goes from line to line of a text by the table of line starts and stops without a result
as soon as a slice is not one of the text or a parenthesis is closed that is not open. Main statement:
it never stops early, and finds the layers of the text (`Checked.layers_eq`).
-/

namespace KeyChart

open Text Header

/-! ## Ends of lines -/

/-- A line holds no newline but at its end. -/
theorem Text.newlines_dropLast_lineRest (t : Text) : newlines (lineRest t).dropLast = 0 := by
  induction t with
  | nil => rfl
  | cons c t ih =>
    by_cases hc : c = '\n'
    · rw [lineRest, if_pos hc]
      rfl
    · rw [lineRest, if_neg hc]
      cases hrest : lineRest t with
      | nil => rfl
      | cons d u => rw [List.dropLast_cons_cons, ← hrest, newlines_cons_of_ne hc, ih]

theorem Text.exists_lineRest_eq_concat {t : Text} (h : nextLines t ≠ []) :
    ∃ u, lineRest t = u ++ ['\n'] ∧ newlines u = 0 := by
  have hmem : '\n' ∈ lineRest t ++ nextLines t :=
    List.mem_append_left _ (mem_lineRest_of_nextLines_ne_nil h)
  rw [lineRest_append_nextLines] at hmem
  obtain ⟨u, hu⟩ := exists_lineRest_eq hmem
  have hcount := newlines_dropLast_lineRest t
  rw [hu, List.dropLast_concat] at hcount
  exact ⟨u, hu, hcount⟩

theorem Text.isLines_lineRest {t : Text} (h : nextLines t ≠ []) : IsLines (lineRest t) := by
  obtain ⟨u, hu, -⟩ := exists_lineRest_eq_concat h
  rw [hu]
  exact isLines_concat u

/-- The line of the last byte of a front part. -/
theorem Text.lineAt_sub_one {y : Text} (hy : y ≠ []) (z : Text) :
    lineAt (lineStarts (y ++ z)) (byteSize y - 1) = newlines y.dropLast := by
  have hpos := byteSize_pos hy
  have hlast := List.dropLast_concat_getLast hy
  rw [lineAt_lineStarts (by rw [byteSize_append]; omega)]
  conv => lhs; rw [← hlast, List.append_assoc, List.singleton_append]
  exact newlines_takeBytes_sub_one _ _ _

/-- The first header of a line, and the whole text behind it. -/
theorem Header.first?_of_lineRest {v lead trail : Text} {h : Header}
    (hfirst : first? (lineRest v) = some (lead, h, trail)) :
    first? v = some (lead, h, trail ++ nextLines v) := by
  obtain ⟨hlead, wf, hbare⟩ := first?_eq_some_iff_bare.1 hfirst
  have hv : lead ++ (h.spelled ++ (trail ++ nextLines v)) = v := by
    rw [← List.append_assoc h.spelled, ← List.append_assoc lead, ← hlead,
      lineRest_append_nextLines]
  exact first?_eq_some_iff_bare.2 ⟨hv.symm, wf, hbare⟩

/-! ## What is left of a source -/

namespace Keymap

/-- The layers that are declared in a text, if it starts at byte `start` of one with these lines. -/
def layersFrom (starts : Array Nat) (start : Nat) (v : Text) : List Layer :=
  ((placed start (read v).declarations).map fun p => p.2.layer starts p.1).filter
    fun l => l.tokens ≠ []

theorem read_of_bare {v : Text} (h : Bare v) : read v = ⟨[], v⟩ := by
  rw [read]
  split
  · rfl
  · next hfirst =>
    rw [h] at hfirst
    cases hfirst

theorem read_of_first? {v lead rest : Text} {h : Header} (hfirst : first? v = some (lead, h, rest)) :
    read v =
      let later := read (nextLines (Table.read rest).2)
      ⟨⟨lead, h, (Table.read rest).1, lineRest (Table.read rest).2⟩ :: later.declarations,
        later.tail⟩ := by
  rw [read]
  split
  · next hnone =>
    rw [hnone] at hfirst
    cases hfirst
  · next hsome =>
    rw [hsome] at hfirst
    cases hfirst
    rfl

variable (starts : Array Nat) (start : Nat)

theorem layersFrom_of_bare {v : Text} (h : Bare v) : layersFrom starts start v = [] := by
  rw [layersFrom, read_of_bare h]
  rfl

theorem layersFrom_of_first? {v lead rest : Text} {h : Header}
    (hfirst : first? v = some (lead, h, rest)) :
    layersFrom starts start v =
      [Layer.mk h.name (Table.read rest).1.tokens (lineAt starts (start + byteSize lead))
        ⟨start + byteSize lead, start + byteSize lead + byteSize h.spelled⟩].filter
          (fun l => l.tokens ≠ []) ++
      layersFrom starts
        (start + byteSize (lead ++ h.spelled ++ (Table.read rest).1.text ++
          lineRest (Table.read rest).2))
        (nextLines (Table.read rest).2) := by
  rw [layersFrom, read_of_first? hfirst]
  rw [placed, List.map_cons, ← List.singleton_append, List.filter_append]
  rfl

/-- A line without a header is passed over. -/
theorem layersFrom_lineRest {v : Text} (h : Bare (lineRest v)) :
    layersFrom starts start v =
      layersFrom starts (start + byteSize (lineRest v)) (nextLines v) := by
  have hv := lineRest_append_nextLines v
  by_cases hnext : nextLines v = []
  · rw [hnext, List.append_nil] at hv
    rw [hnext, layersFrom_of_bare _ _ bare_nil, ← hv, layersFrom_of_bare _ _ h]
  · have hlines := isLines_lineRest hnext
    cases hfirst : first? (nextLines v) with
    | none =>
      have hbare := hlines.bare_append h hfirst
      rw [hv] at hbare
      rw [layersFrom_of_bare _ _ hbare, layersFrom_of_bare _ _ hfirst]
    | some found =>
      obtain ⟨lead, hd, rest⟩ := found
      obtain ⟨hlead, wf, hbare⟩ := first?_eq_some_iff_bare.1 hfirst
      have hfirst' : first? v = some (lineRest v ++ lead, hd, rest) := by
        refine first?_eq_some_iff_bare.2 ⟨?_, wf, hlines.bare_append h hbare⟩
        rw [List.append_assoc, ← hlead, hv]
      rw [layersFrom_of_first? _ _ hfirst', layersFrom_of_first? _ _ hfirst]
      simp only [byteSize_append, Nat.add_assoc]

end Keymap

/-! ## The reading -/

namespace Checked

/-- Cuts a table, with the number of parentheses that are open, its own among them. -/
def scan : Region → Nat → Text → Option Cut
  | _, _, [] => some ⟨[], [], none⟩
  | .lineComment, depth, c :: t =>
    if c = '\n' then scan .code depth t else scan .lineComment depth t
  | .blockComment, depth, '*' :: '/' :: t => scan .code depth t
  | .blockComment, depth, _ :: t => scan .blockComment depth t
  | .code, depth, '/' :: '/' :: t => scan .lineComment depth t
  | .code, depth, '/' :: '*' :: t => scan .blockComment depth t
  | .code, depth, '(' :: t => (scan .code (depth + 1) t).map (Cut.push '(')
  | .code, depth, ')' :: t => do
    let inner ← sub? depth 1
    if inner = 0 then some ⟨[], [], some t⟩ else (scan .code inner t).map (Cut.push ')')
  | .code, depth, ',' :: t =>
    if depth = 1 then (scan .code depth t).map Cut.comma else (scan .code depth t).map (Cut.push ',')
  | .code, depth, c :: t => (scan .code depth t).map (Cut.push c)

/-- The layer that the line at byte `start` declares, if its table holds a key, and the line at which
the reading goes on. -/
def visitLine (t : Text) (starts : Array Nat) (line start : Nat) : Option (List Layer × Nat) := do
  let text ← slice? ⟨start, starts[line + 1]?.getD (byteSize t)⟩ t
  match first? text with
  | none => some ([], line + 1)
  | some (lead, header, _) =>
    let span : Span := ⟨start + byteSize lead, start + byteSize lead + byteSize header.spelled⟩
    let body ← slice? ⟨span.stop, byteSize t⟩ t
    let cut ← scan .code 1 body
    let stop := span.stop + byteSize (upTo (cut.rest.getD []) body)
    let found : List Layer := [⟨header.name, cut.tokens, line, span⟩]
    some (found.filter fun l => l.tokens ≠ [], max (lineAt starts (stop - 1)) line + 1)

theorem lt_of_visitLine {t : Text} {starts : Array Nat} {line start next : Nat} {found : List Layer}
    (h : visitLine t starts line start = some (found, next)) : line < next := by
  simp only [visitLine, Option.bind_eq_bind, Option.bind_eq_some_iff] at h
  obtain ⟨text, -, h⟩ := h
  split at h
  · cases h
    exact Nat.lt_succ_self line
  · simp only [Option.bind_eq_some_iff] at h
    obtain ⟨body, -, cut, -, h⟩ := h
    cases h
    exact Nat.lt_succ_of_le (Nat.le_max_right _ _)

/-- The layers on a line of a text and on those behind it. -/
def walk (t : Text) (starts : Array Nat) (line : Nat) : Option (List Layer) :=
  match _hstart : starts[line]? with
  | none => some []
  | some start =>
    match _hvisit : visitLine t starts line start with
    | none => none
    | some (found, next) => (walk t starts next).map (found ++ ·)
termination_by starts.size - line
decreasing_by
  have hline := (Array.getElem?_eq_some_iff.1 _hstart).1
  have hnext := lt_of_visitLine _hvisit
  omega

def layers (t : Text) : Option (List Layer) := walk t (lineStarts t) 0

/-! ## The parentheses of a table -/

theorem scan_eq (region : Region) (depth : Nat) (t : Text) :
    scan region (depth + 1) t = some (Cut.scan region depth t) := by
  fun_induction Cut.scan region depth t with
  | case1 => simp [scan]
  | case2 depth t ih => rw [scan, if_pos rfl, ih]
  | case3 depth c t hc ih => rw [scan, if_neg hc, ih]
  | case4 depth t ih => rw [scan, ih]
  | case5 depth c t hc ih => rw [scan, ih]; exact hc
  | case6 depth t ih => rw [scan, ih]
  | case7 depth t ih => rw [scan, ih]
  | case8 depth t ih => rw [scan, ih]; rfl
  | case9 t => rw [scan]; rfl
  | case10 depth t ih => rw [scan]; simp [sub?, ih]
  | case11 t ih => rw [scan, if_pos rfl, ih]; rfl
  | case12 depth c t hline hblock hopen hclose hpop hcomma ih =>
    have hclosing : c ≠ ')' := by
      rintro rfl
      cases depth with
      | zero => exact hclose rfl rfl
      | succ depth => exact hpop depth rfl rfl
    by_cases hc : c = ','
    · -- a comma inside inner parentheses
      subst hc
      have hdepth : depth + 1 ≠ 1 := fun heq => hcomma (Nat.succ.inj heq) rfl
      rw [scan, if_neg hdepth, ih]
      rfl
    · rw [scan, ih]
      · rfl
      · exact hline
      · exact hblock
      · exact hopen
      · exact hclosing
      · exact hc

/-- Where none is open, a closing parenthesis stops the scan. -/
example : scan .code 0 ['K', ')'] = none := by decide

/-! ## From line to line -/

/-- A reading has come to a line that starts between these two parts of a text, or is past the last
line. -/
inductive Standing (t : Text) : Nat → Text → Text → Prop
  | line {u v : Text} (htext : t = u ++ v) (hlines : IsLines u) (hv : v ≠ [] ∨ u = []) :
      Standing t (newlines u) u v
  | past {line : Nat} (hline : (lineStarts t).size ≤ line) : Standing t line t []

namespace Standing

variable {t : Text} {line : Nat} {u v : Text}

theorem getD_start (h : Standing t line u v) :
    (lineStarts t)[line]?.getD (byteSize t) = byteSize u := by
  cases h with
  | line htext hlines hv => rw [htext, getElem?_lineStarts hlines hv, Option.getD_some]
  | past hline => rw [Array.getElem?_eq_none hline, Option.getD_none]

/-- The line behind one that starts somewhere in `p`. -/
theorem next {p q : Text} (ht : t = p ++ q) (hq : q ≠ [] ∨ p = []) :
    Standing t (newlines p + 1) (p ++ lineRest q) (nextLines q) := by
  have hsplit := lineRest_append_nextLines q
  by_cases hnext : nextLines q = []
  · rw [hnext, List.append_nil] at hsplit
    rw [hnext, hsplit, ← ht]
    refine .past ?_
    rw [size_lineStarts, ht]
    have hrest := newlines_dropLast_lineRest q
    rw [hsplit] at hrest
    apply Nat.succ_le_succ
    rcases hq with hq | rfl
    · rw [List.dropLast_append_of_ne_nil hq, newlines_append, hrest]
      exact Nat.le_refl _
    · rw [List.nil_append, hrest]
      exact Nat.zero_le _
  · obtain ⟨x, hx, hcount⟩ := exists_lineRest_eq_concat hnext
    have hline : newlines (p ++ lineRest q) = newlines p + 1 := by
      rw [newlines_append, hx, newlines_append, hcount]
      rfl
    rw [← hline]
    refine .line ?_ ?_ (Or.inl hnext)
    · rw [List.append_assoc, hsplit, ht]
    · rw [hx, ← List.append_assoc]
      exact isLines_concat _

/-- The line behind the one on which a table ends. -/
theorem behind_table {x rest : Text} (ht : t = x ++ rest) (hx : x ≠ []) :
    Standing t (newlines (x ++ (Table.read rest).1.text).dropLast + 1)
      (x ++ (Table.read rest).1.text ++ lineRest (Table.read rest).2)
      (nextLines (Table.read rest).2) := by
  have hread : Table.read ((Table.read rest).1.text ++ (Table.read rest).2) =
      ((Table.read rest).1, (Table.read rest).2) := by rw [Table.text_append_rest]
  have hsplit : t = x ++ (Table.read rest).1.text ++ (Table.read rest).2 := by
    rw [List.append_assoc, Table.text_append_rest, ht]
  have hne : x ++ (Table.read rest).1.text ≠ [] := List.append_ne_nil_of_left_ne_nil hx _
  have hlast := List.dropLast_concat_getLast hne
  by_cases hafter : (Table.read rest).2 = []
  · -- the text ends with the table
    have hone : ∀ c : Char, lineRest [c] = [c] ∧ nextLines [c] = [] := by
      intro c
      by_cases hc : c = '\n' <;> simp [lineRest, nextLines, hc]
    rw [hafter, List.append_nil, ← hlast] at hsplit
    have hnext := next hsplit (Or.inl (List.cons_ne_nil _ _))
    rw [(hone _).1, (hone _).2, hlast] at hnext
    rw [hafter, lineRest, nextLines, List.append_nil]
    exact hnext
  · obtain ⟨w, hw⟩ := Table.exists_close_of_read hread hafter
    have hcount : newlines (x ++ (Table.read rest).1.text).dropLast =
        newlines (x ++ (Table.read rest).1.text) := by
      rw [hw, ← List.append_assoc, List.dropLast_concat, newlines_append (x ++ w)]
      rfl
    rw [hcount]
    exact next hsplit (Or.inl hafter)

end Standing

/-! ## One line, and all of them -/

theorem slice?_line {t u v : Text} (ht : t = u ++ v) (hv : v ≠ [] ∨ u = []) :
    slice? ⟨byteSize u, (lineStarts t)[newlines u + 1]?.getD (byteSize t)⟩ t =
      some (lineRest v) := by
  have htext : t = u ++ (lineRest v ++ nextLines v) := by rw [lineRest_append_nextLines, ht]
  rw [(Standing.next ht hv).getD_start, byteSize_append, htext, slice?_append]

/-- The line with the last byte of header and table is not before the line of the header. -/
theorem max_lineAt_table {t u w rest : Text} (ht : t = u ++ w ++ rest) (hw : w ≠ []) :
    max (lineAt (lineStarts t) (byteSize (u ++ w ++ (Table.read rest).1.text) - 1)) (newlines u) =
      newlines (u ++ w ++ (Table.read rest).1.text).dropLast := by
  have hne : w ++ (Table.read rest).1.text ≠ [] := List.append_ne_nil_of_left_ne_nil hw _
  have htext : t = u ++ (w ++ (Table.read rest).1.text) ++ (Table.read rest).2 := by
    rw [ht, ← Table.text_append_rest rest]
    simp only [List.append_assoc, Table.text_append_rest]
  have hall : u ++ (w ++ (Table.read rest).1.text) ≠ [] := List.append_ne_nil_of_right_ne_nil u hne
  rw [List.append_assoc, htext, lineAt_sub_one hall, List.dropLast_append_of_ne_nil hne]
  exact Nat.max_eq_left (newlines_le_of_append _ _)

/-- A line with a header: the slices are made, and the table behind the header is read. -/
theorem visitLine_of_first? {t u line lead trail rest : Text} {h : Header}
    (hline : slice? ⟨byteSize u, (lineStarts t)[newlines u + 1]?.getD (byteSize t)⟩ t = some line)
    (hfirst : first? line = some (lead, h, trail)) (ht : t = u ++ (lead ++ h.spelled) ++ rest) :
    visitLine t (lineStarts t) (newlines u) (byteSize u) =
      some ([Layer.mk h.name (Table.read rest).1.tokens (newlines u)
          ⟨byteSize u + byteSize lead, byteSize u + byteSize lead + byteSize h.spelled⟩].filter
            (fun l => l.tokens ≠ []),
        newlines (u ++ (lead ++ h.spelled) ++ (Table.read rest).1.text).dropLast + 1) := by
  have hbody : slice? ⟨byteSize u + byteSize lead + byteSize h.spelled, byteSize t⟩ t =
      some rest := by
    have hslice := slice?_append_byteSize (u ++ (lead ++ h.spelled)) rest
    rwa [← ht, byteSize_append, byteSize_append, ← Nat.add_assoc] at hslice
  have hstop : byteSize u + byteSize lead + byteSize h.spelled +
      byteSize (upTo ((Cut.scan .code 0 rest).rest.getD []) rest) =
      byteSize (u ++ (lead ++ h.spelled) ++ (Table.read rest).1.text) := by
    simp only [byteSize_append, Nat.add_assoc]
    rfl
  have hne : lead ++ h.spelled ≠ [] := List.append_ne_nil_of_right_ne_nil lead h.spelled_ne_nil
  simp only [visitLine, hline, hfirst, hbody, scan_eq, Option.bind_eq_bind, Option.bind_some, hstop,
    max_lineAt_table ht hne]
  rfl

/-- One line of a reading takes it to the next one, and finds the layers that are left but for those
behind that. -/
theorem visitLine_eq {t u v : Text} (ht : t = u ++ v) (hu : IsLines u) (hv : v ≠ [] ∨ u = []) :
    ∃ found next u' v', visitLine t (lineStarts t) (newlines u) (byteSize u) = some (found, next) ∧
      Standing t next u' v' ∧ Keymap.layersFrom (lineStarts t) (byteSize u) v =
        found ++ Keymap.layersFrom (lineStarts t) (byteSize u') v' := by
  have hslice := slice?_line ht hv
  cases hline : first? (lineRest v) with
  | none =>
    have hvisit : visitLine t (lineStarts t) (newlines u) (byteSize u) =
        some ([], newlines u + 1) := by
      simp only [visitLine, hslice, hline, Option.bind_eq_bind, Option.bind_some]
    refine ⟨[], _, _, _, hvisit, Standing.next ht hv, ?_⟩
    rw [Keymap.layersFrom_lineRest _ _ hline, byteSize_append, List.nil_append]
  | some found =>
    obtain ⟨lead, h, trail⟩ := found
    have hfirst := first?_of_lineRest hline
    obtain ⟨hsplit, -, -⟩ := first?_eq_some_iff.1 hfirst
    have htext : t = u ++ (lead ++ h.spelled) ++ (trail ++ nextLines v) := by
      calc t = u ++ v := ht
        _ = u ++ (lead ++ (h.spelled ++ (trail ++ nextLines v))) := congrArg (u ++ ·) hsplit
        _ = u ++ (lead ++ h.spelled) ++ (trail ++ nextLines v) := by
          simp only [List.append_assoc]
    have hwhole : IsLineOf t u (lineRest v) (nextLines v) :=
      ⟨by rw [lineRest_append_nextLines, ht], hu, by rw [lineRest_append_nextLines]⟩
    have hnewline : newlines lead = 0 := newlines_eq_zero_iff.2 (hwhole.not_mem_newline hline)
    have hstart : lineAt (lineStarts t) (byteSize u + byteSize lead) = newlines u := by
      rw [htext, List.append_assoc, List.append_assoc, ← List.append_assoc, ← byteSize_append,
        lineAt_byteSize _ (List.append_ne_nil_of_left_ne_nil h.spelled_ne_nil _),
        newlines_append, hnewline, Nat.add_zero]
    have hne : u ++ (lead ++ h.spelled) ≠ [] :=
      List.append_ne_nil_of_right_ne_nil u (List.append_ne_nil_of_right_ne_nil lead h.spelled_ne_nil)
    refine ⟨_, _, _, _, visitLine_of_first? hslice hline htext, Standing.behind_table htext hne, ?_⟩
    rw [Keymap.layersFrom_of_first? _ _ hfirst, hstart]
    simp only [byteSize_append, Nat.add_assoc]

theorem Standing.visitLine_eq {t u v : Text} {line start : Nat} (h : Standing t line u v)
    (hstart : (lineStarts t)[line]? = some start) :
    ∃ found next u' v', visitLine t (lineStarts t) line start = some (found, next) ∧
      Standing t next u' v' ∧ Keymap.layersFrom (lineStarts t) (byteSize u) v =
        found ++ Keymap.layersFrom (lineStarts t) (byteSize u') v' := by
  cases h with
  | line htext hlines hv =>
    have hentry := getElem?_lineStarts hlines hv
    rw [← htext, hstart, Option.some.injEq] at hentry
    rw [hentry]
    exact Checked.visitLine_eq htext hlines hv
  | past hline =>
    rw [Array.getElem?_eq_none hline] at hstart
    cases hstart

theorem walk_eq {t u v : Text} {line : Nat} (h : Standing t line u v) :
    walk t (lineStarts t) line = some (Keymap.layersFrom (lineStarts t) (byteSize u) v) := by
  fun_induction walk t (lineStarts t) line generalizing u v with
  | case1 line hstart =>
    cases h with
    | line htext hlines hv =>
      rw [htext, getElem?_lineStarts hlines hv] at hstart
      cases hstart
    | past _ => rw [Keymap.layersFrom_of_bare _ _ bare_nil]
  | case2 line start hstart hvisit =>
    obtain ⟨found, next, u', v', hsome, -, -⟩ := h.visitLine_eq hstart
    rw [hvisit] at hsome
    cases hsome
  | case3 line start hstart found next hvisit ih =>
    obtain ⟨found', next', u', v', hsome, hstanding, hlayers⟩ := h.visitLine_eq hstart
    rw [hvisit, Option.some.injEq, Prod.mk.injEq] at hsome
    obtain ⟨rfl, rfl⟩ := hsome
    rw [ih hstanding, hlayers, Option.map_some]

theorem layers_eq (t : Text) : layers t = some (Keymap.layers t) :=
  walk_eq (.line (List.nil_append t).symm isLines_nil (Or.inr rfl))

end Checked
end KeyChart
