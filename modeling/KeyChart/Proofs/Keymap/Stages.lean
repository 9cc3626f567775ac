import KeyChart.Proofs.Keymap.Scan

/-!
Tables read in two stages. The first stage marks the characters of a text that stand in comments; the
second looks at the code that is left, finds the parenthesis that closes the table and cuts the code
before it at its outer commas. Main statement: the scan of a table does both at once
(`table_read_in_stages`).
-/

namespace KeyChart

open Text Comment

/-! ## Two stages -/

/-- A character of a text, by whether it is code or stands in a comment. -/
inductive Marked
  | code (c : Char)
  | comment (c : Char)
  deriving DecidableEq, Repr

namespace Marked

def char : Marked → Char
  | code c => c
  | comment c => c

def code? : Marked → Option Char
  | code c => some c
  | comment _ => none

/-- Marks the characters of a text from left to right. A line comment goes through the next newline, and
a block comment through the first end mark behind its opening; either may go to the end of the text. -/
def ofText : Text → List Marked
  | [] => []
  | '/' :: '/' :: t =>
    (lineRest ('/' :: '/' :: t)).map comment ++ ofText (nextLines ('/' :: '/' :: t))
  | '/' :: '*' :: t =>
    ('/' :: '*' :: throughFirst endMark t).map comment ++ ofText (behindFirst endMark t)
  | c :: t => code c :: ofText t
termination_by t => t.length
decreasing_by
  · have hle := length_nextLines_le t
    have hslash : nextLines ('/' :: '/' :: t) = nextLines t := rfl
    rw [hslash, List.length_cons, List.length_cons]
    omega
  · have hlen := congrArg List.length (throughFirst_append_behindFirst endMark t)
    rw [List.length_append] at hlen
    rw [List.length_cons, List.length_cons]
    omega
  · exact Nat.lt_succ_self _

/-- The text of marked characters. -/
def chars (ms : List Marked) : Text := ms.map char

/-- The code among them. -/
def codeOf (ms : List Marked) : Text := ms.filterMap code?

theorem chars_ofText (t : Text) : chars (ofText t) = t := by
  have hcomment : ∀ u : Text, chars (u.map comment) = u := by
    intro u
    rw [chars, List.map_map]
    exact List.map_id u
  have happend : ∀ ms ns : List Marked, chars (ms ++ ns) = chars ms ++ chars ns :=
    fun ms ns => List.map_append
  fun_induction ofText t with
  | case1 => rfl
  | case2 t ih => rw [happend, hcomment, ih, lineRest_append_nextLines]
  | case3 t ih =>
    rw [happend, hcomment, ih, List.cons_append, List.cons_append, throughFirst_append_behindFirst]
  | case4 c t _ _ ih =>
    rw [chars, List.map_cons, ← chars, ih]
    rfl

end Marked

/-- The text holds as many opening parentheses as closing ones. -/
def Text.Balanced (t : Text) : Prop := t.count '(' = t.count ')'

instance (t : Text) : Decidable (Text.Balanced t) := inferInstanceAs (Decidable (_ = _))

/-- Behind some code, no parenthesis of the code among the characters closes more than is open. -/
def Unclosed (front : Text) (ms : List Marked) : Prop :=
  ∀ u v, ms = u ++ .code ')' :: v → ¬ Balanced (front ++ Marked.codeOf u)

/-- The first parenthesis in the code that closes more than is open: what stands before and behind it. -/
structure Closing (ms before after : List Marked) : Prop where
  text : ms = before ++ .code ')' :: after
  balanced : Balanced (Marked.codeOf before)
  first : Unclosed [] before

/-- Cuts code at the commas outside all parentheses, given the code in front of it. -/
def outerPieces (front : Text) : Text → List Text
  | [] => [[]]
  | c :: t =>
    if c = ',' ∧ Balanced front then [] :: outerPieces (front ++ [c]) t
    else (outerPieces (front ++ [c]) t).modifyHead (c :: ·)

/-- The pieces of code as tokens: without blanks around them, and none that is blank. -/
def tokensOf (code : Text) : List Text :=
  ((outerPieces [] code).map trim).filter fun token => token ≠ []

/-! ## Up to the closing parenthesis -/

theorem Text.balanced_iff {front : Text} {depth : Nat}
    (h : front.count '(' = depth + front.count ')') : Balanced front ↔ depth = 0 := by
  rw [Balanced, h]
  omega

theorem count_append_singleton {front : Text} {depth : Nat} {c : Char}
    (h : front.count '(' = depth + front.count ')') (hc : ¬ (c = ')' ∧ depth = 0)) :
    (front ++ [c]).count '(' = Cut.depthBehind depth c + (front ++ [c]).count ')' := by
  rw [List.count_append, List.count_append, Cut.depthBehind]
  by_cases hopen : c = '('
  · subst hopen
    rw [if_pos rfl, List.count_singleton_self, List.count_singleton, if_neg (by decide)]
    omega
  · rw [if_neg hopen, List.count_singleton, if_neg (by simpa using hopen)]
    by_cases hclose : c = ')'
    · subst hclose
      have hpos : depth ≠ 0 := fun hzero => hc ⟨rfl, hzero⟩
      rw [if_pos rfl, List.count_singleton_self]
      omega
    · rw [if_neg hclose, List.count_singleton, if_neg (by simpa using hclose)]
      omega

namespace Marked

/-- What stands before the first parenthesis that closes more than is open, given the code in front of
it, and what stands behind it. -/
def untilClosing (front : Text) : List Marked → List Marked × Option (List Marked)
  | [] => ([], none)
  | m :: ms =>
    if m = .code ')' ∧ Balanced front then ([], some ms)
    else
      let later := untilClosing (front ++ codeOf [m]) ms
      (m :: later.1, later.2)

theorem codeOf_cons (m : Marked) (ms : List Marked) : codeOf (m :: ms) = codeOf [m] ++ codeOf ms := by
  rw [← List.singleton_append, codeOf, List.filterMap_append]
  rfl

theorem unclosed_cons {front : Text} {m : Marked} {ms : List Marked}
    (hm : ¬ (m = .code ')' ∧ Balanced front)) (h : Unclosed (front ++ codeOf [m]) ms) :
    Unclosed front (m :: ms) := by
  intro u v htext
  cases u with
  | nil =>
    obtain ⟨rfl, -⟩ := List.cons.inj htext
    intro hbalanced
    exact hm ⟨rfl, by simpa [codeOf] using hbalanced⟩
  | cons n u =>
    obtain ⟨rfl, hms⟩ := List.cons.inj htext
    rw [codeOf_cons, ← List.append_assoc]
    exact h u v hms

theorem unclosed_nil (front : Text) : Unclosed front [] := by
  intro u v htext
  exact absurd htext.symm (List.append_ne_nil_of_right_ne_nil u (List.cons_ne_nil _ v))

theorem untilClosing_cases (front : Text) (ms : List Marked) :
    (∃ before after, untilClosing front ms = (before, some after) ∧
      ms = before ++ .code ')' :: after ∧ Balanced (front ++ codeOf before) ∧
      Unclosed front before) ∨
    untilClosing front ms = (ms, none) ∧ Unclosed front ms := by
  induction ms generalizing front with
  | nil => exact Or.inr ⟨rfl, unclosed_nil front⟩
  | cons m ms ih =>
    rw [untilClosing]
    split
    · next hclose =>
      obtain ⟨rfl, hbalanced⟩ := hclose
      refine Or.inl ⟨[], ms, rfl, rfl, ?_, unclosed_nil front⟩
      rw [codeOf, List.filterMap_nil, List.append_nil]
      exact hbalanced
    · next hopen =>
      rcases ih (front ++ codeOf [m]) with
        ⟨before, after, hstop, rfl, hbalanced, hunclosed⟩ | ⟨hstop, hunclosed⟩
      · refine Or.inl ⟨m :: before, after, by rw [hstop], rfl, ?_, unclosed_cons hopen hunclosed⟩
        rw [codeOf_cons, ← List.append_assoc]
        exact hbalanced
      · exact Or.inr ⟨by rw [hstop], unclosed_cons hopen hunclosed⟩

theorem untilClosing_map_comment (front u : Text) (ms : List Marked) :
    untilClosing front (u.map comment ++ ms) =
      (u.map comment ++ (untilClosing front ms).1, (untilClosing front ms).2) := by
  induction u with
  | nil => rfl
  | cons c u ih =>
    rw [List.map_cons, List.cons_append, untilClosing, if_neg (by simp)]
    simp only [codeOf, List.filterMap_cons, code?, List.filterMap_nil, List.append_nil, ih,
      List.cons_append]

theorem codeOf_map_comment (u : Text) (ms : List Marked) :
    codeOf (u.map comment ++ ms) = codeOf ms := by
  rw [codeOf, List.filterMap_append, List.filterMap_eq_nil_iff.2, List.nil_append]
  · rfl
  · intro m hm
    obtain ⟨c, -, rfl⟩ := List.mem_map.1 hm
    rfl

end Marked

/-! ## One stage for two -/

/-- A scan finds the pieces and the rest of the two stages, behind code that leaves `depth` parentheses
open. -/
theorem Cut.scan_eq_stages {front : Text} {depth : Nat} (h : front.count '(' = depth + front.count ')')
    (t : Text) :
    (scan .code depth t).piece :: (scan .code depth t).pieces =
        outerPieces front (Marked.codeOf (Marked.untilClosing front (Marked.ofText t)).1) ∧
      (scan .code depth t).rest =
        (Marked.untilClosing front (Marked.ofText t)).2.map Marked.chars := by
  fun_induction Marked.ofText t generalizing depth front with
  | case1 => exact ⟨rfl, rfl⟩
  | case2 t ih =>
    have hline : scan .code depth ('/' :: '/' :: t) = scan .code depth (nextLines ('/' :: '/' :: t)) :=
      scan_lineComment depth t
    rw [hline, Marked.untilClosing_map_comment, Marked.codeOf_map_comment]
    exact ih h
  | case3 t ih =>
    have hblock : scan .code depth ('/' :: '*' :: t) = scan .code depth (behindFirst endMark t) :=
      scan_blockComment depth t
    rw [hblock, Marked.untilClosing_map_comment, Marked.codeOf_map_comment]
    exact ih h
  | case4 c t hline hblock ih =>
    have hbalanced := balanced_iff h
    rw [scan_code_cons (fun r hc ht => hline r hc ht) (fun r hc ht => hblock r hc ht),
      Marked.untilClosing]
    by_cases hclose : c = ')' ∧ depth = 0
    · rw [if_pos hclose, if_pos ⟨by rw [hclose.1], hbalanced.2 hclose.2⟩]
      exact ⟨rfl, by rw [Option.map_some, Marked.chars_ofText]⟩
    · have hnot : ¬ (Marked.code c = .code ')' ∧ Balanced front) := by
        rw [Marked.code.injEq, hbalanced]
        exact hclose
      obtain ⟨hpieces, hrest⟩ := ih (count_append_singleton h hclose)
      rw [if_neg hclose, if_neg hnot]
      dsimp only
      rw [Marked.codeOf_cons, show Marked.codeOf [.code c] = [c] from rfl, List.singleton_append,
        outerPieces]
      by_cases hcomma : c = ',' ∧ depth = 0
      · obtain ⟨rfl, rfl⟩ := hcomma
        rw [if_pos ⟨rfl, rfl⟩, if_pos ⟨rfl, hbalanced.2 rfl⟩, ← hpieces]
        exact ⟨rfl, hrest⟩
      · rw [if_neg hcomma, if_neg (by rw [hbalanced]; exact hcomma), ← hpieces]
        exact ⟨rfl, hrest⟩

/-- A table ends at its first parenthesis in code that closes more than is open, or with the text if there
is none, and its tokens are those of the code before that. -/
theorem table_read_in_stages (t : Text) :
    (∃ before after, Closing (Marked.ofText t) before after ∧
      Table.read t = (⟨Marked.chars before ++ [')'], tokensOf (Marked.codeOf before), true⟩,
        Marked.chars after)) ∨
    Unclosed [] (Marked.ofText t) ∧
      Table.read t = (⟨t, tokensOf (Marked.codeOf (Marked.ofText t)), false⟩, []) := by
  have hstart : ([] : Text).count '(' = 0 + ([] : Text).count ')' := rfl
  obtain ⟨hpieces, hrest⟩ := Cut.scan_eq_stages hstart t
  have htokens : (Cut.scan .code 0 t).tokens =
      tokensOf (Marked.codeOf (Marked.untilClosing [] (Marked.ofText t)).1) := by
    rw [Cut.tokens, hpieces]
    rfl
  rw [Table.read, htokens, hrest]
  rcases Marked.untilClosing_cases [] (Marked.ofText t) with
    ⟨before, after, hstop, htext, hbalanced, hunclosed⟩ | ⟨hstop, hunclosed⟩
  · refine Or.inl ⟨before, after, ⟨htext, hbalanced, hunclosed⟩, ?_⟩
    have hchars : t = (Marked.chars before ++ [')']) ++ Marked.chars after := by
      calc t = Marked.chars (Marked.ofText t) := (Marked.chars_ofText t).symm
        _ = Marked.chars before ++ ')' :: Marked.chars after := by
          rw [htext, Marked.chars, List.map_append, List.map_cons]
          rfl
        _ = (Marked.chars before ++ [')']) ++ Marked.chars after := by
          rw [List.append_assoc, List.singleton_append]
    have hupTo : upTo (Marked.chars after) t = Marked.chars before ++ [')'] := by
      rw [hchars, upTo_append]
    rw [hstop]
    dsimp only [Option.map_some, Option.getD_some, Option.isSome_some]
    rw [hupTo]
  · refine Or.inr ⟨hunclosed, ?_⟩
    have hupTo : upTo [] t = t := by rw [upTo, List.length_nil, Nat.sub_zero, List.take_length]
    rw [hstop]
    dsimp only [Option.map_none, Option.getD_none, Option.isSome_none]
    rw [hupTo]

/-- A slash right behind the opening of a block comment does not end it. -/
example : (Table.read ['K', '/', '*', '/', ',', ')', '*', '/', 'L', ')']).1.tokens = [['K', 'L']] := by
  decide

end KeyChart
