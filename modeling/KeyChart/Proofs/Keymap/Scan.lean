import KeyChart.Keymap.Table
import KeyChart.Refresh.Comment
import KeyChart.Text.Lines

/-!
The scan of a table, a comment or a character at a time. Main statements: a scan in a comment goes on
behind it (`Cut.scan_lineComment`, `Cut.scan_blockComment`), and a character of code closes the table,
separates two pieces or belongs to the first piece (`Cut.scan_code_cons`).
-/

namespace KeyChart

open Text Comment

/-- Through the first place where a mark stands, or to the end of the text. -/
def Text.throughFirst (mark : Text) : Text → Text
  | [] => []
  | c :: t => if (after? mark (c :: t)).isSome then mark else c :: throughFirst mark t

/-- What follows that. -/
def Text.behindFirst (mark : Text) : Text → Text
  | [] => []
  | c :: t => (after? mark (c :: t)).getD (behindFirst mark t)

theorem Text.throughFirst_append_behindFirst (mark t : Text) :
    throughFirst mark t ++ behindFirst mark t = t := by
  induction t with
  | nil => rfl
  | cons c t ih =>
    rw [throughFirst, behindFirst]
    cases h : after? mark (c :: t) with
    | none => rw [Option.isSome_none, if_neg (by decide), Option.getD_none, List.cons_append, ih]
    | some r => rw [Option.isSome_some, if_pos rfl, Option.getD_some, after?_eq_some_iff.1 h]

namespace Cut

theorem scan_lineComment (depth : Nat) (t : Text) :
    scan .lineComment depth t = scan .code depth (nextLines t) := by
  induction t with
  | nil => rfl
  | cons c t ih =>
    rw [scan, nextLines]
    split
    · rfl
    · exact ih

theorem scan_blockComment (depth : Nat) (t : Text) :
    scan .blockComment depth t = scan .code depth (behindFirst endMark t) := by
  rw [endMark_eq]
  induction t with
  | nil => rfl
  | cons c t ih =>
    by_cases hend : ∃ r, c :: t = '*' :: '/' :: r
    · obtain ⟨r, hr⟩ := hend
      have hafter : after? ['*', '/'] (c :: t) = some r := after?_eq_some_iff.2 hr
      rw [behindFirst, hafter, Option.getD_some, hr, scan]
    · have hnone : after? ['*', '/'] (c :: t) = none := by
        rw [← Option.not_isSome_iff_eq_none, Option.isSome_iff_exists]
        intro hsome
        obtain ⟨r, hr⟩ := hsome
        exact hend ⟨r, after?_eq_some_iff.1 hr⟩
      rw [behindFirst, hnone, Option.getD_none, scan, ih]
      rintro r rfl rfl
      exact hend ⟨r, rfl⟩

/-- The depth behind a character of code. -/
def depthBehind (depth : Nat) (c : Char) : Nat :=
  if c = '(' then depth + 1 else if c = ')' then depth - 1 else depth

/-- A scan over one character of code. -/
theorem scan_code_cons {depth : Nat} {c : Char} {t : Text}
    (hline : ∀ r, c = '/' → t = '/' :: r → False) (hblock : ∀ r, c = '/' → t = '*' :: r → False) :
    scan .code depth (c :: t) =
      if c = ')' ∧ depth = 0 then ⟨[], [], some t⟩
      else if c = ',' ∧ depth = 0 then (scan .code 0 t).comma
      else (scan .code (depthBehind depth c) t).push c := by
  by_cases hopen : c = '('
  · subst hopen
    rfl
  by_cases hclose : c = ')'
  · subst hclose
    cases depth with
    | zero => rfl
    | succ depth => rfl
  have hdepth : depthBehind depth c = depth := by rw [depthBehind, if_neg hopen, if_neg hclose]
  rw [if_neg fun h => hclose h.1, hdepth]
  by_cases hcomma : c = ','
  · subst hcomma
    cases depth with
    | zero => rfl
    | succ depth => rfl
  · rw [if_neg fun h => hcomma h.1, scan]
    · exact hline
    · exact hblock
    · exact hopen
    · exact fun _ => hclose
    · exact fun _ _ => hclose
    · exact fun _ => hcomma

end Cut
end KeyChart
