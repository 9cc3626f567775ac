import KeyChart.Proofs.Diagram.Shape
import KeyChart.Proofs.Keymap.Concatenation

/-!
A diagram in front of a source. It is a whole number of lines in which no header stands, whatever its labels
are, so the layers of the source stay the same but for their places (`layers_behind_diagram`).
-/

namespace KeyChart
namespace Diagram

open Header Text

theorem bare_draw_newline {name : Text} (hname : IsName name) (label : Fin keyCount → Text) :
    Bare (draw name label ++ ['\n']) :=
  (bare_draw hname label).append_stop (bare_of_length_lt (by decide)) (by decide)

theorem layers_behind_diagram {name : Text} {tokens : List Text} (hname : IsName name)
    (hcount : tokens.length = keyCount) (s : Text) :
    ∃ diagram, draw? name tokens = some diagram ∧ Bare (diagram ++ ['\n']) ∧
      Keymap.layers (diagram ++ ['\n'] ++ s) =
        (Keymap.layers s).map (Layer.behind (diagram ++ ['\n'])) := by
  have hbare := bare_draw_newline hname (keyLabel tokens)
  exact ⟨draw name (keyLabel tokens), draw?_of_length hcount, hbare,
    layers_append_of_bare (isLines_concat _) hbare s⟩

namespace Sample

/-- Pieces of a header. Most keys have a whole one in their second line, of which the cell has room for
the name in its brackets; the last key has one that ends at the equals sign. -/
def headerTokens : List Text :=
  List.replicate 57 ['O', 'S', '_', '\n', '[', 'B', ']', ' ', '=', ' ', 'L', 'A', 'Y', 'O', 'U', 'T', '('] ++
    [['[', 'B', ']', '=']]

def declaration : Visit where
  gap := []
  header := ⟨['C'], [], [], [], [], []⟩
  table := ⟨['K', ')'], [['K']], true⟩

theorem layers_declaration : Keymap.layers declaration.text = [⟨['C'], [['K']], 0, ⟨0, 11⟩⟩] := by
  have hvisits : Keymap.visits declaration.text = [declaration] := by
    have hwf : declaration.header.WellFormed := (read?_eq_some_iff.1
      (show read? declaration.header.spelled = some (declaration.header, []) by decide)).2
    have hall : Visits .lineStart (declaration.text ++ []) [declaration] :=
      .visit (show Bare _ by decide) hwf (by decide) (.none bare_nil)
    exact hall.eq_visits
  rw [Keymap.layers, declared_eq_map_placed, hvisits]
  decide

/-- No rule takes the pieces, and they are labels as they are. -/
theorem keyLabel_headerTokens (index : Fin keyCount) :
    keyLabel headerTokens index = headerTokens.getD index [] := by
  have hkept : ∀ token ∈ headerTokens, Keycode.abbreviate token = token := by
    rw [headerTokens, List.forall_mem_append]
    refine ⟨fun token htoken => ?_, by decide +kernel⟩
    rw [(List.mem_replicate.1 htoken).2]
    decide +kernel
  have hlt : index.val < headerTokens.length := index.isLt
  rw [keyLabel, List.getD_eq_getElem?_getD, List.getElem?_eq_getElem hlt]
  exact hkept _ (List.getElem_mem hlt)

theorem size_headerTokens :
    let front := draw ['A'] (keyLabel headerTokens) ++ ['\n']
    byteSize front = 1401 ∧ newlines front = 71 := by
  rw [funext keyLabel_headerTokens]
  simp only [draw, template, frame, rows, List.flatMap_cons, List.flatMap_nil]
  -- the kernel is slow to read string literals, so they are spelled out as lists first
  repeat rw [String.toList_ofList]
  decide +kernel

end Sample

theorem layers_behind_diagram_sample : IsName ['A'] ∧ Sample.headerTokens.length = keyCount ∧
    ∃ diagram, draw? ['A'] Sample.headerTokens = some diagram ∧ Bare (diagram ++ ['\n']) ∧
      Keymap.layers Sample.declaration.text = [⟨['C'], [['K']], 0, ⟨0, 11⟩⟩] ∧
      Keymap.layers (diagram ++ ['\n'] ++ Sample.declaration.text) =
        [⟨['C'], [['K']], 71, ⟨1401, 1412⟩⟩] := by
  have hname : IsName ['A'] := isName_singleton (by decide)
  have hcount : Sample.headerTokens.length = keyCount := rfl
  obtain ⟨diagram, hdraw, hbare, hlayers⟩ := layers_behind_diagram hname hcount Sample.declaration.text
  obtain rfl : draw ['A'] (keyLabel Sample.headerTokens) = diagram :=
    Option.some.inj ((draw?_of_length hcount).symm.trans hdraw)
  obtain ⟨hsize, hnewlines⟩ := Sample.size_headerTokens
  refine ⟨hname, hcount, _, hdraw, hbare, Sample.layers_declaration, ?_⟩
  rw [hlayers, Sample.layers_declaration, List.map_singleton, Layer.behind, hsize, hnewlines]
  rfl

end Diagram
end KeyChart
