import KeyChart.Text.Search

/-!
The block comment right above a place: only blanks may stand between its end mark and the place,
and its opening is the nearest one before that mark.
-/

namespace KeyChart
namespace Comment

def openMark : Text := "/*".toList

def endMark : Text := "*/".toList

theorem openMark_eq : openMark = ['/', '*'] := by rw [openMark, String.toList_ofList]

theorem endMark_eq : endMark = ['*', '/'] := by rw [endMark, String.toList_ofList]

/-- What comes before the comment that a text ends in, blanks after it aside. -/
def beforeComment? (t : Text) : Option Text := do
  let body ← Text.before? endMark (Text.trimEnd t)
  Text.beforeLast? openMark body

end Comment
end KeyChart
