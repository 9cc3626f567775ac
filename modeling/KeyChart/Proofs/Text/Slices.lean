import KeyChart.Proofs.Text.Lines

/-!
Operations that can fail: a slice of a text, which has to lie in the text and to begin and end between
two characters, and a difference that must not fall below zero. Main statements: a middle part of a
text is a slice of it (`slice?_append`), and there is no slice inside a character.
-/

namespace KeyChart

/-- The difference of two numbers, if it is one. -/
def sub? (m n : Nat) : Option Nat := if n ≤ m then some (m - n) else none

theorem sub?_of_le {m n : Nat} (h : n ≤ m) : sub? m n = some (m - n) := if_pos h

namespace Text

/-- A byte lies between two characters if the characters that start before it end there. -/
theorem isBoundary_iff {t : Text} {n : Nat} : IsBoundary t n ↔ byteSize (takeBytes n t) = n := by
  constructor
  · rintro ⟨u, v, rfl, rfl⟩
    rw [takeBytes_append]
  · intro h
    exact ⟨takeBytes n t, dropBytes n t, (takeBytes_append_dropBytes n t).symm, h⟩

instance (t : Text) (n : Nat) : Decidable (IsBoundary t n) := decidable_of_iff' _ isBoundary_iff

/-- The bytes of a span, if it is one of the text and cuts no character. -/
def slice? (s : Span) (t : Text) : Option Text :=
  if s.start ≤ s.stop ∧ s.stop ≤ byteSize t ∧ IsBoundary t s.start ∧ IsBoundary t s.stop then
    some (within s t)
  else none

theorem slice?_of_isBoundary {t : Text} {m n : Nat} (hm : IsBoundary t m) (hn : IsBoundary t n)
    (hle : m ≤ n) : slice? ⟨m, n⟩ t = some (within ⟨m, n⟩ t) := by
  rw [slice?, if_pos]
  refine ⟨hle, ?_, hm, hn⟩
  obtain ⟨u, v, ht, hu⟩ := hn
  rw [ht, byteSize_append, ← hu]
  exact Nat.le_add_right _ _

theorem slice?_append (u v w : Text) :
    slice? ⟨byteSize u, byteSize u + byteSize v⟩ (u ++ (v ++ w)) = some v := by
  have hstart : IsBoundary (u ++ (v ++ w)) (byteSize u) := ⟨u, v ++ w, rfl, rfl⟩
  have hstop : IsBoundary (u ++ (v ++ w)) (byteSize u + byteSize v) :=
    ⟨u ++ v, w, (List.append_assoc u v w).symm, byteSize_append u v⟩
  rw [slice?_of_isBoundary hstart hstop (Nat.le_add_right _ _), within_append]

/-- The rest of a text behind a front part. -/
theorem slice?_append_byteSize (u v : Text) :
    slice? ⟨byteSize u, byteSize (u ++ v)⟩ (u ++ v) = some v := by
  have h := slice?_append u v []
  rwa [List.append_nil, ← byteSize_append] at h

/-- The front part of a text. -/
theorem slice?_zero_append (u v : Text) : slice? ⟨0, byteSize u⟩ (u ++ v) = some u := by
  have h := slice?_append [] u v
  rwa [byteSize, Nat.zero_add] at h

theorem dropBytes_sub {t : Text} {m n : Nat} (hm : IsBoundary t m) (hle : m ≤ n) :
    dropBytes (n - m) (dropBytes m t) = dropBytes n t := by
  obtain ⟨u, v, rfl, rfl⟩ := hm
  obtain ⟨k, rfl⟩ := Nat.exists_eq_add_of_le hle
  have hall := takeBytes_append_dropBytes (byteSize u + k) (u ++ v)
  have hrest := takeBytes_append_dropBytes k v
  rw [takeBytes_byteSize_add, List.append_assoc] at hall
  rw [dropBytes_append, Nat.add_sub_cancel_left]
  exact List.append_cancel_left (hrest.trans (List.append_cancel_left hall).symm)

example : slice? ⟨1, 3⟩ ['a', 'é'] = some ['é'] ∧ slice? ⟨1, 2⟩ ['a', 'é'] = none := by decide

end Text
end KeyChart
