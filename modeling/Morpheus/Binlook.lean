import Morpheus.BinarySearch

/-!
# Binary lookup in a table

`binlook` finds an entry of a sorted table or, when it need not be exact, the last entry
below the key.
-/
namespace Morpheus

/-- `binlook`; `compare` is the sign of the tag against entry `i`. -/
def binlook (compare : ℕ → ℤ) (nelems : ℕ) (exactMatch : Bool) : Option ℕ :=
  if nelems = 0 then none
  else
    match BinarySearch.search BinarySearch.lowerMiddle compare 0 nelems with
    | .ok mid => some mid
    | .error low => if exactMatch then none else some (if low > 0 then low - 1 else 0)

variable {compare : ℕ → ℤ} {nelems : ℕ}

/-- An exact lookup finds some entry that matches when there is one. -/
theorem binlook_exact_exists (hd : BinarySearch.Falling compare nelems) {i : ℕ} (hi : i < nelems)
    (h0 : compare i = 0) :
    ∃ j, binlook compare nelems true = some j ∧ j < nelems ∧ compare j = 0 := by
  have hn : nelems ≠ 0 := by omega
  obtain ⟨j, hsearch, hj, hj0⟩ := BinarySearch.search_exists hd hi h0
  exact ⟨j, by rw [binlook, if_neg hn, hsearch], hj, hj0⟩

theorem binlook_exact_none (h : ∀ i < nelems, compare i ≠ 0) :
    binlook compare nelems true = none := by
  rw [binlook]
  split
  · rfl
  · cases hs : BinarySearch.search BinarySearch.lowerMiddle compare 0 nelems with
    | ok i =>
      obtain ⟨-, hi, h0⟩ := BinarySearch.search_found hs
      exact absurd h0 (h i hi)
    | error low => rfl

/-- A lookup that need not be exact ends at an entry that is not above the tag, or at the
first one. -/
theorem binlook_inexact (hd : BinarySearch.Descending compare nelems) (hn : 0 < nelems) :
    ∃ i, binlook compare nelems false = some i ∧ i < nelems ∧ (i = 0 ∨ 0 ≤ compare i) := by
  rw [binlook, if_neg hn.ne']
  cases hs : BinarySearch.search BinarySearch.lowerMiddle compare 0 nelems with
  | ok i =>
    obtain ⟨-, hi, h0⟩ := BinarySearch.search_found hs
    exact ⟨i, rfl, hi, Or.inr h0.ge⟩
  | error low =>
    obtain ⟨hlow, hbelow, -⟩ := BinarySearch.search_missing hd.falling ⟨Nat.zero_le nelems, le_rfl⟩
      (fun i hi => absurd hi (Nat.not_lt_zero i)) (fun i hi hin => by omega) hs
    by_cases h : 0 < low
    · refine ⟨low - 1, by simp [h], by omega, Or.inr ?_⟩
      exact (hbelow (low - 1) (by omega)).le
    · exact ⟨0, by simp [h], hn, Or.inl rfl⟩

end Morpheus
