import Mathlib.Order.Lattice
import Mathlib.Tactic.Common

/-!
# Binary search over probes

`probe i` is the sign of comparing the wanted key with entry `i`. The search is
written once, for any way of choosing the middle and in any monad, so that a
probe may fail; its specification is stated for pure probes.
-/
namespace Morpheus

/-- A choice of an index inside every nonempty interval `[low, high)`. -/
structure Midpoint where
  index : ℕ → ℕ → ℕ
  low_le : ∀ {low high}, low < high → low ≤ index low high
  lt_high : ∀ {low high}, low < high → index low high < high

namespace BinarySearch

/-- `low + (high - low) / 2`. -/
def lowerMiddle : Midpoint where
  index low high := low + (high - low) / 2
  low_le := by omega
  lt_high := by omega

/-- `(low + last) / 2` for the closed interval `[low, last]` with `high = last + 1`. -/
def closedMiddle : Midpoint where
  index low high := (low + (high - 1)) / 2
  low_le := by omega
  lt_high := by omega

/-- Search `[low, high)`: the index of a matching entry, or the point where one is missing. -/
def searchM {m : Type → Type} [Monad m] (mid : Midpoint) (probe : ℕ → m Int)
    (low high : ℕ) : m (Except ℕ ℕ) :=
  if h : low < high then do
    let order ← probe (mid.index low high)
    if order < 0 then searchM mid probe low (mid.index low high)
    else if order > 0 then searchM mid probe (mid.index low high + 1) high
    else pure (.ok (mid.index low high))
  else pure (.error low)
termination_by high - low
decreasing_by
  all_goals
    have h1 := mid.low_le h
    have h2 := mid.lt_high h
    omega

def search (mid : Midpoint) (probe : ℕ → Int) (low high : ℕ) : Except ℕ ℕ :=
  Id.run (searchM mid (fun i => pure (probe i)) low high)

theorem search_eq (mid : Midpoint) (probe : ℕ → Int) (low high : ℕ) :
    search mid probe low high =
      if low < high then
        if probe (mid.index low high) < 0 then search mid probe low (mid.index low high)
        else if probe (mid.index low high) > 0 then
          search mid probe (mid.index low high + 1) high
        else .ok (mid.index low high)
      else .error low := by
  unfold search
  conv_lhs => rw [searchM]
  split
  · simp only [pure_bind]
    split
    · rfl
    · split <;> rfl
  · rfl

/-- Probes that always return make the search return. -/
theorem searchM_eq_pure {m : Type → Type} [Monad m] [LawfulMonad m] {mid : Midpoint}
    {probe : ℕ → m Int} {f : ℕ → Int} {low high : ℕ}
    (hp : ∀ i, low ≤ i → i < high → probe i = pure (f i)) :
    searchM mid probe low high = pure (search mid f low high) := by
  induction hn : high - low using Nat.strong_induction_on generalizing low high with
  | _ n ih =>
    rw [searchM, search_eq]
    by_cases h : low < high
    · simp only [h, ↓reduceDIte, ↓reduceIte]
      have h1 := mid.low_le h
      have h2 := mid.lt_high h
      rw [hp _ h1 h2]
      simp only [pure_bind]
      split
      · exact ih _ (by omega) (fun i hl hh => hp i hl (by omega)) rfl
      · split
        · exact ih _ (by omega) (fun i hl hh => hp i (by omega) hh) rfl
        · rfl
    · simp [h]

/-- What is found lies in the interval and matches. -/
theorem search_found {mid : Midpoint} {probe : ℕ → Int} {low high i : ℕ}
    (h : search mid probe low high = .ok i) : low ≤ i ∧ i < high ∧ probe i = 0 := by
  induction hn : high - low using Nat.strong_induction_on generalizing low high with
  | _ n ih =>
    rw [search_eq] at h
    split at h
    · rename_i hlt
      have h1 := mid.low_le hlt
      have h2 := mid.lt_high hlt
      split at h
      · have := ih _ (by omega) h rfl
        omega
      · split at h
        · have := ih _ (by omega) h rfl
          omega
        · cases h
          omega
    · cases h

/-- Once an entry is not below the key, all later ones are above it. -/
def Descending (probe : ℕ → Int) (n : ℕ) : Prop :=
  ∀ i j, i < j → j < n → probe i ≤ 0 → probe j < 0

/-- Behind an entry above the key and in front of one below it stand no others. -/
def Falling (probe : ℕ → Int) (n : ℕ) : Prop :=
  ∀ i j, i < j → j < n → (probe i < 0 → probe j < 0) ∧ (0 < probe j → 0 < probe i)

theorem Descending.falling {probe : ℕ → Int} {n : ℕ} (h : Descending probe n) :
    Falling probe n := by
  intro i j hij hj
  refine ⟨fun hneg => h i j hij hj hneg.le, fun hpos => ?_⟩
  by_contra hnot
  have := h i j hij hj (not_lt.mp hnot)
  omega

/-- What is not found separates the smaller entries from the larger ones. -/
theorem search_missing {mid : Midpoint} {probe : ℕ → Int} {low high n l : ℕ}
    (hd : Falling probe n) (hhigh : low ≤ high ∧ high ≤ n)
    (hbelow : ∀ i < low, 0 < probe i) (habove : ∀ i, high ≤ i → i < n → probe i < 0)
    (h : search mid probe low high = .error l) :
    l ≤ n ∧ (∀ i < l, 0 < probe i) ∧ ∀ i, l ≤ i → i < n → probe i < 0 := by
  induction hk : high - low using Nat.strong_induction_on generalizing low high with
  | _ k ih =>
    rw [search_eq] at h
    split at h
    · rename_i hlt
      have h1 := mid.low_le hlt
      have h2 := mid.lt_high hlt
      split at h
      · rename_i hneg
        refine ih _ (by omega) (by omega) hbelow (fun i hi hin => ?_) h rfl
        rcases Nat.eq_or_lt_of_le hi with rfl | hi
        · exact hneg
        · exact (hd _ _ hi hin).1 hneg
      · split at h
        · rename_i hpos
          refine ih _ (by omega) (by omega) (fun i hi => ?_) habove h rfl
          by_contra hle
          rcases Nat.eq_or_lt_of_le (Nat.lt_succ_iff.mp hi) with rfl | hi
          · exact hle hpos
          · exact hle ((hd _ _ hi (by omega)).2 hpos)
        · cases h
    · cases h
      exact ⟨by omega, hbelow, fun i hi => habove i (by omega)⟩

/-- A search of a whole falling table finds a match when there is one. -/
theorem search_exists {mid : Midpoint} {probe : ℕ → Int} {n i : ℕ} (hd : Falling probe n)
    (hi : i < n) (h0 : probe i = 0) :
    ∃ j, search mid probe 0 n = .ok j ∧ j < n ∧ probe j = 0 := by
  cases h : search mid probe 0 n with
  | ok j =>
    obtain ⟨-, hj, hj0⟩ := search_found h
    exact ⟨j, rfl, hj, hj0⟩
  | error l =>
    obtain ⟨-, hbelow, habove⟩ := search_missing hd ⟨Nat.zero_le n, le_rfl⟩
      (fun i hi => absurd hi (Nat.not_lt_zero i)) (fun i hi hin => by omega) h
    rcases Nat.lt_or_ge i l with hl | hl
    · have := hbelow i hl
      omega
    · have := habove i hl hi
      omega

/-- A search of a whole descending table finds a match exactly when there is one. -/
theorem search_complete {mid : Midpoint} {probe : ℕ → Int} {n i : ℕ}
    (hd : Descending probe n) (hi : i < n) (h0 : probe i = 0) :
    search mid probe 0 n = .ok i := by
  obtain ⟨j, hsearch, hj, hj0⟩ := @search_exists mid probe n i hd.falling hi h0
  rcases lt_trichotomy i j with hij | rfl | hij
  · have := hd i j hij hj h0.le
    omega
  · exact hsearch
  · have := hd j i hij hi hj0.le
    omega

end BinarySearch
end Morpheus
