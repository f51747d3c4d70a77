import Morpheus.DerivationExpanders
import Morpheus.PreverbCombination

/-!
# Dissimilation of aspirates

`do_dissim` takes the aspiration from the first aspirate of a stem that stands before another one. It
spares stems of the aorist passive, or would, if it looked at the principal part.
-/
namespace Morpheus

/-- `VERBSTEM` -/
def verbStem : UInt32 := 0o1000000

/-- What the `switch` of `do_dissim` makes of an aspirate. -/
def deaspirate (c : Byte) : Byte :=
  if c = 113 then 116 else if c = 120 then 107 else if c = 102 then 112 else c

/-- The loop of `do_dissim`: the text it leaves, and whether it changed a letter. -/
def dissimLoop : Bytes → Bytes × Bool
  | [] => ([], false)
  | c :: s =>
    if isAsp c ∧ nextConsRough (c :: s) then (deaspirate c :: s, true)
    else (c :: (dissimLoop s).1, (dissimLoop s).2)

/-- `do_dissim` -/
def doDissim (s : Bytes) (stype : UInt32) : Bytes × Bool :=
  if s = [] then (s, false)
  else if isAsp (s.getLastD 0) ∧ stype &&& verbStem = ppAp then (s, false)
  else dissimLoop s

/-- An aspirate that the next consonant dissimilates. -/
def Dissimilates (s : Bytes) (i : ℕ) : Prop :=
  isAsp (s.getD i 0) = true ∧ nextConsRough (s.drop i) = true

/-- The first aspirate that is dissimilated, and no other letter, is changed. -/
inductive FirstDissimilated (s : Bytes) : Bytes × Bool → Prop
  | changed {i : ℕ} (here : Dissimilates s i) (first : ∀ j < i, ¬Dissimilates s j) :
      FirstDissimilated s (s.set i (deaspirate (s.getD i 0)), true)
  | unchanged (never : ∀ i, ¬Dissimilates s i) : FirstDissimilated s (s, false)

/-- A stem of the aorist passive that ends in an aspirate. -/
def EndsAoristPassive (s : Bytes) (stype : UInt32) : Prop :=
  isAsp (s.getLastD 0) = true ∧ stype &&& ppartMask = ppAp

/-- Stems of the aorist passive that end in an aspirate stay as they are, in all others the first
aspirate is dissimilated. -/
structure DissimLaw (s : Bytes) (stype : UInt32) : Prop where
  spared : EndsAoristPassive s stype → doDissim s stype = (s, false)
  others : ¬EndsAoristPassive s stype → FirstDissimilated s (doDissim s stype)

theorem dissimilates_zero {c : Byte} {s : Bytes} :
    Dissimilates (c :: s) 0 ↔ isAsp c = true ∧ nextConsRough (c :: s) = true := Iff.rfl

theorem dissimilates_succ {c : Byte} {s : Bytes} {i : ℕ} :
    Dissimilates (c :: s) (i + 1) ↔ Dissimilates s i := Iff.rfl

theorem not_dissimilates_nil (i : ℕ) : ¬Dissimilates [] i := by
  intro h
  rw [Dissimilates, List.getD_nil] at h
  exact absurd h.1 (by decide)

/-- The loop changes the first aspirate that is dissimilated. -/
theorem dissimLoop_first (s : Bytes) : FirstDissimilated s (dissimLoop s) := by
  induction s with
  | nil => exact .unchanged not_dissimilates_nil
  | cons c s ih =>
    rw [dissimLoop]
    by_cases hhere : isAsp c = true ∧ nextConsRough (c :: s) = true
    · rw [if_pos hhere]
      exact .changed (dissimilates_zero.mpr hhere) fun j hj => absurd hj (Nat.not_lt_zero j)
    · rw [if_neg hhere]
      generalize dissimLoop s = rest at ih
      cases ih with
      | @changed i here first =>
        refine .changed (i := i + 1) (dissimilates_succ.mpr here) fun j hj => ?_
        cases j with
        | zero => exact hhere
        | succ j => exact first j (Nat.lt_of_succ_lt_succ hj)
      | unchanged never =>
        refine .unchanged fun i => ?_
        cases i with
        | zero => exact hhere
        | succ i => exact never i

/-- The exception of `do_dissim` is never made: `VERBSTEM` has no bit of `PPARTMASK`. -/
theorem verbStem_ne_ppAp (stype : UInt32) : stype &&& verbStem ≠ ppAp := by
  intro h
  have hmask : ppAp &&& verbStem = ppAp := by
    rw [← h, UInt32.and_assoc, UInt32.and_self]
  exact absurd hmask (by decide)

theorem doDissim_eq (s : Bytes) (stype : UInt32) : doDissim s stype = dissimLoop s := by
  unfold doDissim
  split_ifs with hnil hspared
  · rw [hnil]
    rfl
  · exact absurd hspared.2 (verbStem_ne_ppAp stype)
  · rfl

theorem FirstDissimilated.eq_iff {s : Bytes} {result : Bytes × Bool}
    (h : FirstDissimilated s result) : result = (s, false) ↔ ∀ i, ¬Dissimilates s i := by
  cases h with
  | @changed i here first =>
    refine ⟨fun h => ?_, fun never => absurd here (never i)⟩
    cases (Prod.mk.inj h).2
  | unchanged never => exact iff_of_true rfl never

/-- The stem is treated as asked if and only if it is not spared, or has no aspirate to be
dissimilated: the test of the stem type is masked with `VERBSTEM` and not with `PPARTMASK`. -/
theorem dissimLaw_iff (s : Bytes) (stype : UInt32) :
    DissimLaw s stype ↔ ¬EndsAoristPassive s stype ∨ ∀ i, ¬Dissimilates s i := by
  have hfirst := dissimLoop_first s
  have heq := doDissim_eq s stype
  constructor
  · intro law
    by_cases hends : EndsAoristPassive s stype
    · right
      rw [← hfirst.eq_iff, ← heq]
      exact law.spared hends
    · exact .inl hends
  · intro h
    refine ⟨fun hends => ?_, fun _ => heq ▸ hfirst⟩
    rw [heq, hfirst.eq_iff]
    exact h.resolve_left (not_not.mpr hends)

/-- Dissimilation in `a)riqmhq`, which the exception is for. -/
theorem doDissim_ariqmhq : ¬∀ s stype, DissimLaw s stype := by
  intro h
  have hspared := (h (ascii "a)riqmhq") ppAp).spared (by unfold EndsAoristPassive; decide)
  exact absurd hspared (by decide)

end Morpheus
