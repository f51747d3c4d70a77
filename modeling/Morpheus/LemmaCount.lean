import Mathlib.Data.Finset.Card
import Morpheus.AnalysisStore

/-!
# Counting the lemmas of a word

The lemmas without a hyphen are counted where they differ from the one before. This is the number of
the distinct ones as long as no lemma comes back after another one.
-/
namespace Morpheus

section Changes
variable {α : Type} [DecidableEq α]

/-- How often an entry differs from the one before. -/
def changes : α → List α → ℕ
  | _, [] => 0
  | prev, x :: xs => (if x = prev then 0 else 1) + changes x xs

/-- How often an entry differs from the one before and has been seen earlier. -/
def comebacks (seen : List α) : α → List α → ℕ
  | _, [] => 0
  | prev, x :: xs => (if x ≠ prev ∧ x ∈ seen then 1 else 0) + comebacks (x :: seen) x xs

/-- Every change brings a new entry or one that comes back. -/
theorem changes_add_card {seen : List α} {prev : α} (xs : List α) (hprev : prev ∈ seen) :
    changes prev xs + seen.toFinset.card = (seen ++ xs).toFinset.card + comebacks seen prev xs := by
  induction xs generalizing seen prev with
  | nil => simp [changes, comebacks]
  | cons x xs ih =>
    have hrest := ih (List.mem_cons_self : x ∈ x :: seen)
    have hall : (x :: seen ++ xs).toFinset = (seen ++ x :: xs).toFinset := by
      ext y
      simp only [List.mem_toFinset, List.mem_append, List.mem_cons]
      tauto
    rw [hall] at hrest
    rw [changes, comebacks]
    by_cases hseen : x ∈ seen
    · have hcard : (x :: seen).toFinset = seen.toFinset := by
        rw [List.toFinset_cons, Finset.insert_eq_of_mem (List.mem_toFinset.mpr hseen)]
      rw [hcard] at hrest
      by_cases hsame : x = prev
      · rw [if_pos hsame, if_neg fun h => h.1 hsame]
        omega
      · rw [if_neg hsame, if_pos ⟨hsame, hseen⟩]
        omega
    · have hcard : (x :: seen).toFinset.card = seen.toFinset.card + 1 := by
        rw [List.toFinset_cons, Finset.card_insert_of_notMem fun h => hseen (List.mem_toFinset.mp h)]
      have hne : x ≠ prev := fun h => hseen (h ▸ hprev)
      rw [if_neg hne, if_neg fun h => hseen h.2]
      omega

/-- Counting starts with an entry that is not counted itself. -/
theorem changes_eq_iff (start : α) (xs : List α) :
    changes start xs = xs.toFinset.card ↔
      comebacks [start] start xs = if start ∈ xs then 1 else 0 := by
  have hcount := changes_add_card xs (List.mem_singleton_self start)
  have hone : [start].toFinset.card = 1 := rfl
  rw [hone] at hcount
  by_cases hmem : start ∈ xs
  · have hcard : ([start] ++ xs).toFinset = xs.toFinset := by
      rw [List.singleton_append, List.toFinset_cons,
        Finset.insert_eq_of_mem (List.mem_toFinset.mpr hmem)]
    rw [hcard] at hcount
    rw [if_pos hmem]
    omega
  · have hcard : ([start] ++ xs).toFinset.card = xs.toFinset.card + 1 := by
      rw [List.singleton_append, List.toFinset_cons,
        Finset.card_insert_of_notMem fun h => hmem (List.mem_toFinset.mp h)]
    rw [hcard] at hcount
    rw [if_neg hmem]
    omega

end Changes

/-- The loop of `cntlems`, with the lemma that was read last and the count so far. -/
def cntlemsFrom (prevlem : Bytes) (cnt : ℕ) : List GkAnalysis → ℕ
  | [] => cnt
  | anal :: anals =>
    if 45 ∈ anal.stLemma then cntlemsFrom prevlem cnt anals
    else
      cntlemsFrom anal.stLemma (if prevlem ≠ anal.stLemma then cnt + 1 else cnt) anals

def cntlems (anals : List GkAnalysis) : ℕ := cntlemsFrom [] 0 anals

/-- The lemmas without a hyphen, in the order of the analyses. -/
def plainLemmas (anals : List GkAnalysis) : List Bytes :=
  (anals.map fun anal => anal.stLemma).filter fun lemma_ => 45 ∉ lemma_

theorem cntlemsFrom_eq (prevlem : Bytes) (cnt : ℕ) (anals : List GkAnalysis) :
    cntlemsFrom prevlem cnt anals = cnt + changes prevlem (plainLemmas anals) := by
  induction anals generalizing prevlem cnt with
  | nil => rfl
  | cons anal anals ih =>
    unfold cntlemsFrom
    by_cases hhyphen : 45 ∈ anal.stLemma
    · have hskip : plainLemmas (anal :: anals) = plainLemmas anals := by
        simp [plainLemmas, hhyphen]
      rw [if_pos hhyphen, ih, hskip]
    · have hkeep : plainLemmas (anal :: anals) = anal.stLemma :: plainLemmas anals := by
        simp [plainLemmas, hhyphen]
      rw [if_neg hhyphen, ih, hkeep, changes]
      by_cases hsame : anal.stLemma = prevlem
      · rw [if_pos hsame, if_neg fun h => h hsame.symm]
        omega
      · rw [if_neg hsame, if_pos fun h => hsame h.symm]
        omega

/-- The count is right when no lemma comes back after another one. An empty lemma is not counted at
the start, so where there is one, exactly one lemma has to come back. -/
theorem cntlems_eq_iff (anals : List GkAnalysis) :
    cntlems anals = (plainLemmas anals).toFinset.card ↔
      comebacks [[]] [] (plainLemmas anals) = if [] ∈ plainLemmas anals then 1 else 0 := by
  rw [cntlems, cntlemsFrom_eq, Nat.zero_add]
  convert changes_eq_iff [] (plainLemmas anals)

/-- A noun, a verb, and the noun in the plural, found in this order. -/
def alternatingLemmas : List Offer :=
  [.plain plainForm, .plain laterForm,
    .plain { plainForm with forminfo := { WordForm.zero with number := 2 } }]

/-- The lemma of the noun is counted twice. -/
theorem cntlems_alternating :
    let anals := (runOffers ⟨0, 0⟩ .empty alternatingLemmas).stored
    ¬ cntlems anals = (plainLemmas anals).toFinset.card := by
  decide +kernel

end Morpheus
