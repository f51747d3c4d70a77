import Mathlib.Data.List.Basic

/-!
# Scans for a run of rows

A text is scanned for the leftmost position at which a row of a table passes a test; the rows behind
it with the same key are tested too, and what they give is kept in a bounded number of slots. The
tests pass a state on.
-/
namespace Morpheus.RunScan

variable {α ρ κ τ σ : Type} [DecidableEq κ]

/-- The slots of a scan, how many of them are filled, and the state that its tests left. -/
structure Progress (τ σ : Type) where
  slots : List τ
  sofar : ℕ
  state : σ

section Scans
variable (key : ρ → κ) (blank : τ) (capacity : ℕ)

/-- The scan of the rows at one position. Rows are tested until the slots are full; once a row was
found, only rows with the key of the row before are. A row that fails leaves its slot blank. -/
def scanRows (test : ρ → σ → Option τ × σ) : Option κ → List ρ → Progress τ σ → Progress τ σ
  | _, [], p => p
  | last, row :: rows, p =>
    if capacity ≤ p.sofar then p
    else if p.sofar ≠ 0 ∧ last.any (· ≠ key row) then p
    else
      match test row p.state with
      | (some found, state) =>
        scanRows test (some (key row)) rows ⟨p.slots.set p.sofar found, p.sofar + 1, state⟩
      | (none, state) => scanRows test (some (key row)) rows ⟨p.slots.set p.sofar blank, p.sofar, state⟩

/-- The scan of the positions of a text, up to the first one at which a row is found. -/
def scanPositions (test : List α → List α → ρ → σ → Option τ × σ) (rows : List ρ) :
    List α → List α → Progress τ σ → Progress τ σ
  | _, [], p => p
  | seen, c :: rest, p =>
    let p := scanRows key blank capacity (test seen (c :: rest)) none rows p
    if p.sofar ≠ 0 then p else scanPositions test rows (seen ++ [c]) rest p

end Scans

section Verdicts

/-- What the tests of all rows give, one after the other. -/
def verdicts (test : ρ → σ → Option τ × σ) : List ρ → σ → List (ρ × Option τ)
  | [], _ => []
  | row :: rows, state => (row, (test row state).1) :: verdicts test rows (test row state).2

/-- The state that the tests of all rows leave. -/
def stateAfter (test : ρ → σ → Option τ × σ) : List ρ → σ → σ
  | [], state => state
  | row :: rows, state => stateAfter test rows (test row state).2

/-- What was found for the first row that passes its test and for the rows behind it with the same
key, up to one with another key. -/
def firstRun (key : ρ → κ) (tested : List (ρ × Option τ)) : List τ :=
  match tested.dropWhile (·.2.isNone) with
  | [] => []
  | first :: rest => (first :: rest.takeWhile fun other => key other.1 = key first.1).filterMap (·.2)

variable (test : List α → List α → ρ → σ → Option τ × σ) (rows : List ρ) (text : List α)

/-- The state in which the tests at a position begin when none before passed. -/
def stateAt (state : σ) : ℕ → σ
  | 0 => state
  | k + 1 => stateAfter (test (text.take k) (text.drop k)) rows (stateAt state k)

/-- What the tests of all rows at a position give. -/
def verdictsAt (state : σ) (k : ℕ) : List (ρ × Option τ) :=
  verdicts (test (text.take k) (text.drop k)) rows (stateAt test rows text state k)

/-- What is found at the leftmost position where a row passes its test. -/
def leftmostRun (key : ρ → κ) (state : σ) : List τ :=
  match (List.range text.length).find? fun k =>
      (verdictsAt test rows text state k).any (·.2.isSome) with
  | none => []
  | some k => firstRun key (verdictsAt test rows text state k)

end Verdicts

section Rows
variable {key : ρ → κ} {blank : τ} {capacity entries : ℕ} {test : ρ → σ → Option τ × σ}
  {hits : List τ} {p : Progress τ σ}

/-- The slots with what was found in front and blanks behind it. -/
def filled (blank : τ) (entries : ℕ) (hits : List τ) : List τ :=
  hits ++ List.replicate (entries - hits.length) blank

/-- What was found stands in the slots in front. The slot behind it may have anything in it only
while nothing was found. -/
structure Holds (blank : τ) (entries : ℕ) (hits : List τ) (p : Progress τ σ) : Prop where
  sofar : p.sofar = hits.length
  cleared : p.slots.set hits.length blank = filled blank entries hits
  slots : hits ≠ [] → p.slots = filled blank entries hits

theorem Holds.take (h : Holds blank entries hits p) : p.slots.take hits.length = hits := by
  by_cases hnone : hits = []
  · rw [hnone]
    rfl
  · rw [h.slots hnone, filled, List.take_left]

theorem filled_set (hroom : hits.length < entries) (new : τ) :
    (filled blank entries hits).set hits.length new = filled blank entries (hits ++ [new]) := by
  obtain ⟨more, hmore⟩ : ∃ more, entries - hits.length = more + 1 :=
    ⟨entries - hits.length - 1, by omega⟩
  have hless : entries - (hits ++ [new]).length = more := by
    rw [List.length_append, List.length_singleton]
    omega
  rw [filled, filled, hmore, hless, List.replicate_succ, List.set_append_right _ _ (Nat.le_refl _),
    Nat.sub_self, List.set_cons_zero, List.append_assoc]
  rfl

theorem filled_clear (hits : List τ) :
    (filled blank entries hits).set hits.length blank = filled blank entries hits := by
  rw [filled, List.set_append_right _ _ (Nat.le_refl _), Nat.sub_self]
  cases entries - hits.length <;> rfl

theorem Holds.accept (h : Holds blank entries hits p) (hroom : hits.length < entries) (new : τ)
    (state : σ) : Holds blank entries (hits ++ [new]) ⟨p.slots.set p.sofar new, p.sofar + 1, state⟩ := by
  have hslots : p.slots.set p.sofar new = filled blank entries (hits ++ [new]) := by
    rw [h.sofar, ← filled_set hroom new, ← h.cleared, List.set_set]
  refine ⟨?_, ?_, fun _ => hslots⟩
  · rw [h.sofar, List.length_append, List.length_singleton]
  · rw [hslots, filled_clear]

theorem Holds.reject (h : Holds blank entries hits p) (state : σ) :
    Holds blank entries hits ⟨p.slots.set p.sofar blank, p.sofar, state⟩ := by
  have hslots : p.slots.set p.sofar blank = filled blank entries hits := by
    rw [h.sofar]
    exact h.cleared
  exact ⟨h.sofar, by rw [hslots, filled_clear], fun _ => hslots⟩

/-- Once a row was found the scan goes on through the rows with its key. -/
theorem scanRows_run {k : κ} {rows : List ρ} (hcapacity : capacity ≤ entries)
    (h : Holds blank entries hits p) (hfound : hits ≠ []) (hfits : hits.length ≤ capacity) :
    Holds blank entries
      ((hits ++ ((verdicts test rows p.state).takeWhile fun other => key other.1 = k).filterMap
        (·.2)).take capacity)
      (scanRows key blank capacity test (some k) rows p) := by
  induction rows generalizing hits p with
  | nil =>
    rw [scanRows, verdicts, List.takeWhile_nil, List.filterMap_nil, List.append_nil,
      List.take_of_length_le hfits]
    exact h
  | cons row rows ih =>
    have hzero : p.sofar ≠ 0 := by
      rw [h.sofar]
      exact mt List.length_eq_zero_iff.mp hfound
    rw [scanRows]
    by_cases hfull : capacity ≤ p.sofar
    · rw [if_pos hfull, List.take_append_of_le_length (by rw [← h.sofar]; exact hfull),
        List.take_of_length_le hfits]
      exact h
    · rw [if_neg hfull]
      have hroom : hits.length < capacity := by
        rw [← h.sofar]
        omega
      rw [verdicts]
      by_cases hkey : key row = k
      · rw [if_neg (by simp [hkey]), List.takeWhile_cons_of_pos (by simp [hkey])]
        cases htest : test row p.state with
        | mk result state =>
          cases result with
          | none =>
            simp only [List.filterMap_cons]
            subst hkey
            exact ih (h.reject state) hfound hfits
          | some new =>
            simp only [List.filterMap_cons]
            subst hkey
            have hnext := ih (h.accept (by omega) new state) (by simp) (by simp; omega)
            rwa [List.append_assoc, List.singleton_append] at hnext
      · have hother : p.sofar ≠ 0 ∧ (some k).any (· ≠ key row) = true :=
          ⟨hzero, by simpa using Ne.symm hkey⟩
        rw [if_pos hother, List.takeWhile_cons_of_neg (by simpa using hkey), List.filterMap_nil,
          List.append_nil, List.take_of_length_le hfits]
        exact h

theorem firstRun_none {tested : List (ρ × Option τ)} (row : ρ) :
    firstRun key ((row, none) :: tested) = firstRun key tested := by
  rw [firstRun, List.dropWhile_cons_of_pos rfl, ← firstRun]

theorem firstRun_some {tested : List (ρ × Option τ)} (row : ρ) (new : τ) :
    firstRun key ((row, some new) :: tested) =
      new :: (tested.takeWhile fun other => key other.1 = key row).filterMap (·.2) := by
  rw [firstRun, List.dropWhile_cons_of_neg (by simp)]
  rfl

theorem firstRun_eq_nil_iff {tested : List (ρ × Option τ)} :
    firstRun key tested = [] ↔ tested.any (·.2.isSome) = false := by
  induction tested with
  | nil => exact iff_of_true rfl rfl
  | cons verdict tested ih =>
    obtain ⟨row, result⟩ := verdict
    cases result with
    | none => rw [firstRun_none, ih, List.any_cons, Option.isSome_none, Bool.false_or]
    | some new => simp [firstRun_some]

/-- A scan of the rows that begins with nothing found finds the first run, as far as there are slots
for it. -/
theorem scanRows_first {rows : List ρ} {last : Option κ} (hpositive : 0 < capacity)
    (hcapacity : capacity ≤ entries) (h : Holds blank entries [] p) :
    Holds blank entries ((firstRun key (verdicts test rows p.state)).take capacity)
        (scanRows key blank capacity test last rows p) ∧
      (firstRun key (verdicts test rows p.state) = [] →
        (scanRows key blank capacity test last rows p).state = stateAfter test rows p.state) := by
  induction rows generalizing p last with
  | nil => exact ⟨by simpa [firstRun, verdicts, scanRows] using h, fun _ => rfl⟩
  | cons row rows ih =>
    have hsofar : p.sofar = 0 := h.sofar
    rw [scanRows, if_neg (by omega), if_neg (by simp [hsofar]), verdicts, stateAfter]
    cases htest : test row p.state with
    | mk result state =>
      cases result with
      | none =>
        simp only [firstRun_none]
        exact ih (h.reject state)
      | some new =>
        simp only [firstRun_some]
        refine ⟨?_, fun hnil => absurd hnil (by simp)⟩
        exact scanRows_run hcapacity (h.accept (by simpa using by omega) new state) (by simp) (by simpa)

end Rows

section Positions
variable {key : ρ → κ} {blank : τ} {capacity entries : ℕ} {test : List α → List α → ρ → σ → Option τ × σ}
  {rows : List ρ} {p : Progress τ σ}

/-- The scan of the positions from one on. -/
theorem scanPositions_from (hpositive : 0 < capacity) (hcapacity : capacity ≤ entries) (state : σ)
    {seen rest : List α} (h : Holds blank entries [] p)
    (hstate : p.state = stateAt test rows (seen ++ rest) state seen.length) :
    Holds blank entries
      ((match (List.range' seen.length rest.length).find? fun k =>
          (verdictsAt test rows (seen ++ rest) state k).any (·.2.isSome) with
        | none => []
        | some k => firstRun key (verdictsAt test rows (seen ++ rest) state k)).take capacity)
      (scanPositions key blank capacity test rows seen rest p) := by
  induction rest generalizing seen p with
  | nil => simpa [scanPositions] using h
  | cons c rest ih =>
    have hhere : verdicts (test seen (c :: rest)) rows p.state =
        verdictsAt test rows (seen ++ c :: rest) state seen.length := by
      rw [verdictsAt, List.take_left, List.drop_left, hstate]
    obtain ⟨hholds, hafter⟩ := @scanRows_first _ _ _ _ _ key blank capacity entries
      (test seen (c :: rest)) p rows none hpositive hcapacity h
    rw [hhere] at hholds hafter
    rw [scanPositions, List.length_cons, List.range'_succ, List.find?_cons]
    by_cases hany : (verdictsAt test rows (seen ++ c :: rest) state seen.length).any (·.2.isSome) = true
    · rw [hany]
      have hfound : firstRun key (verdictsAt test rows (seen ++ c :: rest) state seen.length) ≠ [] := by
        rw [Ne, firstRun_eq_nil_iff, hany]
        simp
      have hsome : (scanRows key blank capacity (test seen (c :: rest)) none rows p).sofar ≠ 0 := by
        rw [hholds.sofar, List.length_take]
        have := List.length_pos_of_ne_nil hfound
        omega
      rw [if_pos hsome]
      exact hholds
    · rw [Bool.not_eq_true] at hany
      rw [hany]
      have hnone := (@firstRun_eq_nil_iff _ _ _ _ key _).mpr hany
      rw [hnone, List.take_nil] at hholds
      have hzero : (scanRows key blank capacity (test seen (c :: rest)) none rows p).sofar = 0 :=
        hholds.sofar
      rw [if_neg (by rw [hzero]; simp)]
      have hshape : seen ++ c :: rest = (seen ++ [c]) ++ rest := by simp
      have hlength : (seen ++ [c]).length = seen.length + 1 := by simp
      have hnext := @ih _ (seen ++ [c]) hholds (by
        rw [hafter hnone, ← hshape, hlength, stateAt, List.take_left, List.drop_left, hstate])
      rwa [← hshape, hlength] at hnext

/-- Without slots a scan does nothing. -/
theorem scanPositions_full (seen rest : List α) (h : p.sofar = 0) :
    scanPositions key blank 0 test rows seen rest p = p := by
  induction rest generalizing seen with
  | nil => rfl
  | cons c rest ih =>
    have hrows : scanRows key blank 0 (test seen (c :: rest)) none rows p = p := by
      cases rows with
      | nil => rfl
      | cons row rows => rw [scanRows, if_pos (Nat.zero_le _)]
    rw [scanPositions, hrows, if_neg (by rw [h]; simp)]
    exact ih (seen ++ [c])

/-- What a scan leaves in its slots is what is found at the leftmost position, as far as there are
slots for it, and blanks behind it. -/
theorem scanPositions_leftmost (hcapacity : capacity ≤ entries) (text : List α)
    (h : Holds blank entries [] p) :
    Holds blank entries ((leftmostRun test rows text key p.state).take capacity)
      (scanPositions key blank capacity test rows [] text p) := by
  by_cases hpositive : 0 < capacity
  · have hfrom := @scanPositions_from _ _ _ _ _ _ key blank capacity entries test rows p hpositive
      hcapacity p.state [] text h rfl
    rwa [List.nil_append, List.length_nil, ← List.range_eq_range', ← leftmostRun] at hfrom
  · have hzero : capacity = 0 := by omega
    rw [hzero, List.take_zero, scanPositions_full _ _ h.sofar]
    exact h

end Positions

end Morpheus.RunScan
