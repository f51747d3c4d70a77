import Mathlib.Algebra.GroupWithZero.Nat
import Mathlib.Data.List.Basic
import Mathlib.Tactic.Common

/-!
# Contiguous intervals

Intervals given by their first element and length, each nonempty and starting
where the one before it ends. Together they cut a range into disjoint parts.
-/
namespace Morpheus

/-- The intervals run from `start` to `stop` without a gap. -/
def Contiguous : ℕ → List (ℕ × ℕ) → ℕ → Prop
  | start, [], stop => start = stop
  | start, (first, count) :: rest, stop =>
    first = start ∧ 0 < count ∧ Contiguous (start + count) rest stop

namespace Contiguous

@[simp] theorem nil_iff {start stop : ℕ} : Contiguous start [] stop ↔ start = stop := Iff.rfl

@[simp] theorem cons_iff {start stop first count : ℕ} {rest : List (ℕ × ℕ)} :
    Contiguous start ((first, count) :: rest) stop ↔
      first = start ∧ 0 < count ∧ Contiguous (start + count) rest stop := Iff.rfl

variable {start stop : ℕ} {l : List (ℕ × ℕ)}

theorem le (h : Contiguous start l stop) : start ≤ stop := by
  induction l generalizing start with
  | nil => exact Nat.le_of_eq h
  | cons p l ih =>
    obtain ⟨first, count⟩ := p
    have := ih h.2.2
    omega

/-- Every interval lies inside the range. -/
theorem inside (h : Contiguous start l stop) {p : ℕ × ℕ} (hp : p ∈ l) :
    start ≤ p.1 ∧ 0 < p.2 ∧ p.1 + p.2 ≤ stop := by
  induction l generalizing start with
  | nil => simp at hp
  | cons q l ih =>
    obtain ⟨first, count⟩ := q
    have hle := le h.2.2
    rcases List.mem_cons.mp hp with rfl | hp
    · exact ⟨Nat.le_of_eq h.1.symm, h.2.1, by have := h.1; omega⟩
    · have := ih h.2.2 hp
      omega

/-- Every element of the range lies in exactly one interval. -/
theorem existsUnique (h : Contiguous start l stop) {x : ℕ} (hx : start ≤ x) (hs : x < stop) :
    ∃! i, ∃ hi : i < l.length, l[i].1 ≤ x ∧ x < l[i].1 + l[i].2 := by
  induction l generalizing start with
  | nil =>
    have : start = stop := h
    omega
  | cons p l ih =>
    obtain ⟨first, count⟩ := p
    obtain ⟨rfl, hc, hl⟩ := h
    rcases Nat.lt_or_ge x (first + count) with hlt | hge
    · refine ⟨0, ⟨by simp, hx, hlt⟩, ?_⟩
      rintro (_ | i) ⟨hi, h1, -⟩
      · rfl
      · have := (inside hl (List.getElem_mem (by simpa using hi : i < l.length))).1
        simp only [List.getElem_cons_succ] at h1
        omega
    · obtain ⟨i, ⟨hi, h1, h2⟩, huniq⟩ := ih hl hge
      refine ⟨i + 1, ⟨by simpa using hi, by simpa using h1, by simpa using h2⟩, ?_⟩
      rintro (_ | j) ⟨hj, h3, h4⟩
      · simp only [List.getElem_cons_zero] at h4
        omega
      · rw [huniq j ⟨by simpa using hj, by simpa using h3, by simpa using h4⟩]

end Contiguous

/-- The intervals of the given lengths, laid end to end from `start` on. -/
def intervals : ℕ → List ℕ → List (ℕ × ℕ)
  | _, [] => []
  | start, count :: counts => (start, count) :: intervals (start + count) counts

@[simp] theorem intervals_length (start : ℕ) (counts : List ℕ) :
    (intervals start counts).length = counts.length := by
  induction counts generalizing start with
  | nil => rfl
  | cons count counts ih => simp [intervals, ih]

theorem intervals_append (start : ℕ) (as bs : List ℕ) :
    intervals start (as ++ bs) = intervals start as ++ intervals (start + as.sum) bs := by
  induction as generalizing start with
  | nil => simp [intervals]
  | cons a as ih => simp [intervals, ih, Nat.add_assoc]

theorem contiguous_intervals (start : ℕ) {counts : List ℕ} (h : ∀ count ∈ counts, 0 < count) :
    Contiguous start (intervals start counts) (start + counts.sum) := by
  induction counts generalizing start with
  | nil => simp [intervals]
  | cons count counts ih =>
    have := ih (start + count) fun c hc => h c (by simp [hc])
    simp only [intervals, Contiguous.cons_iff, List.sum_cons, true_and]
    exact ⟨h count (by simp), by rwa [← Nat.add_assoc]⟩

theorem snd_mem_of_mem_intervals {start : ℕ} {counts : List ℕ} {p : ℕ × ℕ}
    (h : p ∈ intervals start counts) : p.2 ∈ counts := by
  induction counts generalizing start with
  | nil => simp [intervals] at h
  | cons count counts ih =>
    rcases List.mem_cons.mp h with rfl | h
    · simp
    · exact List.mem_cons_of_mem _ (ih h)

/-- Reading the concatenation of some lists at the interval of one of them reads that list. -/
theorem map_interval {α β : Type*} {parts : List (List α)} {f : ℕ → β} {g : α → β} {start : ℕ}
    (hf : ∀ j (hj : j < parts.flatten.length), f (start + j) = g parts.flatten[j])
    {i : ℕ} (hi : i < parts.length) {p : ℕ × ℕ}
    (hp : (intervals start (parts.map List.length))[i]? = some p) :
    (List.range' p.1 p.2).map f = parts[i].map g := by
  induction parts generalizing start i with
  | nil => simp at hi
  | cons part parts ih =>
    cases i with
    | zero =>
      simp only [List.map_cons, intervals, List.getElem?_cons_zero, Option.some.injEq] at hp
      subst hp
      refine List.ext_getElem (by simp) fun j h1 h2 => ?_
      have hj : j < part.length := by simpa using h2
      have := hf j (by simp; omega)
      simpa [hj, List.getElem_append_left] using this
    | succ i =>
      simp only [List.map_cons, intervals, List.getElem?_cons_succ] at hp
      refine ih (fun j hj => ?_) (by simpa using hi) hp
      have := hf (part.length + j) (by simpa using hj)
      simpa [Nat.add_assoc, List.getElem_append_right] using this

end Morpheus
