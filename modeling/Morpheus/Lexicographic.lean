import Mathlib.Data.List.Lex
import Mathlib.Order.Lattice
import Mathlib.Tactic.Common

/-!
# Lexicographic order of texts with a separator

Words whose letters are all above a separator, followed by the separator and more,
are ordered by the words first.
-/
namespace Morpheus.Lexicographic

variable {α : Type*} [LinearOrder α] {s : α}

theorem cons_lt_cons {a b : α} {x y : List α} :
    a :: x < b :: y ↔ a < b ∨ a = b ∧ x < y := List.cons_lt_cons_iff

/-- Words decide the order before what follows their separators. -/
theorem separated_lt {a b x y : List α} (ha : ∀ c ∈ a, s < c) (hb : ∀ c ∈ b, s < c) :
    a ++ s :: x < b ++ s :: y ↔ a < b ∨ a = b ∧ x < y := by
  induction a generalizing b with
  | nil =>
    cases b with
    | nil => simp
    | cons d b =>
      have hd := hb d (by simp)
      simp [cons_lt_cons, hd]
  | cons c a ih =>
    have hc := ha c (by simp)
    cases b with
    | nil => simp [cons_lt_cons, hc.not_gt, hc.ne']
    | cons d b =>
      have h := ih (fun e he => ha e (by simp [he])) (b := b) (fun e he => hb e (by simp [he]))
      simp only [List.cons_append, cons_lt_cons, h, List.cons.injEq]
      tauto

theorem separated_le {a b x y : List α} (ha : ∀ c ∈ a, s < c) (hb : ∀ c ∈ b, s < c) :
    a ++ s :: x ≤ b ++ s :: y ↔ a < b ∨ a = b ∧ x ≤ y := by
  rw [← not_lt, separated_lt hb ha, not_or, not_lt]
  constructor
  · rintro ⟨hab, hxy⟩
    rcases hab.lt_or_eq with h | h
    · exact Or.inl h
    · exact Or.inr ⟨h, not_lt.mp fun hlt => hxy ⟨h.symm, hlt⟩⟩
  · rintro (h | ⟨rfl, h⟩)
    · exact ⟨h.le, fun hb => absurd hb.1 h.ne'⟩
    · exact ⟨le_rfl, fun hb => h.not_gt hb.2⟩

/-- A word is compared with as many letters of a text as it has itself, the word ending
in its separator: the text's own word decides. -/
theorem take_separated_lt {a b y : List α} (ha : ∀ c ∈ a, s < c) (hb : ∀ c ∈ b, s < c) :
    (a ++ [s] < (b ++ s :: y).take (a.length + 1) ↔ a < b) ∧
      ((b ++ s :: y).take (a.length + 1) < a ++ [s] ↔ b < a) := by
  induction a generalizing b with
  | nil =>
    cases b with
    | nil => simp
    | cons d b =>
      have hd := hb d (by simp)
      simp [cons_lt_cons, hd, hd.not_gt, hd.ne']
  | cons c a ih =>
    have hc := ha c (by simp)
    cases b with
    | nil => simp [cons_lt_cons, hc, hc.not_gt, hc.ne']
    | cons d b =>
      have h := ih (fun e he => ha e (by simp [he])) (b := b) (fun e he => hb e (by simp [he]))
      simp only [List.cons_append, List.length_cons, List.take_succ_cons, cons_lt_cons, h.1, h.2,
        and_self]

/-- A word is compared with as many letters of a text as it has itself. -/
theorem take_word_lt {a b y : List α} (ha : ∀ c ∈ a, s < c) (hb : ∀ c ∈ b, s < c) :
    ((b ++ s :: y).take a.length < a ↔ b < a) ∧
      (a < (b ++ s :: y).take a.length → a < b) := by
  induction a generalizing b with
  | nil => simp
  | cons c a ih =>
    have hc := ha c (by simp)
    cases b with
    | nil => simp [cons_lt_cons, hc, hc.not_gt, hc.ne']
    | cons d b =>
      have h := ih (fun e he => ha e (by simp [he])) (b := b) (fun e he => hb e (by simp [he]))
      simp only [List.cons_append, List.length_cons, List.take_succ_cons, cons_lt_cons, h.1,
        true_and]
      intro hlt
      rcases hlt with hlt | ⟨heq, hlt⟩
      · exact Or.inl hlt
      · exact Or.inr ⟨heq, h.2 hlt⟩

/-- Where a word's letters begin a text, the text's own word is at least as long. -/
theorem length_le_of_take_eq {a b y : List α} (ha : ∀ c ∈ a, s < c)
    (h : (b ++ s :: y).take a.length = a) : a.length ≤ b.length := by
  by_contra hlt
  have hs : s ∈ (b ++ s :: y).take a.length := by
    apply List.mem_take_iff_getElem.mpr
    exact ⟨b.length, by simp; omega, by simp⟩
  rw [h] at hs
  exact (ha s hs).false

/-- Cutting both words to a length keeps their order. -/
theorem take_le_take {a b : List α} (h : a ≤ b) (n : ℕ) : a.take n ≤ b.take n := by
  induction n generalizing a b with
  | zero => simp
  | succ n ih =>
    cases a with
    | nil => exact not_lt.mp (List.not_lt_nil _)
    | cons c a =>
      cases b with
      | nil => exact absurd h (not_le.mpr (List.nil_lt_cons c a))
      | cons d b =>
        rw [← not_lt, cons_lt_cons, not_or] at h
        rw [List.take_succ_cons, List.take_succ_cons, ← not_lt, cons_lt_cons, not_or]
        refine ⟨h.1, ?_⟩
        rintro ⟨rfl, hlt⟩
        have hab : a ≤ b := not_lt.mp fun hlt' => h.2 ⟨rfl, hlt'⟩
        exact (ih hab).not_gt hlt

theorem lt_of_take_lt {a b : List α} {n : ℕ} (h : a.take n < b.take n) : a < b := by
  by_contra hle
  exact (take_le_take (not_lt.mp hle) n).not_gt h

end Morpheus.Lexicographic
