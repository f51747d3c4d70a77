import Mathlib.Data.List.Lex
import Mathlib.Data.List.Sort

/-!
# Comparison functions

A comparison function returns an integer whose sign orders its arguments. One that
compares field after field orders them by the lists of their fields, and sorting with it
is sorting by these lists. Where it is a strict total order, a list has one sorted permutation.
-/
namespace Morpheus.Comparison

/-- The sign of `order` is the order of two keys. -/
structure Agrees {κ : Type*} [LinearOrder κ] (order : Int) (left right : κ) : Prop where
  lt_iff : order < 0 ↔ left < right
  eq_iff : order = 0 ↔ left = right

/-- The first of the orders that decides. -/
def firstOrder : List Int → Int
  | [] => 0
  | order :: orders => if order ≠ 0 then order else firstOrder orders

def sortBy {α : Type*} (compare : α → α → Int) (items : List α) : List α :=
  items.insertionSort fun left right => compare left right ≤ 0

section
variable {κ : Type*} [LinearOrder κ]

theorem Agrees.le_iff {order : Int} {left right : κ} (h : Agrees order left right) :
    order ≤ 0 ↔ left ≤ right := by
  rw [le_iff_lt_or_eq, le_iff_lt_or_eq, h.lt_iff, h.eq_iff]

theorem agrees_nil : Agrees (firstOrder []) ([] : List κ) [] := by
  constructor
  · simp [firstOrder]
  · simp [firstOrder]

/-- A field that is compared first, the others being compared only on a tie. -/
theorem Agrees.consOfTie {order : Int} {orders : List Int} {l r : κ} {ls rs : List κ}
    (h : Agrees order l r) (hs : l = r → Agrees (firstOrder orders) ls rs) :
    Agrees (firstOrder (order :: orders)) (l :: ls) (r :: rs) := by
  by_cases h0 : order = 0
  · have hlr : l = r := h.eq_iff.mp h0
    have hrest : firstOrder (order :: orders) = firstOrder orders := by simp [firstOrder, h0]
    have htie := hs hlr
    rw [hrest]
    constructor
    · rw [htie.lt_iff, List.cons_lt_cons_iff]
      simp [hlr]
    · rw [htie.eq_iff]
      simp [hlr]
  · have hlr : l ≠ r := fun heq => h0 (h.eq_iff.mpr heq)
    have hfirst : firstOrder (order :: orders) = order := by simp [firstOrder, h0]
    rw [hfirst]
    constructor
    · rw [h.lt_iff, List.cons_lt_cons_iff]
      simp [hlr]
    · simp [h0, hlr]

/-- A field that is compared before the others. -/
theorem Agrees.cons {order : Int} {orders : List Int} {l r : κ} {ls rs : List κ}
    (h : Agrees order l r) (hs : Agrees (firstOrder orders) ls rs) :
    Agrees (firstOrder (order :: orders)) (l :: ls) (r :: rs) := h.consOfTie fun _ => hs

variable {α : Type*} {compare : α → α → Int} {key : α → κ}

theorem sortBy_perm (compare : α → α → Int) (items : List α) :
    (sortBy compare items).Perm items := List.perm_insertionSort _ _

theorem sortBy_pairwise (h : ∀ left right, Agrees (compare left right) (key left) (key right))
    (items : List α) :
    (sortBy compare items).Pairwise fun left right => key left ≤ key right := by
  have htrans : IsTrans α fun left right => compare left right ≤ 0 := by
    constructor
    intro a b c hab hbc
    exact (h a c).le_iff.mpr (((h a b).le_iff.mp hab).trans ((h b c).le_iff.mp hbc))
  have htotal : Std.Total fun left right : α => compare left right ≤ 0 := by
    constructor
    intro a b
    exact (le_total (key a) (key b)).imp (h a b).le_iff.mpr (h b a).le_iff.mpr
  exact (List.pairwise_insertionSort _ items).imp fun hle => (h _ _).le_iff.mp hle

/-- It is enough that the items themselves are compared by their keys. -/
theorem sortBy_pairwise_mem {items : List α} (h : ∀ left ∈ items, ∀ right ∈ items,
    Agrees (compare left right) (key left) (key right)) :
    (sortBy compare items).Pairwise fun left right => compare left right ≤ 0 := by
  have hmap : (sortBy compare items).map key = (items.map key).insertionSort (· ≤ ·) :=
    List.map_insertionSort _ _ key items fun a ha b hb => (h a ha b hb).le_iff
  have hkeys : ((sortBy compare items).map key).Pairwise (· ≤ ·) := by
    rw [hmap]
    exact List.pairwise_insertionSort _ _
  rw [List.pairwise_map] at hkeys
  apply hkeys.imp_of_mem
  intro a b ha hb hab
  have hperm := sortBy_perm compare items
  exact (h a (hperm.subset ha) b (hperm.subset hb)).le_iff.mpr hab

/-- Items with different keys come out strictly ascending. -/
theorem sortBy_ascends (h : ∀ left right, Agrees (compare left right) (key left) (key right))
    {items : List α} (hne : items.Pairwise fun left right => key left ≠ key right) :
    (sortBy compare items).Pairwise fun left right => compare left right < 0 := by
  have hdistinct : (sortBy compare items).Pairwise fun left right => key left ≠ key right :=
    hne.perm (sortBy_perm compare items).symm fun hab => hab.symm
  have hboth := (sortBy_pairwise h items).and hdistinct
  exact hboth.imp fun hab => (h _ _).lt_iff.mpr (lt_of_le_of_ne hab.1 hab.2)

end

section Sorted
variable {α κ : Type*} [LinearOrder κ] {compare : α → α → Int} {key : α → κ}

/-- A comparison function is a strict total order on a collection. -/
structure StrictlyOrders (compare : α → α → Int) (items : Set α) : Prop where
  refl : ∀ a ∈ items, compare a a = 0
  antisymm : ∀ a ∈ items, ∀ b ∈ items, compare a b < 0 ↔ 0 < compare b a
  trans : ∀ a ∈ items, ∀ b ∈ items, ∀ c ∈ items, compare a b < 0 → compare b c < 0 → compare a c < 0
  total : ∀ a ∈ items, ∀ b ∈ items, a ≠ b → compare a b < 0 ∨ compare b a < 0

theorem strictlyOrders_of_agrees {items : Set α}
    (h : ∀ a ∈ items, ∀ b ∈ items, Agrees (compare a b) (key a) (key b)) (hkey : items.InjOn key) :
    StrictlyOrders compare items where
  refl a ha := (h a ha a ha).eq_iff.mpr rfl
  antisymm a ha b hb := by
    rw [(h a ha b hb).lt_iff, ← not_le, ← not_le, (h b hb a ha).le_iff]
  trans a ha b hb c hc hab hbc :=
    (h a ha c hc).lt_iff.mpr (((h a ha b hb).lt_iff.mp hab).trans ((h b hb c hc).lt_iff.mp hbc))
  total a ha b hb hne := by
    rw [(h a ha b hb).lt_iff, (h b hb a ha).lt_iff]
    exact lt_or_gt_of_ne fun heq => hne (hkey ha hb heq)

/-- The one permutation of a list that is sorted. -/
structure SortedAlone (compare : α → α → Int) (items result : List α) : Prop where
  perm : result.Perm items
  ascends : result.Pairwise fun a b => compare a b < 0
  alone : ∀ other : List α, other.Perm items → (other.Pairwise fun a b => compare a b ≤ 0) → other = result

/-- On a collection that is strictly ordered, two items that are not above one another are one. -/
theorem StrictlyOrders.eq_of_le {items : Set α} (h : StrictlyOrders compare items) {a b : α}
    (ha : a ∈ items) (hb : b ∈ items) (hab : compare a b ≤ 0) (hba : compare b a ≤ 0) : a = b := by
  by_contra hne
  rcases h.total a ha b hb hne with hlt | hlt
  · exact absurd ((h.antisymm a ha b hb).mp hlt) (not_lt.mpr hba)
  · exact absurd ((h.antisymm b hb a ha).mp hlt) (not_lt.mpr hab)

theorem StrictlyOrders.sortedAlone {items result : List α} (h : StrictlyOrders compare {a | a ∈ items})
    (hnodup : items.Nodup) (hperm : result.Perm items)
    (hsorted : result.Pairwise fun a b => compare a b ≤ 0) : SortedAlone compare items result where
  perm := hperm
  ascends := by
    refine (hsorted.and (hperm.nodup_iff.mpr hnodup)).imp_of_mem ?_
    rintro a b ha hb ⟨hle, hne⟩
    refine (h.total a (hperm.subset ha) b (hperm.subset hb) hne).resolve_right fun hlt => ?_
    exact absurd ((h.antisymm b (hperm.subset hb) a (hperm.subset ha)).mp hlt) (not_lt.mpr hle)
  alone other hother hle := by
    refine (hother.trans hperm.symm).eq_of_pairwise ?_ hle hsorted
    intro a b ha hb hab hba
    exact h.eq_of_le (hother.subset ha) (hperm.subset hb) hab hba

end Sorted

end Morpheus.Comparison
