import Morpheus.KeyReadBack

/-!
# Names that are defined more than once

`init_keys` sorts the rows of all key tables by their names and, within a name, by the order of their
definitions; `MatchMorphKey` finds some row of a name and goes on to the last one.
-/
namespace Morpheus
open Comparison

section Runs
variable {α : Type*} {p : α → Bool}

/-- A run ends at an entry that is followed by none of it. -/
theorem lastOfRun {entries : List α} {first : α} (hfirst : entries.head? = some first) (hp : p first = true) :
    ∃ k, ∃ h : k < entries.length, (entries.takeWhile p).getLast? = some entries[k] ∧ p entries[k] = true ∧
      ∀ h' : k + 1 < entries.length, p entries[k + 1] = false := by
  induction entries generalizing first with
  | nil => cases hfirst
  | cons entry entries ih =>
    obtain rfl := Option.some.inj hfirst
    rw [List.takeWhile_cons_of_pos hp]
    cases entries with
    | nil => exact ⟨0, by simp, rfl, hp, fun h' => absurd h' (by simp)⟩
    | cons next rest =>
      cases hnext : p next with
      | true =>
        obtain ⟨k, hk, hlast, hpk, hbehind⟩ := ih rfl hnext
        refine ⟨k + 1, Nat.succ_lt_succ hk, ?_, hpk, fun h' => hbehind (Nat.lt_of_succ_lt_succ h')⟩
        rw [List.takeWhile_cons_of_pos hnext] at hlast ⊢
        rwa [List.getLast?_cons_cons]
      | false =>
        refine ⟨0, by simp, ?_, hp, fun _ => hnext⟩
        rw [List.takeWhile_cons_of_neg (by simp [hnext])]
        rfl

/-- The last entry of a kind is the one that none of the kind follows. -/
theorem getLast?_filter_eq {entries : List α} {n : ℕ} (hn : n < entries.length) (hp : p entries[n] = true)
    (hbehind : ∀ m, ∀ hm : m < entries.length, n < m → p entries[m] = false) :
    (entries.filter p).getLast? = some entries[n] := by
  have hrest : (entries.drop (n + 1)).filter p = [] := by
    rw [List.filter_eq_nil_iff]
    intro entry hentry
    obtain ⟨i, hi, rfl⟩ := List.getElem_of_mem hentry
    rw [List.getElem_drop]
    rw [List.length_drop] at hi
    simp [hbehind (n + 1 + i) (by omega) (by omega)]
  have hsplit : entries = entries.take n ++ entries[n] :: entries.drop (n + 1) := by
    rw [← List.drop_eq_getElem_cons hn, List.take_append_drop]
  conv_lhs => rw [hsplit]
  rw [List.filter_append, List.filter_cons_of_pos hp, hrest, List.getLast?_append]
  rfl

end Runs

section Rows
variable (tables : KeyTables)

/-- The rows behind `key_table`, each with its place in the definition order. -/
def KeyTables.sortedRows : List (MorphArgs × ℕ) := sortBy keycomp1 tables.definitions.zipIdx

theorem keyTable_eq : tables.keyTable = tables.sortedRows.map Prod.fst := rfl

variable {tables} {field : Bytes}

theorem sortedRows_perm : tables.sortedRows.Perm tables.definitions.zipIdx := sortBy_perm _ _

theorem sortedRows_nulFree {row : MorphArgs × ℕ} (h : row ∈ tables.sortedRows) : NulFree row.1.morphKey :=
  (definitions_key (List.fst_mem_of_mem_zipIdx (sortedRows_perm.subset h))).2

/-- Rows of one name are in the definition order. -/
theorem sortedRows_place {i k : ℕ} (hi : i < tables.sortedRows.length) (hk : k < tables.sortedRows.length)
    (hik : i ≤ k) (hname : tables.sortedRows[i].1.morphKey = tables.sortedRows[k].1.morphKey) :
    tables.sortedRows[i].2 ≤ tables.sortedRows[k].2 := by
  rcases hik.eq_or_lt with rfl | hlt
  · exact le_rfl
  have hsorted : tables.sortedRows.Pairwise fun l r => keycomp1 l r ≤ 0 :=
    sortBy_pairwise_mem fun l hl r hr =>
      @keycomp1_agrees l r (definitions_key (List.fst_mem_of_mem_zipIdx hl)).2
        (definitions_key (List.fst_mem_of_mem_zipIdx hr)).2
  have hle := List.pairwise_iff_getElem.mp hsorted i k hi hk hlt
  have hagrees := keycomp1_agrees (sortedRows_nulFree (List.getElem_mem hi))
    (sortedRows_nulFree (List.getElem_mem hk))
  rw [hagrees.le_iff, keyOrder, keyOrder, hname, ← not_lt, List.cons_lt_cons_iff] at hle
  by_contra hgt
  refine hle (.inr ⟨rfl, ?_⟩)
  simpa [List.cons_lt_cons_iff] using hgt

/-- A row with the name of the lookup. -/
def named (field : Bytes) (mp : MorphArgs) : Bool := mp.morphKey = field

theorem strcmp_named (hfield : NulFree field) {mp : MorphArgs} (h : mp ∈ tables.keyTable) :
    (strcmp field mp.morphKey == 0) = named field mp := by
  rw [Bool.eq_iff_iff, beq_iff_eq, named, decide_eq_true_iff,
    strcmp_eq_zero hfield (definitions_key (mem_keyTable.mp h)).2, eq_comm]

theorem eq_of_rank_eq {s t : Bytes} (hs : NulFree s) (ht : NulFree t) (h : rank id s = rank id t) : s = t :=
  (strcmp_eq_zero hs ht).mp ((strcmp_agrees hs ht).eq_iff.mpr h)

/-- The rows of a name stand together. -/
theorem named_between (hfield : NulFree field) {i j k : ℕ} (hij : i ≤ j) (hjk : j ≤ k)
    (hk : k < tables.keyTable.length) (hi : named field tables.keyTable[i] = true)
    (hname : named field tables.keyTable[k] = true) : named field tables.keyTable[j] = true := by
  have hle : ∀ {a b : ℕ} (hab : a ≤ b) (hb : b < tables.keyTable.length),
      rank id tables.keyTable[a].morphKey ≤ rank id tables.keyTable[b].morphKey := by
    intro a b hab hb
    rcases hab.eq_or_lt with rfl | hlt
    · exact le_rfl
    · exact List.pairwise_iff_getElem.mp keyTable_pairwise a b (hlt.trans hb) hb hlt
  have hbelow := hle hij (hjk.trans_lt hk)
  have habove := hle hjk hk
  rw [named, decide_eq_true_iff] at hi hname ⊢
  rw [hi] at hbelow
  rw [hname] at habove
  exact eq_of_rank_eq (definitions_key (mem_keyTable.mp (List.getElem_mem _))).2 hfield
    (le_antisymm habove hbelow)

/-- The last row of a name in the order of the lookup is its last definition. -/
theorem lastDefinition_of_row {k : ℕ} (hk : k < tables.sortedRows.length)
    (hname : named field tables.sortedRows[k].1 = true)
    (hbehind : ∀ i, k < i → ∀ hi : i < tables.sortedRows.length, named field tables.sortedRows[i].1 = false) :
    (tables.definitions.filter (named field)).getLast? = some tables.sortedRows[k].1 := by
  have hplace := List.mem_zipIdx_iff_getElem?.mp (sortedRows_perm.subset (List.getElem_mem hk))
  obtain ⟨hn, hrow⟩ := List.getElem?_eq_some_iff.mp hplace
  rw [← hrow] at hname ⊢
  refine getLast?_filter_eq hn hname fun m hm hlt => ?_
  by_contra hnamed
  rw [Bool.not_eq_false] at hnamed
  have hmem : (tables.definitions[m], m) ∈ tables.sortedRows := by
    rw [sortedRows_perm.mem_iff, List.mk_mem_zipIdx_iff_getElem?, List.getElem?_eq_getElem hm]
  obtain ⟨i, hi, hat⟩ := List.getElem_of_mem hmem
  rcases le_or_gt i k with hik | hki
  · have hsame : tables.sortedRows[i].1.morphKey = tables.sortedRows[k].1.morphKey := by
      rw [named, decide_eq_true_iff] at hname hnamed
      rw [hat, ← hrow, hname, hnamed]
    have hle := sortedRows_place hi hk hik hsame
    rw [hat] at hle
    exact absurd hlt (not_lt.mpr hle)
  · have hnot := hbehind i hki hi
    rw [hat] at hnot
    exact Bool.false_ne_true (hnot.symm.trans hnamed)

theorem matchMorphKey_eq_getLast (tables : KeyTables) {field : Bytes} (hfield : NulFree field) :
    matchMorphKey tables field = (tables.definitions.filter (named field)).getLast? := by
  unfold matchMorphKey
  by_cases hdefined : ∃ mp ∈ tables.definitions, mp.morphKey = field
  · obtain ⟨mp, hmp, rfl⟩ := hdefined
    obtain ⟨i, hi, hrow⟩ := List.getElem_of_mem (mem_keyTable.mpr hmp)
    have hzero : keycomp2 tables mp.morphKey i = 0 := by
      rw [(keycomp2_agrees hfield hi).eq_iff, hrow]
    obtain ⟨j, hfound, hj, hj0⟩ := binlook_exact_exists (keycomp2_falling hfield) hi hzero
    have hfirst : (strcmp mp.morphKey tables.keyTable[j].morphKey == 0) = true := by
      rw [← keycomp2_eq hj, hj0]
      rfl
    have hhead : (tables.keyTable.drop j).head? = some tables.keyTable[j] := by
      rw [List.head?_drop, List.getElem?_eq_getElem hj]
    obtain ⟨m, hm, hlast, hp, hbehind⟩ :=
      @lastOfRun _ (fun row => strcmp mp.morphKey row.morphKey == 0) _ _ hhead hfirst
    rw [hfound, Option.bind_some, hlast]
    have hk : j + m < tables.keyTable.length := by
      rw [List.length_drop] at hm
      omega
    have hrows : j + m < tables.sortedRows.length := by
      rwa [keyTable_eq, List.length_map] at hk
    rw [List.getElem_drop] at hp ⊢
    have hend : named mp.morphKey tables.keyTable[j + m] = true :=
      (strcmp_named hfield (List.getElem_mem hk)).symm.trans hp
    have hstart : named mp.morphKey tables.keyTable[j] = true :=
      (strcmp_named hfield (List.getElem_mem hj)).symm.trans hfirst
    have hrow : ∀ i (hi : i < tables.sortedRows.length) (hi' : i < tables.keyTable.length),
        tables.keyTable[i] = tables.sortedRows[i].1 := by
      intro i hi hi'
      simp only [keyTable_eq, List.getElem_map]
    rw [hrow _ hrows hk] at hend ⊢
    refine (lastDefinition_of_row hrows hend fun i hki hi => ?_).symm
    -- a further row of the name would be preceded by others of it up to the end of the run
    by_contra hnamed
    have hi' : i < tables.keyTable.length := by
      rwa [keyTable_eq, List.length_map]
    rw [Bool.not_eq_false, ← hrow i hi hi'] at hnamed
    have hnext := named_between hfield (show j ≤ j + m + 1 by omega) hki hi' hstart hnamed
    rw [← strcmp_named hfield (List.getElem_mem _)] at hnext
    have hstop := hbehind (by rw [List.length_drop]; omega)
    rw [List.getElem_drop] at hstop
    exact Bool.false_ne_true (hstop.symm.trans hnext)
  · have hnone : binlook (keycomp2 tables field) tables.keyTable.length true = none := by
      refine binlook_exact_none fun i hi hzero => hdefined ⟨tables.keyTable[i], ?_, ?_⟩
      · exact mem_keyTable.mp (List.getElem_mem hi)
      · have hnamed := strcmp_named hfield (List.getElem_mem hi)
        rw [← keycomp2_eq hi, hzero] at hnamed
        simpa [named] using hnamed.symm
    have hempty : tables.definitions.filter (named field) = [] := by
      rw [List.filter_eq_nil_iff]
      exact fun mp hmp hname => hdefined ⟨mp, hmp, by simpa [named] using hname⟩
    rw [hnone, hempty]
    rfl

/-- `keycomp1` leaves `qsort` one order of the rows: no two have the same place. -/
theorem sortedRows_alone (tables : KeyTables) :
    SortedAlone keycomp1 tables.definitions.zipIdx tables.sortedRows := by
  have hagrees : ∀ l ∈ tables.definitions.zipIdx, ∀ r ∈ tables.definitions.zipIdx,
      Comparison.Agrees (keycomp1 l r) (keyOrder l) (keyOrder r) := fun l hl r hr =>
    @keycomp1_agrees l r (definitions_key (List.fst_mem_of_mem_zipIdx hl)).2
      (definitions_key (List.fst_mem_of_mem_zipIdx hr)).2
  have horders : StrictlyOrders keycomp1 {row | row ∈ tables.definitions.zipIdx} := by
    refine strictlyOrders_of_agrees hagrees fun l hl r hr heq => ?_
    have hplace : l.2 = r.2 := by
      simp only [keyOrder, List.cons.injEq, and_true] at heq
      exact heq.2
    have hl' := List.mem_zipIdx_iff_getElem?.mp hl
    have hr' := List.mem_zipIdx_iff_getElem?.mp hr
    rw [hplace, hr', Option.some.injEq] at hl'
    exact Prod.ext hl'.symm hplace
  have hnodup : tables.definitions.zipIdx.Nodup := by
    refine List.Nodup.of_map Prod.snd ?_
    rw [List.zipIdx_map_snd]
    exact List.nodup_range'
  exact horders.sortedAlone hnodup sortedRows_perm (sortBy_pairwise_mem hagrees)

/-- `MatchMorphKey` returns the last definition of a name, and fails for a name without one, in
whatever way `qsort` finds the order of the rows. -/
theorem matchMorphKey_last (tables : KeyTables) {field : Bytes} (hfield : NulFree field) :
    SortedAlone keycomp1 tables.definitions.zipIdx tables.sortedRows ∧
      matchMorphKey tables field = (tables.definitions.filter (named field)).getLast? :=
  ⟨sortedRows_alone tables, matchMorphKey_eq_getLast tables hfield⟩

/-- Tables that define a stem type twice. -/
def doubledTables : KeyTables where
  stemtypes := [(ascii "os_ou", 1), (ascii "us_ews", 2), (ascii "os_ou", 3)]
  derivtypes := []
  domains := []
  isKey := by
    unfold IsKeyWord
    decide +kernel

theorem matchMorphKey_last_osou :
    SortedAlone keycomp1 doubledTables.definitions.zipIdx doubledTables.sortedRows ∧
      matchMorphKey doubledTables (ascii "os_ou") =
        (doubledTables.definitions.filter (named (ascii "os_ou"))).getLast? :=
  matchMorphKey_last doubledTables (by decide)

end Rows
end Morpheus
