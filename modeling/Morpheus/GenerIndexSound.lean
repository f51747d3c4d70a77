import Morpheus.GenerIndexValid

/-!
# Soundness of the reader's validation

What a valid index promises to the functions that read it without further
checks: the lookup is a search of a table of ascending keys, and the walks of
the generation service stay inside the tables.
-/
namespace Morpheus.GenerIndex
open Checked BinarySearch

namespace Index

/-- An offset of a nonempty string that is terminated inside the string table. -/
def Terminated (index : Index) (offset : ℕ) : Prop :=
  ∃ s rest, s ≠ [] ∧ NulFree s ∧ offset < index.stringSize ∧
    index.tail offset = s ++ 0 :: rest

theorem string_eq_some {index : Index} {offset : ℕ} {s : Bytes}
    (h : index.string offset = some s) :
    offset < index.stringSize ∧ NulFree s ∧ ∃ rest, index.tail offset = s ++ 0 :: rest := by
  unfold string at h
  split at h
  · cases h
  · split at h
    · rename_i h0
      cases h
      exact ⟨by omega, cstr_nulFree _, cstr_split h0⟩
    · cases h

theorem terminated_of_present {index : Index} {offset : ℕ}
    (h : Present (index.string offset)) : index.Terminated offset := by
  obtain ⟨s, hs⟩ := Option.ne_none_iff_exists'.mp h.1
  obtain ⟨hlt, hfree, rest, hr⟩ := string_eq_some hs
  exact ⟨s, rest, fun h0 => h.2 (h0 ▸ hs), hfree, hlt, hr⟩

/-- The key of a lemma entry, as the comparison sees it. -/
def key (index : Index) (item : ℕ) : Bytes := (index.lemmaEntry item).key.getD []

theorem key_nulFree (index : Index) (item : ℕ) : NulFree (index.key item) := by
  unfold key
  cases h : (index.lemmaEntry item).key with
  | none => simp
  | some s => exact (string_eq_some h).2.1

/-- The records of a block. -/
def recordsOf (index : Index) (block : ℕ) : List RecordView :=
  (List.range' (index.blockEntry block).firstRecord (index.blockEntry block).count).map
    fun record => ⟨(index.recordEntry record).kind, (index.recordEntry record).stem,
      (index.recordEntry record).keys⟩

/-- The blocks of a lemma, each with its records. -/
def blocksOf (index : Index) (item : ℕ) : List (List RecordView) :=
  (List.range' (index.lemmaEntry item).firstBlock (index.lemmaEntry item).count).map
    index.recordsOf

end Index

/-- A walk whose visits all succeed lists what they return. -/
theorem walk_eq {α : Type} {visit : ℕ → Checked (Except Status α)} {f : ℕ → α}
    {left item : ℕ} (h : ∀ i, item ≤ i → i < item + left → visit i = .ok (.ok (f i))) :
    walk visit left item = .ok (.ok ((List.range' item left).map f)) := by
  induction left generalizing item with
  | zero => rfl
  | succ left ih =>
    rw [walk, h item le_rfl (by omega), ok_bind]
    simp only
    rw [ih fun i hlo hhi => h i (by omega) (by omega), ok_bind, List.range'_succ]
    rfl

namespace Index.Valid

variable {index : Index}

theorem lemma_ok (hv : index.Valid) {item : ℕ} (hi : item < index.lemmaCount) :
    (index.lemmaEntry item).Ok :=
  hv.lemmas _ (List.mem_map_of_mem (List.mem_range.mpr hi))

theorem record_ok (hv : index.Valid) {item : ℕ} (hi : item < index.recordCount) :
    (index.recordEntry item).Ok :=
  hv.records _ (List.mem_map_of_mem (List.mem_range.mpr hi))

theorem key_eq (hv : index.Valid) {item : ℕ} (hi : item < index.lemmaCount) :
    (index.lemmaEntry item).key = some (index.key item) := by
  obtain ⟨s, hs⟩ := Option.ne_none_iff_exists'.mp (hv.lemma_ok hi).1.1
  simp [Index.key, hs]

/-- The keys ascend over the whole table. -/
theorem keys_ascend (hv : index.Valid) {i j : ℕ} (hij : i < j) (hj : j < index.lemmaCount) :
    rank id (index.key i) < rank id (index.key j) := by
  have hchain : ((List.range index.lemmaCount).map fun i => rank id (index.key i)).IsChain
      (· < ·) := by
    have hk := hv.keys
    simp only [Index.lemmaEntries, List.isChain_map] at hk ⊢
    exact hk.imp fun i j h =>
      (strcmpBy_lt separatesNul_id (index.key_nulFree i) (index.key_nulFree j)).mp h
  have hpair := List.pairwise_iff_getElem.mp (List.isChain_iff_pairwise.mp hchain) i j
    (by simp; omega) (by simpa using hj) hij
  rwa [List.getElem_map, List.getElem_map, List.getElem_range, List.getElem_range] at hpair

theorem descending (hv : index.Valid) {wanted : Bytes} (hw : NulFree wanted) :
    Descending (fun i => strcmp wanted (index.key i)) index.lemmaCount := by
  intro i j hij hj hle
  have hlt := hv.keys_ascend hij hj
  have h1 := strcmpBy_pos separatesNul_id hw (index.key_nulFree i)
  refine (strcmpBy_lt separatesNul_id hw (index.key_nulFree j)).mpr (lt_of_le_of_lt ?_ hlt)
  exact not_lt.mp fun h => absurd (h1.mpr h) (not_lt.mpr hle)

theorem compareKey_eq (hv : index.Valid) (wanted : Bytes) {middle : ℕ}
    (hm : middle < index.lemmaCount) :
    compareKey index wanted middle = .ok (strcmp wanted (index.key middle)) := by
  have hin := hv.placed.lemma_inside hm
  have h24 : lemmaEntrySize = 24 := rfl
  have hat : index.lemmaAt middle = index.lemmas + middle * lemmaEntrySize := rfl
  have hkey : index.string (leValue (slice index.file (index.lemmaAt middle) 8)) =
    some (index.key middle) := hv.key_eq hm
  rw [compareKey, mul_entrySize hm hv.placed.lemmaSize, ok_bind, ← hat]
  simp only
  rw [getU64_eq (by omega), ok_bind, stringAt_eq hv.placed, ok_bind, hkey]

/-- The lookup of a valid index is the binary search of its keys. -/
theorem lookup_eq (hv : index.Valid) {wanted : Bytes} (hne : wanted ≠ []) :
    morpheusGenerIndexLookup index wanted = .ok
      (match search lowerMiddle (fun i => strcmp wanted (index.key i)) 0 index.lemmaCount with
      | .error _ => .error .notFound
      | .ok item => .ok ⟨(index.lemmaEntry item).firstBlock, (index.lemmaEntry item).count⟩) := by
  have hsearch : searchM lowerMiddle (compareKey index wanted) 0 index.lemmaCount = .ok
      (search lowerMiddle (fun i => strcmp wanted (index.key i)) 0 index.lemmaCount) :=
    searchM_eq_pure fun i _ hi => hv.compareKey_eq wanted hi
  rw [morpheusGenerIndexLookup, if_neg hne, hsearch, ok_bind]
  cases hs : search lowerMiddle (fun i => strcmp wanted (index.key i)) 0 index.lemmaCount with
  | error l => rfl
  | ok item =>
    have hi := (search_found hs).2.1
    have hin := hv.placed.lemma_inside hi
    have h24 : lemmaEntrySize = 24 := rfl
    have hat : index.lemmaAt item = index.lemmas + item * lemmaEntrySize := rfl
    simp only
    rw [mul_entrySize hi hv.placed.lemmaSize, ok_bind, ← hat]
    rw [getU64_eq (by omega), ok_bind, getU32_eq (by omega)]
    rfl

theorem lookup_of_key (hv : index.Valid) {item : ℕ} (hi : item < index.lemmaCount) :
    morpheusGenerIndexLookup index (index.key item) =
      .ok (.ok ⟨(index.lemmaEntry item).firstBlock, (index.lemmaEntry item).count⟩) := by
  have hfree := index.key_nulFree item
  have hne : index.key item ≠ [] := fun h => by
    simpa [hv.key_eq hi, h] using (hv.lemma_ok hi).1.2
  rw [hv.lookup_eq hne, search_complete (hv.descending hfree) hi
    ((strcmp_eq_zero hfree hfree).mpr rfl)]

theorem lookup_of_absent (hv : index.Valid) {wanted : Bytes} (hne : wanted ≠ [])
    (hw : NulFree wanted) (h : ∀ item < index.lemmaCount, index.key item ≠ wanted) :
    morpheusGenerIndexLookup index wanted = .ok (.error .notFound) := by
  rw [hv.lookup_eq hne]
  cases hs : search lowerMiddle (fun i => strcmp wanted (index.key i)) 0 index.lemmaCount with
  | error l => rfl
  | ok item =>
    obtain ⟨-, hi, h0⟩ := search_found hs
    exact absurd ((strcmp_eq_zero hw (index.key_nulFree item)).mp h0).symm (h item hi)

theorem block_eq (hv : index.Valid) {block : ℕ} (hb : block < index.blockCount) :
    morpheusGenerIndexBlock index block =
      .ok (.ok ⟨(index.blockEntry block).firstRecord, (index.blockEntry block).count⟩) := by
  have hin := hv.placed.block_inside hb
  have h16 : blockEntrySize = 16 := rfl
  have hat : index.blockAt block = index.blocks + block * blockEntrySize := rfl
  rw [morpheusGenerIndexBlock, if_neg (by omega), mul_entrySize hb hv.placed.blockSize, ok_bind,
    ← hat]
  simp only
  rw [getU64_eq (by omega), ok_bind, getU32_eq (by omega)]
  rfl

theorem record_eq (hv : index.Valid) {record : ℕ} (hr : record < index.recordCount) :
    morpheusGenerIndexRecord index record =
      .ok (.ok ⟨(index.recordEntry record).kind, (index.recordEntry record).stem,
        (index.recordEntry record).keys⟩) := by
  have hin := hv.placed.record_inside hr
  have h24 : recordEntrySize = 24 := rfl
  have hat : index.recordAt record = index.records + record * recordEntrySize := rfl
  rw [morpheusGenerIndexRecord, if_neg (by omega), mul_entrySize hr hv.placed.recordSize, ok_bind,
    ← hat]
  simp only
  rw [getU32_eq (by omega), ok_bind, getU64_eq (by omega), ok_bind, stringAt_eq hv.placed,
    ok_bind, getU64_eq (by omega), ok_bind, stringAt_eq hv.placed]
  rfl

/-- The blocks of a lemma lie inside the block table. -/
theorem blocks_inside (hv : index.Valid) {item : ℕ} (hi : item < index.lemmaCount) :
    (index.lemmaEntry item).firstBlock + (index.lemmaEntry item).count ≤ index.blockCount :=
  (hv.blockIntervals.inside (List.mem_map_of_mem (List.mem_map_of_mem
    (List.mem_range.mpr hi)))).2.2

theorem records_inside (hv : index.Valid) {block : ℕ} (hb : block < index.blockCount) :
    (index.blockEntry block).firstRecord + (index.blockEntry block).count ≤ index.recordCount :=
  (hv.recordIntervals.inside (List.mem_map_of_mem (List.mem_map_of_mem
    (List.mem_range.mpr hb)))).2.2

theorem owner_of_block (hv : index.Valid) {block : ℕ} (hb : block < index.blockCount) :
    ∃! item, item < index.lemmaCount ∧ (index.lemmaEntry item).firstBlock ≤ block ∧
      block < (index.lemmaEntry item).firstBlock + (index.lemmaEntry item).count := by
  have h := hv.blockIntervals.existsUnique (Nat.zero_le _) hb
  simpa [Index.lemmaEntries, and_left_comm] using h

theorem owner_of_record (hv : index.Valid) {record : ℕ} (hr : record < index.recordCount) :
    ∃! block, block < index.blockCount ∧ (index.blockEntry block).firstRecord ≤ record ∧
      record < (index.blockEntry block).firstRecord + (index.blockEntry block).count := by
  have h := hv.recordIntervals.existsUnique (Nat.zero_le _) hr
  simpa [Index.blockEntries, and_left_comm] using h

/-- The records that the walk of a block visits. -/
theorem blockRecords_eq (hv : index.Valid) {block : ℕ} (hb : block < index.blockCount) :
    blockRecords index block = .ok (.ok (index.recordsOf block)) := by
  rw [blockRecords, hv.block_eq hb, ok_bind]
  exact walk_eq fun record _ hlt => hv.record_eq (hlt.trans_le (hv.records_inside hb))

/-- The walk of a lemma never leaves the tables. -/
theorem serviceRecords_of_key (hv : index.Valid) {item : ℕ} (hi : item < index.lemmaCount) :
    serviceRecords index (index.key item) = .ok (.ok (index.blocksOf item)) := by
  rw [serviceRecords, hv.lookup_of_key hi, ok_bind]
  exact walk_eq fun block _ hlt => hv.blockRecords_eq (hlt.trans_le (hv.blocks_inside hi))

theorem serviceRecords_of_absent (hv : index.Valid) {wanted : Bytes} (hne : wanted ≠ [])
    (hw : NulFree wanted) (h : ∀ item < index.lemmaCount, index.key item ≠ wanted) :
    serviceRecords index wanted = .ok (.error .notFound) := by
  rw [serviceRecords, hv.lookup_of_absent hne hw h, ok_bind]

end Index.Valid

/-- Whatever the bytes, the validation never faults, and an accepted index can be
read without further checks: the lookup returns and decides membership, every
block and record that a walk reaches lies in its table and has one owner, and
every string offset reached is a nonempty string terminated inside the table. -/
theorem validLayout_sound (image : Image) :
    (∀ f, validLayout image ≠ .error (.fault f)) ∧
    ∀ index, validLayout image = .ok index →
      (∀ wanted, wanted ≠ [] → NulFree wanted →
        (∀ item < index.lemmaCount, index.key item = wanted →
          morpheusGenerIndexLookup index wanted = .ok (.ok
            ⟨(index.lemmaEntry item).firstBlock, (index.lemmaEntry item).count⟩)) ∧
        ((∀ item < index.lemmaCount, index.key item ≠ wanted) →
          morpheusGenerIndexLookup index wanted = .ok (.error .notFound))) ∧
      (∀ item < index.lemmaCount, index.Terminated (index.u64 (index.lemmaAt item)) ∧
        ∀ block, (index.lemmaEntry item).firstBlock ≤ block →
          block < (index.lemmaEntry item).firstBlock + (index.lemmaEntry item).count →
          block < index.blockCount ∧ index.blockAt block + blockEntrySize ≤ index.records) ∧
      (∀ block < index.blockCount,
        morpheusGenerIndexBlock index block = .ok (.ok
          ⟨(index.blockEntry block).firstRecord, (index.blockEntry block).count⟩) ∧
        ∀ record, (index.blockEntry block).firstRecord ≤ record →
          record < (index.blockEntry block).firstRecord + (index.blockEntry block).count →
          record < index.recordCount ∧ index.recordAt record + recordEntrySize ≤ index.strings) ∧
      (∀ record < index.recordCount,
        index.Terminated (index.u64 (index.recordAt record + 8)) ∧
        index.Terminated (index.u64 (index.recordAt record + 16)) ∧
        morpheusGenerIndexRecord index record = .ok (.ok ⟨(index.recordEntry record).kind,
          (index.recordEntry record).stem, (index.recordEntry record).keys⟩)) ∧
      (∀ block < index.blockCount, ∃! item, item < index.lemmaCount ∧
        (index.lemmaEntry item).firstBlock ≤ block ∧
        block < (index.lemmaEntry item).firstBlock + (index.lemmaEntry item).count) ∧
      (∀ record < index.recordCount, ∃! block, block < index.blockCount ∧
        (index.blockEntry block).firstRecord ≤ record ∧
        record < (index.blockEntry block).firstRecord + (index.blockEntry block).count) := by
  obtain ⟨hfault, hok⟩ := validLayout_decides image
  refine ⟨hfault, fun index h => ?_⟩
  obtain ⟨-, hv⟩ := (hok index).mp h
  refine ⟨fun wanted hne hw => ⟨?_, hv.lookup_of_absent hne hw⟩, fun item hi => ⟨?_, ?_⟩,
    fun block hb => ⟨hv.block_eq hb, ?_⟩, fun record hr => ⟨?_, ?_, hv.record_eq hr⟩,
    fun block hb => hv.owner_of_block hb, fun record hr => hv.owner_of_record hr⟩
  · rintro item hi rfl
    exact hv.lookup_of_key hi
  · exact Index.terminated_of_present (hv.lemma_ok hi).1
  · intro block _ hlt
    have hb := hlt.trans_le (hv.blocks_inside hi)
    exact ⟨hb, (hv.placed.block_inside hb).1⟩
  · intro record _ hlt
    have hr := hlt.trans_le (hv.records_inside hb)
    exact ⟨hr, (hv.placed.record_inside hr).1⟩
  · exact Index.terminated_of_present (hv.record_ok hr).2.2.2.1
  · exact Index.terminated_of_present (hv.record_ok hr).2.2.2.2

end Morpheus.GenerIndex
