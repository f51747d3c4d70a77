import Morpheus.GenerIndexPrepared
import Morpheus.GenerIndexTables
import Morpheus.GenerIndexValid

/-!
# What the writer writes

The size loop counts exactly the rows and string bytes of the final tables, so the
cursors end where the layout test of `write_index` expects them.
-/
namespace Morpheus.GenerIndex
open Checked

/-- The string bytes of a list of records. -/
def recordStrings (records : List SourceRecord) : ℕ :=
  (records.map fun r => r.stem.length + 1 + (r.keys.length + 1)).sum

/-- The lemmas that the size loop counts. -/
def newLemmas : Option Bytes → List SourceBlock → List Bytes
  | _, [] => []
  | previous, block :: blocks =>
    if previous.all fun key => strcmp key block.key ≠ 0 then
      block.key :: newLemmas (some block.key) blocks
    else newLemmas (some block.key) blocks

def keyStrings (keys : List Bytes) : ℕ := (keys.map fun key => key.length + 1).sum

def blockRecordsOf (blocks : List SourceBlock) : List SourceRecord := blocks.flatMap (·.records)

theorem measureRecords_decides {stringSize : ℕ} (records : List SourceRecord)
    (h : stringSize ≤ sizeMax) :
    Decides (measureRecords stringSize records) fun r =>
      stringSize + recordStrings records ≤ sizeMax ∧ r = stringSize + recordStrings records := by
  induction records generalizing stringSize with
  | nil => exact (Decides.ok _).congr fun r => by simp [recordStrings, h]
  | cons record records ih =>
    have hsum : recordStrings (record :: records) =
        record.stem.length + 1 + (record.keys.length + 1) + recordStrings records := by
      simp [recordStrings]
    refine Decides.value (addSize_decides h) (fun r hr => by omega) fun h1 => ?_
    refine Decides.value (addSize_decides h1) (fun r hr => by omega) fun h2 => ?_
    exact (ih h2).congr fun r => by omega

/-- Every counted lemma has a key and its NUL among the string bytes. -/
def Sizes.Keyed (sizes : Sizes) : Prop := 2 * sizes.lemmaCount ≤ sizes.stringSize

def Sizes.Fits (sizes : Sizes) : Prop := sizes.stringSize ≤ sizeMax ∧ sizes.recordCount ≤ sizeMax

def addLemma (previous : Option Bytes) (sizes : Sizes) (block : SourceBlock) : Sizes :=
  if previous.all fun key => strcmp key block.key ≠ 0 then
    { sizes with
      lemmaCount := sizes.lemmaCount + 1
      stringSize := sizes.stringSize + (block.key.length + 1) }
  else sizes

theorem addLemma_keyed (previous : Option Bytes) {sizes : Sizes} (block : SourceBlock)
    (h : sizes.Keyed) : (addLemma previous sizes block).Keyed := by
  have hkey : 0 < block.key.length := List.length_pos_iff.mpr block.key_ok.1
  unfold addLemma Sizes.Keyed at *
  split
  · dsimp only
    omega
  · exact h

theorem measureLemma_decides {previous : Option Bytes} {sizes : Sizes} (block : SourceBlock)
    (hk : sizes.Keyed) (hf : sizes.Fits) :
    Decides (measureLemma previous sizes block) fun r =>
      (addLemma previous sizes block).Fits ∧ r = addLemma previous sizes block := by
  unfold measureLemma addLemma Sizes.Keyed Sizes.Fits at *
  obtain ⟨h1, h2⟩ := hf
  split
  · have hmax : sizeMax = 2 ^ 64 - 1 := rfl
    refine Decides.step (add_eq_ok (by omega)) ?_
    refine Decides.value (addSize_decides h1) (fun r hr => hr.1.1) fun h4 => ?_
    exact (Decides.ok _).congr fun r => ⟨fun h => ⟨⟨h4, h2⟩, h⟩, fun h => h.2⟩
  · exact (Decides.ok _).congr fun r => ⟨fun h => ⟨⟨h1, h2⟩, h⟩, fun h => h.2⟩

/-- What the size loop adds up. -/
def measured (previous : Option Bytes) (sizes : Sizes) (blocks : List SourceBlock) : Sizes where
  lemmaCount := sizes.lemmaCount + (newLemmas previous blocks).length
  recordCount := sizes.recordCount + (blockRecordsOf blocks).length
  stringSize := sizes.stringSize + keyStrings (newLemmas previous blocks) +
    recordStrings (blockRecordsOf blocks)

def addRecords (sizes : Sizes) (records : List SourceRecord) : Sizes :=
  { sizes with
    recordCount := sizes.recordCount + records.length
    stringSize := sizes.stringSize + recordStrings records }

theorem measured_cons (previous : Option Bytes) (sizes : Sizes) (block : SourceBlock)
    (blocks : List SourceBlock) :
    measured previous sizes (block :: blocks) = measured (some block.key)
      (addRecords (addLemma previous sizes block) block.records) blocks := by
  simp only [measured, newLemmas, addLemma, addRecords]
  split <;> simp [keyStrings, recordStrings, blockRecordsOf] <;> omega

theorem Sizes.Fits.of_measured {previous : Option Bytes} {sizes : Sizes}
    {blocks : List SourceBlock} (h : (measured previous sizes blocks).Fits) : sizes.Fits := by
  simp only [Sizes.Fits, measured] at *
  omega

theorem measureBlocks_decides {previous : Option Bytes} {sizes : Sizes}
    {blocks : List SourceBlock} (hne : ∀ b ∈ blocks, b.records ≠ []) (hk : sizes.Keyed)
    (hf : sizes.Fits) :
    Decides (measureBlocks previous sizes blocks) fun r =>
      ((∀ b ∈ blocks, b.records.length ≤ uint32Max) ∧ (measured previous sizes blocks).Fits) ∧
        r = measured previous sizes blocks := by
  induction blocks generalizing previous sizes with
  | nil =>
    have hm : measured previous sizes [] = sizes := by
      simp [measured, newLemmas, keyStrings, recordStrings, blockRecordsOf]
    exact (Decides.ok _).congr fun r => by simp [hm, hf]
  | cons block blocks ih =>
    rw [measured_cons, measureBlocks, if_neg (hne block (by simp))]
    refine Decides.check (fun r hr => hr.1.1 block (by simp)) fun h1 => ?_
    refine Decides.value (measureLemma_decides block hk hf) (fun r hr => ?_) fun h2 => ?_
    · have := hr.1.2.of_measured
      simp only [Sizes.Fits, addRecords] at this ⊢
      omega
    refine Decides.value (addSize_decides h2.2) (fun r hr => hr.1.2.of_measured.2) fun h3 => ?_
    refine Decides.value (measureRecords_decides _ h2.1) (fun r hr => hr.1.2.of_measured.1)
      fun h4 => ?_
    have hkeyed : (addRecords (addLemma previous sizes block) block.records).Keyed := by
      have := addLemma_keyed previous block hk
      simp only [Sizes.Keyed, addRecords] at this ⊢
      omega
    refine (ih (fun b hb => hne b (by simp [hb])) hkeyed ⟨h4, h3⟩).congr fun r => ?_
    simp [h1]

theorem groupBlocks_flatMap (blocks : List SourceBlock) :
    (groupBlocks blocks).flatMap (·.2) = blocks := by
  fun_induction groupBlocks blocks with
  | case1 => rfl
  | case2 block blocks ih => simp [ih]

theorem mem_groupBlocks {blocks : List SourceBlock} {group : Bytes × List SourceBlock}
    (h : group ∈ groupBlocks blocks) : group.2 ≠ [] ∧ ∀ b ∈ group.2, b.key = group.1 := by
  fun_induction groupBlocks blocks with
  | case1 => simp at h
  | case2 block blocks ih =>
    rcases List.mem_cons.mp h with rfl | h
    · refine ⟨by simp, fun b hb => ?_⟩
      rcases List.mem_cons.mp hb with rfl | hb
      · rfl
      · have := List.mem_takeWhile_imp hb
        exact (strcmp_key.mp (by simpa using this)).symm
    · exact ih h

theorem newLemmas_some (block : SourceBlock) (blocks : List SourceBlock) :
    newLemmas (some block.key) blocks =
      newLemmas none (blocks.dropWhile fun b => strcmp block.key b.key = 0) := by
  induction blocks with
  | nil => rfl
  | cons b blocks ih =>
    by_cases h : strcmp block.key b.key = 0
    · rw [newLemmas, List.dropWhile_cons_of_pos (by simpa using h), ← strcmp_key.mp h, ih]
      simp [strcmp_key]
    · simp [newLemmas, h]

/-- The size loop counts one lemma for each run of blocks. -/
theorem groupBlocks_keys (blocks : List SourceBlock) :
    (groupBlocks blocks).map (·.1) = newLemmas none blocks := by
  fun_induction groupBlocks blocks with
  | case1 => rfl
  | case2 block blocks ih => simp [newLemmas, ih, newLemmas_some]

section
open Tables

theorem foldl_addRecord (t : Tables) (records : List SourceRecord) :
    (records.foldl addRecord t).lemmas = t.lemmas ∧
    (records.foldl addRecord t).blocks = t.blocks ∧
    (records.foldl addRecord t).records.length = t.records.length + records.length ∧
    (records.foldl addRecord t).strings.length = t.strings.length + recordStrings records := by
  induction records generalizing t with
  | nil => simp [recordStrings]
  | cons record records ih =>
    obtain ⟨h1, h2, h3, h4⟩ := ih (t.addRecord record)
    refine ⟨h1, h2, ?_, ?_⟩
    · rw [List.foldl_cons, h3]
      simp [addRecord]
      omega
    · rw [List.foldl_cons, h4]
      simp [addRecord, recordStrings]
      omega

theorem foldl_addBlock (t : Tables) (blocks : List SourceBlock) :
    (blocks.foldl addBlock t).lemmas = t.lemmas ∧
    (blocks.foldl addBlock t).blocks.length = t.blocks.length + blocks.length ∧
    (blocks.foldl addBlock t).records.length =
      t.records.length + (blockRecordsOf blocks).length ∧
    (blocks.foldl addBlock t).strings.length =
      t.strings.length + recordStrings (blockRecordsOf blocks) := by
  induction blocks generalizing t with
  | nil => simp [recordStrings, blockRecordsOf]
  | cons block blocks ih =>
    obtain ⟨h1, h2, h3, h4⟩ := ih (t.addBlock block)
    obtain ⟨g1, g2, g3, g4⟩ := foldl_addRecord (t.openBlock block) block.records
    rw [List.foldl_cons, h1, h2, h3, h4]
    simp only [addBlock, g1, g2, g3, g4]
    simp [openBlock, blockRecordsOf, recordStrings]
    omega

theorem addGroups_lengths (t : Tables) (groups : List (Bytes × List SourceBlock)) :
    (t.addGroups groups).lemmas.length = t.lemmas.length + groups.length ∧
    (t.addGroups groups).blocks.length =
      t.blocks.length + (groups.flatMap (·.2)).length ∧
    (t.addGroups groups).records.length =
      t.records.length + (blockRecordsOf (groups.flatMap (·.2))).length ∧
    (t.addGroups groups).strings.length = t.strings.length + keyStrings (groups.map (·.1)) +
      recordStrings (blockRecordsOf (groups.flatMap (·.2))) := by
  induction groups generalizing t with
  | nil => simp [recordStrings, blockRecordsOf, keyStrings, addGroups]
  | cons group groups ih =>
    obtain ⟨h1, h2, h3, h4⟩ := ih (t.addGroup group)
    obtain ⟨g1, g2, g3, g4⟩ := foldl_addBlock (t.openGroup group) group.2
    have hcons : t.addGroups (group :: groups) = (t.addGroup group).addGroups groups := rfl
    rw [hcons, h1, h2, h3, h4]
    simp only [addGroup, g1, g2, g3, g4]
    simp [openGroup, blockRecordsOf, recordStrings, keyStrings]
    omega

end

def tablesOf (blocks : List SourceBlock) : Tables := Tables.empty.addGroups (groupBlocks blocks)

theorem tablesOf_lengths (blocks : List SourceBlock) :
    (tablesOf blocks).lemmas.length = (newLemmas none blocks).length ∧
    (tablesOf blocks).blocks.length = blocks.length ∧
    (tablesOf blocks).records.length = (blockRecordsOf blocks).length ∧
    (tablesOf blocks).strings.length = keyStrings (newLemmas none blocks) +
      recordStrings (blockRecordsOf blocks) := by
  obtain ⟨h1, h2, h3, h4⟩ := addGroups_lengths Tables.empty (groupBlocks blocks)
  rw [groupBlocks_flatMap] at h2 h3 h4
  have hcount := congrArg List.length (groupBlocks_keys blocks)
  rw [List.length_map] at hcount
  rw [hcount] at h1
  rw [groupBlocks_keys] at h4
  have h := And.intro h1 (And.intro h2 (And.intro h3 h4))
  simpa [tablesOf, Tables.empty] using h

/-- The header of a file with the given tables. -/
def headerOf (t : Tables) : Bytes :=
  ascii "MORPHGEN" ++ leBytes 4 formatVersion ++ leBytes 4 languageGreek ++
    leBytes 8 t.lemmas.length ++ leBytes 8 t.blocks.length ++ leBytes 8 t.records.length ++
    leBytes 8 t.strings.length ++ leBytes 8 (payloadHash t.payload).toNat ++ leBytes 8 0

def fileOf (t : Tables) : Bytes := headerOf t ++ t.payload

theorem headerOf_length (t : Tables) : (headerOf t).length = headerSize := by
  have : (ascii "MORPHGEN").length = 8 := rfl
  simp [headerOf, headerSize, this]

theorem write_header {bs x : Bytes} {start : ℕ} (hs : start = bs.length)
    (h : bs.length + x.length ≤ headerSize) :
    write (fill bs headerSize) start x = .ok (fill (bs ++ x) headerSize) := by
  simpa using write_fill [] [] (by simpa using hs) h

theorem writeHeader_eq (t : Tables) :
    writeHeader t.lemmas.length t.blocks.length t.records.length t.strings.length t.payload =
      .ok (headerOf t) := by
  have hmagic : (ascii "MORPHGEN").length = 8 := rfl
  have h64 : headerSize = 64 := rfl
  have hzero : leBytes 8 0 = List.replicate 8 0 := rfl
  unfold writeHeader
  have hstart : ascii "MORPHGEN" ++ List.replicate (headerSize - 8) 0 =
    fill (ascii "MORPHGEN") headerSize := rfl
  simp only [hstart]
  refine step_eq (write_header rfl (by simp [hmagic, h64])) ?_
  refine step_eq (write_header (by simp [hmagic]) (by simp [hmagic, h64])) ?_
  refine step_eq (write_header (by simp [hmagic]) (by simp [hmagic, h64])) ?_
  refine step_eq (write_header (by simp [hmagic]) (by simp [hmagic, h64])) ?_
  refine step_eq (write_header (by simp [hmagic]) (by simp [hmagic, h64])) ?_
  refine step_eq (write_header (by simp [hmagic]) (by simp [hmagic, h64])) ?_
  refine (write_header (by simp [hmagic]) (by simp [hmagic, h64])).trans (congrArg Except.ok ?_)
  have hfull := fill_full (headerOf_length t).symm
  rw [← hfull, headerOf, hzero, fill_zeros (by simp [hmagic, h64])]

theorem multiplySize_decides (count : ℕ) {size : ℕ} (hs : 0 < size) :
    Decides (multiplySize count size) fun r =>
      count * size ≤ sizeMax ∧ r = count * size := by
  have hfit : (size = 0 ∨ count ≤ sizeMax / size) ↔ count * size ≤ sizeMax := by
    rw [Nat.le_div_iff_mul_le hs]
    simp [hs.ne']
  refine Decides.check (fun _ hr => hfit.mpr hr.1) fun hp => ?_
  rw [mul_eq_ok (hfit.mp hp)]
  exact (Decides.ok _).congr fun r => by simp [hfit.mp hp]

theorem writeGroup_decides {final t : Tables} {group : Bytes × List SourceBlock}
    (hne : ∀ source ∈ group.2, source.records ≠ []) (hpos : group.2 ≠ [])
    (h : (t.addGroup group).Extends final) (hfit : final.payload.length ≤ sizeMax) :
    Decides (writeGroup (layoutOf final) (cursorsAt final t) group) fun c =>
      group.2.length ≤ uint32Max ∧ c = cursorsAt final (t.addGroup group) := by
  by_cases hcount : group.2.length ≤ uint32Max
  · rw [writeGroup_eq hne hpos hcount h hfit]
    exact (Decides.ok _).congr fun c => by simp [hcount]
  · have hcountP : group.2.countP (fun block => block.records ≠ []) = group.2.length :=
      List.countP_eq_length.mpr fun b hb => by simpa using hne b hb
    unfold writeGroup
    simp only [hcountP, require, if_neg hcount]
    exact Decides.rejected fun c hc => hcount hc.1

theorem writeGroups_decides {final t : Tables} {groups : List (Bytes × List SourceBlock)}
    (hg : ∀ group ∈ groups, group.2 ≠ [] ∧ ∀ source ∈ group.2, source.records ≠ [])
    (h : (t.addGroups groups).Extends final) (hfit : final.payload.length ≤ sizeMax) :
    Decides (groups.foldlM (writeGroup (layoutOf final)) (cursorsAt final t)) fun c =>
      (∀ group ∈ groups, group.2.length ≤ uint32Max) ∧
        c = cursorsAt final (t.addGroups groups) := by
  induction groups generalizing t with
  | nil => exact (Decides.ok _).congr fun c => by simp [Tables.addGroups]
  | cons group groups ih =>
    obtain ⟨hpos, hne⟩ := hg group (by simp)
    have hstep := (Tables.Extends.foldl Tables.extends_addGroup (t.addGroup group) groups).trans h
    rw [List.foldlM_cons]
    refine Decides.value (writeGroup_decides hne hpos hstep hfit)
      (fun c hc => hc.1 group (by simp)) fun hcount => ?_
    refine (ih (fun g hmem => hg g (by simp [hmem])) h).congr fun c => ?_
    simp [hcount, Tables.addGroups]

theorem cursorsAt_start (final : Tables) :
    cursorsAt final Tables.empty =
      { payload := List.replicate (final.lemmas.length * lemmaEntrySize +
          final.blocks.length * blockEntrySize + final.records.length * recordEntrySize +
          final.strings.length) 0
        lemmaCursor := 0
        blockCursor := final.lemmas.length * lemmaEntrySize
        recordCursor := final.lemmas.length * lemmaEntrySize +
          final.blocks.length * blockEntrySize
        stringCursor := final.lemmas.length * lemmaEntrySize +
          final.blocks.length * blockEntrySize + final.records.length * recordEntrySize
        firstRecord := 0 } := by
  simp only [cursorsAt, partialPayload, Tables.lemmaBytes_length, Tables.blockBytes_length,
    Tables.recordBytes_length, List.replicate_add]
  rfl

theorem cursorsAt_end (final : Tables) :
    cursorsAt final final =
      { payload := final.payload
        lemmaCursor := final.lemmas.length * lemmaEntrySize
        blockCursor := final.lemmas.length * lemmaEntrySize +
          final.blocks.length * blockEntrySize
        recordCursor := final.lemmas.length * lemmaEntrySize +
          final.blocks.length * blockEntrySize + final.records.length * recordEntrySize
        stringCursor := final.lemmas.length * lemmaEntrySize +
          final.blocks.length * blockEntrySize + final.records.length * recordEntrySize +
          final.strings.length
        firstRecord := final.records.length } := by
  have hpay : partialPayload final final.lemmaBytes final.blockBytes final.recordBytes
      final.strings = final.payload := by
    simp only [partialPayload, fill_full]
    rfl
  simp only [cursorsAt, hpay, Tables.lemmaBytes_length, Tables.blockBytes_length,
    Tables.recordBytes_length]

/-- The limits under which an index can be written. -/
structure WithinLimits (blocks : List SourceBlock) : Prop where
  records : ∀ b ∈ blocks, b.records.length ≤ uint32Max
  groups : ∀ group ∈ groupBlocks blocks, group.2.length ≤ uint32Max
  payload : (tablesOf blocks).payload.length ≤ ptrdiffMax

/-- The writing of an index never faults, in particular no cursor leaves its table;
it succeeds exactly within the limits and then writes the tables. -/
theorem writeIndex_decides (index : SourceIndex) :
    Decides (writeIndex index) fun file => WithinLimits (preparedBlocks index) ∧
      file = fileOf (tablesOf (preparedBlocks index)) := by
  have hne : ∀ b ∈ preparedBlocks index, b.records ≠ [] := fun b hb => (mem_preparedBlocks hb).2
  unfold writeIndex
  generalize preparedBlocks index = blocks at hne ⊢
  have hsizes : measured none ⟨0, 0, 0⟩ blocks = ⟨(tablesOf blocks).lemmas.length,
      (tablesOf blocks).records.length, (tablesOf blocks).strings.length⟩ := by
    obtain ⟨h1, h2, h3, h4⟩ := tablesOf_lengths blocks
    simp [measured, h1, h3, h4]
  have hlim : WithinLimits blocks → (tablesOf blocks).lemmas.length * lemmaEntrySize +
      blocks.length * blockEntrySize + (tablesOf blocks).records.length * recordEntrySize +
      (tablesOf blocks).strings.length ≤ ptrdiffMax := fun h => by
    have := h.payload
    rwa [Tables.payload_length, Tables.lemmaBytes_length, Tables.blockBytes_length,
      Tables.recordBytes_length, (tablesOf_lengths blocks).2.1] at this
  have hcount := (tablesOf_lengths blocks).2.1
  have hrec : (tablesOf blocks).records.length ≤
      (tablesOf blocks).records.length * recordEntrySize :=
    Nat.le_mul_of_pos_right _ (by simp [recordEntrySize])
  have hmax : ptrdiffMax ≤ sizeMax := by simp [ptrdiffMax, sizeMax]
  refine Decides.value (measureBlocks_decides hne (by simp [Sizes.Keyed]) (by simp [Sizes.Fits]))
    (fun file h => ⟨h.1.records, ?_⟩) fun h1 => ?_
  · have := hlim h.1
    rw [hsizes]
    simp only [Sizes.Fits]
    omega
  rw [hsizes]
  dsimp only
  refine Decides.value (multiplySize_decides _ (by simp [lemmaEntrySize])) (fun r hr => ?_)
    fun h2 => ?_
  · have := hlim hr.1
    omega
  refine Decides.value (addSize_decides (by simp)) (fun r hr => by omega) fun h3 => ?_
  rw [Nat.zero_add] at h3 ⊢
  refine Decides.value (multiplySize_decides _ (by simp [blockEntrySize])) (fun r hr => ?_)
    fun h4 => ?_
  · have := hlim hr.1
    omega
  refine Decides.value (addSize_decides h3) (fun r hr => ?_) fun h5 => ?_
  · have := hlim hr.1
    omega
  refine Decides.value (multiplySize_decides _ (by simp [recordEntrySize])) (fun r hr => ?_)
    fun h6 => ?_
  · have := hlim hr.1
    omega
  refine Decides.value (addSize_decides h5) (fun r hr => ?_) fun h7 => ?_
  · have := hlim hr.1
    omega
  refine Decides.value (addSize_decides h7) (fun r hr => ?_) fun h8 => ?_
  · have := hlim hr.1
    omega
  refine Decides.check (fun r hr => hlim hr.1) fun h9 => ?_
  refine Decides.step (mul_eq_ok h2) (Decides.step (mul_eq_ok h4) ?_)
  refine Decides.step (add_eq_ok h5) (Decides.step (mul_eq_ok h6) ?_)
  refine Decides.step (add_eq_ok h7) ?_
  have hgroups : ∀ group ∈ groupBlocks blocks,
      group.2 ≠ [] ∧ ∀ source ∈ group.2, source.records ≠ [] := fun group hg =>
    ⟨(mem_groupBlocks hg).1, fun source hs => hne source (by
      rw [← groupBlocks_flatMap blocks]
      exact List.mem_flatMap_of_mem hg hs)⟩
  have hrun := writeGroups_decides (t := Tables.empty) hgroups
    (Tables.Extends.refl (tablesOf blocks)) (by
      rw [Tables.payload_length, Tables.lemmaBytes_length, Tables.blockBytes_length,
        Tables.recordBytes_length, hcount]
      exact h8)
  have hlayout : layoutOf (tablesOf blocks) = ⟨(tablesOf blocks).lemmas.length * lemmaEntrySize,
      (tablesOf blocks).lemmas.length * lemmaEntrySize + blocks.length * blockEntrySize +
        (tablesOf blocks).records.length * recordEntrySize⟩ := by
    simp [layoutOf, hcount, Tables.lemmaBytes_length, Tables.blockBytes_length,
      Tables.recordBytes_length]
  rw [hlayout, cursorsAt_start, hcount] at hrun
  refine Decides.value hrun (fun file h => h.1.groups) fun hg => ?_
  have hend : cursorsAt (tablesOf blocks) (Tables.empty.addGroups (groupBlocks blocks)) = _ :=
    cursorsAt_end (tablesOf blocks)
  rw [hend, hcount]
  refine Decides.check (fun _ _ => ⟨rfl, rfl, rfl, rfl⟩) fun _ => ?_
  dsimp only
  have hheader := writeHeader_eq (tablesOf blocks)
  rw [hcount] at hheader
  refine Decides.step hheader ?_
  have hwithin : WithinLimits blocks := ⟨h1.1, hg, by
    rwa [Tables.payload_length, Tables.lemmaBytes_length, Tables.blockBytes_length,
      Tables.recordBytes_length, hcount]⟩
  exact (Decides.ok _).congr fun file => by simp [hwithin, fileOf]

end Morpheus.GenerIndex
