import Morpheus.Contiguous
import Morpheus.GenerIndexReader
import Mathlib.Data.List.Chain

/-!
# What the reader accepts

The entries of an index as values, and the condition `Valid` that the validation
decides: it never faults, whatever the image, and it accepts exactly the images
whose header, tables and strings meet the condition.
-/
namespace Morpheus.GenerIndex
open Checked

structure LemmaEntry where
  key : Option Bytes
  firstBlock : ℕ
  count : ℕ
  reserved : ℕ

structure BlockEntry where
  firstRecord : ℕ
  count : ℕ
  reserved : ℕ

structure RecordEntry where
  kind : ℕ
  reserved : ℕ
  stem : Option Bytes
  keys : Option Bytes

namespace Index

def u32 (index : Index) (input : ℕ) : ℕ := leValue (slice index.file input 4)

def u64 (index : Index) (input : ℕ) : ℕ := leValue (slice index.file input 8)

/-- The bytes of the string table from an offset on. -/
def tail (index : Index) (offset : ℕ) : Bytes :=
  slice index.file (index.strings + offset) (index.stringSize - offset)

def string (index : Index) (offset : ℕ) : Option Bytes :=
  if offset ≥ index.stringSize then none
  else if 0 ∈ index.tail offset then some (cstr (index.tail offset)) else none

def lemmaAt (index : Index) (item : ℕ) : ℕ := index.lemmas + item * lemmaEntrySize

def blockAt (index : Index) (item : ℕ) : ℕ := index.blocks + item * blockEntrySize

def recordAt (index : Index) (item : ℕ) : ℕ := index.records + item * recordEntrySize

def lemmaEntry (index : Index) (item : ℕ) : LemmaEntry where
  key := index.string (index.u64 (index.lemmaAt item))
  firstBlock := index.u64 (index.lemmaAt item + 8)
  count := index.u32 (index.lemmaAt item + 16)
  reserved := index.u32 (index.lemmaAt item + 20)

def blockEntry (index : Index) (item : ℕ) : BlockEntry where
  firstRecord := index.u64 (index.blockAt item)
  count := index.u32 (index.blockAt item + 8)
  reserved := index.u32 (index.blockAt item + 12)

def recordEntry (index : Index) (item : ℕ) : RecordEntry where
  kind := index.u32 (index.recordAt item)
  reserved := index.u32 (index.recordAt item + 4)
  stem := index.string (index.u64 (index.recordAt item + 8))
  keys := index.string (index.u64 (index.recordAt item + 16))

def lemmaEntries (index : Index) : List LemmaEntry :=
  (List.range index.lemmaCount).map index.lemmaEntry

def blockEntries (index : Index) : List BlockEntry :=
  (List.range index.blockCount).map index.blockEntry

def recordEntries (index : Index) : List RecordEntry :=
  (List.range index.recordCount).map index.recordEntry

/-- The four tables lie end to end behind the header and fill the file. -/
structure Placed (index : Index) : Prop where
  lemmas : index.lemmas = headerSize
  blocks : index.blocks = index.lemmas + index.lemmaCount * lemmaEntrySize
  records : index.records = index.blocks + index.blockCount * blockEntrySize
  strings : index.strings = index.records + index.recordCount * recordEntrySize
  size : index.file.length = index.strings + index.stringSize
  fits : index.file.length ≤ sizeMax

end Index

/-- A string that is present and not empty. -/
def Present (s : Option Bytes) : Prop := s ≠ none ∧ s ≠ some []

instance (s : Option Bytes) : Decidable (Present s) :=
  inferInstanceAs (Decidable (_ ∧ _))

def LemmaEntry.Ok (entry : LemmaEntry) : Prop := Present entry.key ∧ entry.reserved = 0

def BlockEntry.Ok (entry : BlockEntry) : Prop := entry.reserved = 0

def RecordEntry.Ok (entry : RecordEntry) : Prop :=
  1 ≤ entry.kind ∧ entry.kind ≤ 5 ∧ entry.reserved = 0 ∧ Present entry.stem ∧ Present entry.keys

/-- The string table offsets, intervals and keys that the validation asks for. -/
structure Index.Valid (index : Index) : Prop where
  placed : index.Placed
  lemmas : ∀ entry ∈ index.lemmaEntries, entry.Ok
  blockIntervals : Contiguous 0 (index.lemmaEntries.map fun e => (e.firstBlock, e.count))
    index.blockCount
  keys : index.lemmaEntries.IsChain fun a b => strcmp (a.key.getD []) (b.key.getD []) < 0
  blocks : ∀ entry ∈ index.blockEntries, entry.Ok
  recordIntervals : Contiguous 0 (index.blockEntries.map fun e => (e.firstRecord, e.count))
    index.recordCount
  records : ∀ entry ∈ index.recordEntries, entry.Ok

theorem getU32_eq {object : Bytes} {input : ℕ} (h : input + 4 ≤ object.length) :
    getU32 object input = .ok (leValue (slice object input 4)) := by
  rw [getU32, read_eq_ok h]
  rfl

theorem getU64_eq {object : Bytes} {input : ℕ} (h : input + 8 ≤ object.length) :
    getU64 object input = .ok (leValue (slice object input 8)) := by
  rw [getU64, read_eq_ok h]
  rfl

theorem addSize_decides {total amount : ℕ} (h : total ≤ sizeMax) :
    Decides (addSize total amount) fun r => total + amount ≤ sizeMax ∧ r = total + amount := by
  refine Decides.step (sub_eq_ok h) (Decides.check (fun r hr => by omega) fun hp => ?_)
  rw [add_eq_ok (by omega)]
  exact (Decides.ok _).congr fun r => by simp; omega

theorem tableSize_decides {count entrySize : ℕ} (hc : count ≤ sizeMax) :
    Decides (tableSize count entrySize) fun r =>
      count * entrySize ≤ sizeMax ∧ r = count * entrySize := by
  have hfit : (count = 0 ∨ entrySize ≤ sizeMax / count) ↔ count * entrySize ≤ sizeMax := by
    rcases Nat.eq_zero_or_pos count with rfl | hpos
    · simp
    · rw [Nat.le_div_iff_mul_le hpos, mul_comm]
      simp [hpos.ne']
  refine Decides.check (fun _ _ => hc) fun _ =>
    Decides.check (fun _ hr => hfit.mpr hr.1) fun hp => ?_
  rw [mul_eq_ok (hfit.mp hp)]
  exact (Decides.ok _).congr fun r => by simp [hfit.mp hp]

/-- The header fields and the sizes that add up to the file, as one condition. -/
structure HeaderOk (file : Bytes) (index : Index) : Prop where
  header : headerSize ≤ file.length
  magic : slice file 0 8 = ascii "MORPHGEN"
  version : leValue (slice file 8 4) = formatVersion
  language : leValue (slice file 12 4) = languageGreek
  reserved : leValue (slice file 56 8) = 0
  lemmaCount : leValue (slice file 16 8) = index.lemmaCount
  blockCount : leValue (slice file 24 8) = index.blockCount
  recordCount : leValue (slice file 32 8) = index.recordCount
  stringSize : leValue (slice file 40 8) = index.stringSize
  hash : leValue (slice file 48 8) =
    (payloadHash (slice file headerSize (file.length - headerSize))).toNat
  file : index.file = file
  placed : index.Placed

/-- The sum of the table sizes, in the order in which the reader adds them up. -/
theorem HeaderOk.size {file : Bytes} {index : Index} (h : HeaderOk file index) :
    headerSize + leValue (slice file 16 8) * lemmaEntrySize +
        leValue (slice file 24 8) * blockEntrySize + leValue (slice file 32 8) * recordEntrySize +
        leValue (slice file 40 8) = file.length := by
  obtain ⟨p1, p2, p3, p4, p5, -⟩ := h.placed
  rw [h.lemmaCount, h.blockCount, h.recordCount, h.stringSize, ← h.file, p5, p4, p3, p2, p1]

theorem readHeader_decides (image : Image) :
    Decides (readHeader image) (HeaderOk image.bytes) := by
  have hmax := image.fits
  have hb : ∀ start, leValue (slice image.bytes start 8) ≤ sizeMax := fun start => by
    have := leValue_slice_lt image.bytes start 8
    simp only [sizeMax]
    omega
  refine Decides.check (fun _ h => h.header) fun h0 => ?_
  have h64 : headerSize = 64 := rfl
  refine Decides.check (fun _ h => h.magic) fun hmagic => ?_
  refine Decides.step (getU32_eq (by omega)) (Decides.check (fun _ h => h.version) fun hver => ?_)
  refine Decides.step (getU32_eq (by omega)) (Decides.check (fun _ h => h.language) fun hlang => ?_)
  refine Decides.step (getU64_eq (by omega)) (Decides.check (fun _ h => h.reserved) fun hres => ?_)
  refine Decides.step (getU64_eq (by omega)) (Decides.step (getU64_eq (by omega)) ?_)
  refine Decides.step (getU64_eq (by omega)) (Decides.step (getU64_eq (by omega)) ?_)
  refine Decides.check (fun _ _ => hb _) fun _ => ?_
  refine Decides.value (tableSize_decides (hb _)) (fun _ h => ?_) fun h1 => ?_
  · have := h.size
    omega
  refine Decides.value (tableSize_decides (hb _)) (fun _ h => ?_) fun h2 => ?_
  · have := h.size
    omega
  refine Decides.value (tableSize_decides (hb _)) (fun _ h => ?_) fun h3 => ?_
  · have := h.size
    omega
  refine Decides.value (addSize_decides (by simp [headerSize, sizeMax])) (fun _ h => ?_) fun h4 => ?_
  · have := h.size
    omega
  refine Decides.value (addSize_decides h4) (fun _ h => ?_) fun h5 => ?_
  · have := h.size
    omega
  refine Decides.value (addSize_decides h5) (fun _ h => ?_) fun h6 => ?_
  · have := h.size
    omega
  refine Decides.value (addSize_decides h6) (fun _ h => ?_) fun h7 => ?_
  · have := h.size
    omega
  refine Decides.check (fun _ h => h.size) fun hsize => ?_
  refine Decides.step (sub_eq_ok h0) (Decides.step (read_eq_ok (by omega)) ?_)
  refine Decides.step (getU64_eq (by omega)) (Decides.check (fun _ h => h.hash) fun hhash => ?_)
  refine (Decides.ok _).congr fun index => ⟨?_, fun h => ?_⟩
  · rintro rfl
    exact ⟨h0, hmagic, hver, hlang, hres, rfl, rfl, rfl, rfl, hhash, rfl,
      ⟨rfl, rfl, rfl, rfl, hsize.symm, hmax⟩⟩
  · obtain ⟨-, -, -, -, -, hl, hbl, hr, hs, -, hf, ⟨p1, p2, p3, p4, -, -⟩⟩ := h
    cases index
    simp_all

variable {index : Index}

theorem stringAt_eq (hp : index.Placed) (offset : ℕ) :
    stringAt index offset = .ok (index.string offset) := by
  obtain ⟨-, -, -, -, p5, -⟩ := hp
  unfold stringAt Index.string
  split
  · rfl
  · rw [sub_eq_ok (by omega), ok_bind, read_eq_ok (by omega)]
    rfl

theorem mul_entrySize {item count entrySize : ℕ} (hi : item < count)
    (hfit : count * entrySize ≤ sizeMax) :
    mul sizeMax item entrySize = .ok (item * entrySize) :=
  mul_eq_ok ((Nat.mul_le_mul_right _ hi.le).trans hfit)

namespace Index.Placed

/-- Every entry of a table lies inside the file, before the next table. -/
theorem lemma_inside (hp : index.Placed) {item : ℕ} (hi : item < index.lemmaCount) :
    index.lemmaAt item + lemmaEntrySize ≤ index.blocks ∧ index.blocks ≤ index.file.length := by
  obtain ⟨p1, p2, p3, p4, p5, -⟩ := hp
  have := Nat.mul_le_mul_right lemmaEntrySize (Nat.succ_le_of_lt hi)
  rw [Nat.succ_mul] at this
  unfold Index.lemmaAt
  omega

theorem block_inside (hp : index.Placed) {item : ℕ} (hi : item < index.blockCount) :
    index.blockAt item + blockEntrySize ≤ index.records ∧ index.records ≤ index.file.length := by
  obtain ⟨p1, p2, p3, p4, p5, -⟩ := hp
  have := Nat.mul_le_mul_right blockEntrySize (Nat.succ_le_of_lt hi)
  rw [Nat.succ_mul] at this
  unfold Index.blockAt
  omega

theorem record_inside (hp : index.Placed) {item : ℕ} (hi : item < index.recordCount) :
    index.recordAt item + recordEntrySize ≤ index.strings ∧
      index.strings ≤ index.file.length := by
  obtain ⟨p1, p2, p3, p4, p5, -⟩ := hp
  have := Nat.mul_le_mul_right recordEntrySize (Nat.succ_le_of_lt hi)
  rw [Nat.succ_mul] at this
  unfold Index.recordAt
  omega

theorem lemmaSize (hp : index.Placed) : index.lemmaCount * lemmaEntrySize ≤ sizeMax := by
  obtain ⟨p1, p2, p3, p4, p5, p6⟩ := hp
  omega

theorem blockSize (hp : index.Placed) : index.blockCount * blockEntrySize ≤ sizeMax := by
  obtain ⟨p1, p2, p3, p4, p5, p6⟩ := hp
  omega

theorem recordSize (hp : index.Placed) : index.recordCount * recordEntrySize ≤ sizeMax := by
  obtain ⟨p1, p2, p3, p4, p5, p6⟩ := hp
  omega

theorem blockCount_le (hp : index.Placed) : index.blockCount ≤ sizeMax :=
  (Nat.le_mul_of_pos_right _ (by norm_num [blockEntrySize])).trans hp.blockSize

theorem recordCount_le (hp : index.Placed) : index.recordCount ≤ sizeMax :=
  (Nat.le_mul_of_pos_right _ (by norm_num [recordEntrySize])).trans hp.recordSize

end Index.Placed

/-- The condition of one turn of the lemma loop. -/
structure LemmaTurn (index : Index) (item expectedBlock : ℕ) (previousKey : Option Bytes)
    (next : ℕ × Bytes) : Prop where
  key : (index.lemmaEntry item).key = some next.2
  ok : (index.lemmaEntry item).Ok
  first : (index.lemmaEntry item).firstBlock = expectedBlock
  pos : 0 < (index.lemmaEntry item).count
  sum : next.1 = expectedBlock + (index.lemmaEntry item).count
  inside : next.1 ≤ index.blockCount
  above : ∀ previous ∈ previousKey, strcmp previous next.2 < 0

theorem checkLemma_decides (hp : index.Placed) {item : ℕ} (hi : item < index.lemmaCount)
    (expectedBlock : ℕ) (previousKey : Option Bytes) :
    Decides (checkLemma index item expectedBlock previousKey)
      (LemmaTurn index item expectedBlock previousKey) := by
  have hin := hp.lemma_inside hi
  have hmax := hp.blockCount_le
  have h24 : lemmaEntrySize = 24 := rfl
  have hat : index.lemmaAt item = index.lemmas + item * lemmaEntrySize := rfl
  refine Decides.step (mul_entrySize hi hp.lemmaSize) ?_
  simp only [← hat]
  refine Decides.step (getU64_eq (by omega)) (Decides.step (stringAt_eq hp _) ?_)
  refine Decides.step (getU64_eq (by omega)) (Decides.step (getU32_eq (by omega)) ?_)
  refine Decides.step (getU32_eq (by omega)) ?_
  cases hstring : index.string (leValue (slice index.file (index.lemmaAt item) 8)) with
  | none =>
    have hkey : (index.lemmaEntry item).key = none := hstring
    exact Decides.rejected fun next h => by simp [h.key] at hkey
  | some key =>
    have hkey : (index.lemmaEntry item).key = some key := hstring
    have hk : ∀ {next}, LemmaTurn index item expectedBlock previousKey next → next.2 = key :=
      fun h => by simpa [hkey, eq_comm] using h.key
    refine Decides.check (fun next h => ?_) fun h1 => ?_
    · have hok := h.ok
      simp only [LemmaEntry.Ok, Present, hkey, ne_eq, Option.some.injEq] at hok
      exact ⟨hok.1.2, hok.2, h.pos.ne'⟩
    refine Decides.check (fun next h => ?_) fun h2 => ?_
    · exact ⟨h.first, by have := h.inside; have := h.sum; omega⟩
    refine Decides.step (sub_eq_ok h2.2) (Decides.check (fun next h => ?_) fun h3 => ?_)
    · have h4 := h.inside
      have h5 := h.sum
      change (index.lemmaEntry item).count ≤ _
      omega
    refine Decides.check (fun next h => by simpa [hk h] using h.above) fun h4 => ?_
    rw [add_eq_ok (by omega)]
    refine (Decides.ok _).congr fun next => ⟨?_, fun h => ?_⟩
    · rintro rfl
      refine ⟨hkey, ⟨⟨by simp [hkey], by simpa [hkey] using h1.1⟩, h1.2.1⟩, h2.1,
        Nat.pos_of_ne_zero h1.2.2, rfl, ?_, h4⟩
      dsimp only
      omega
    · exact Prod.ext h.sum (hk h)

/-- The keys ascend, from a key seen before on. -/
def Ascending (previousKey : Option Bytes) (entries : List LemmaEntry) : Prop :=
  (∀ previous ∈ previousKey, ∀ entry ∈ entries.head?, strcmp previous (entry.key.getD []) < 0) ∧
    entries.IsChain fun a b => strcmp (a.key.getD []) (b.key.getD []) < 0

theorem checkLemmas_decides (hp : index.Placed) {left item expectedBlock : ℕ}
    (hi : item + left = index.lemmaCount) (he : expectedBlock ≤ index.blockCount)
    (previousKey : Option Bytes) :
    Decides (checkLemmas index left item expectedBlock previousKey) fun next =>
      (∀ entry ∈ (List.range' item left).map index.lemmaEntry, entry.Ok) ∧
      Contiguous expectedBlock (((List.range' item left).map index.lemmaEntry).map
        fun e => (e.firstBlock, e.count)) next ∧
      Ascending previousKey ((List.range' item left).map index.lemmaEntry) ∧
      next ≤ index.blockCount := by
  induction left generalizing item expectedBlock previousKey with
  | zero =>
    refine (Decides.ok _).congr fun next => ?_
    constructor
    · rintro rfl
      simp [Ascending, he]
    · rintro ⟨-, h, -⟩
      exact h.symm
  | succ left ih =>
    refine (Decides.bind (checkLemma_decides hp (by omega) expectedBlock previousKey)
      fun next hn => ih (by omega) hn.inside _).congr fun stop => ?_
    rw [List.range'_succ]
    simp only [List.map_cons, List.mem_cons, forall_eq_or_imp, Contiguous.cons_iff]
    constructor
    · rintro ⟨next, hn, hok, hc, ha, hle⟩
      rw [hn.sum] at hc
      refine ⟨⟨hn.ok, hok⟩, ⟨hn.first, hn.pos, hc⟩, ⟨?_, ?_⟩, hle⟩
      · simpa [hn.key] using hn.above
      · refine List.isChain_cons.mpr ⟨?_, ha.2⟩
        simpa [hn.key] using ha.1
    · rintro ⟨⟨hok, hoks⟩, ⟨hf, hpos, hc⟩, ⟨hprev, hchain⟩, hle⟩
      obtain ⟨key, hkey⟩ := Option.ne_none_iff_exists'.mp hok.1.1
      obtain ⟨hhead, htail⟩ := List.isChain_cons.mp hchain
      refine ⟨(expectedBlock + (index.lemmaEntry item).count, key),
        ⟨hkey, hok, hf, hpos, rfl, hc.le.trans hle, ?_⟩, hoks, hc, ⟨?_, htail⟩, hle⟩
      · simpa [hkey] using hprev
      · simpa [hkey] using hhead

theorem checkBlock_decides (hp : index.Placed) {item : ℕ} (hi : item < index.blockCount)
    (expectedRecord : ℕ) :
    Decides (checkBlock index item expectedRecord) fun next =>
      ((index.blockEntry item).Ok ∧ (index.blockEntry item).firstRecord = expectedRecord ∧
        0 < (index.blockEntry item).count ∧
        expectedRecord + (index.blockEntry item).count ≤ index.recordCount) ∧
      next = expectedRecord + (index.blockEntry item).count := by
  have hin := hp.block_inside hi
  have hmax := hp.recordCount_le
  have h16 : blockEntrySize = 16 := rfl
  have hat : index.blockAt item = index.blocks + item * blockEntrySize := rfl
  have hc : leValue (slice index.file (index.blockAt item + 8) 4) =
    (index.blockEntry item).count := rfl
  refine Decides.step (mul_entrySize hi hp.blockSize) ?_
  simp only [← hat]
  refine Decides.step (getU64_eq (by omega)) (Decides.step (getU32_eq (by omega)) ?_)
  refine Decides.step (getU32_eq (by omega)) ?_
  refine Decides.check (fun next h => ⟨h.1.1, h.1.2.2.1.ne'⟩) fun h1 => ?_
  refine Decides.check (fun next h => ⟨h.1.2.1, by omega⟩) fun h2 => ?_
  refine Decides.step (sub_eq_ok h2.2) (Decides.check (fun next h => ?_) fun h3 => ?_)
  · have := h.1.2.2.2
    omega
  refine Decides.congr (P := (· = expectedRecord + (index.blockEntry item).count)) ?_ fun next => ?_
  · rw [add_eq_ok (by omega)]
    exact Decides.ok _
  · refine ⟨fun h => ⟨⟨h1.1, h2.1, Nat.pos_of_ne_zero h1.2, by omega⟩, h⟩, fun h => h.2⟩

theorem checkBlocks_decides (hp : index.Placed) {left item expectedRecord : ℕ}
    (hi : item + left = index.blockCount) (he : expectedRecord ≤ index.recordCount) :
    Decides (checkBlocks index left item expectedRecord) fun next =>
      (∀ entry ∈ (List.range' item left).map index.blockEntry, entry.Ok) ∧
      Contiguous expectedRecord (((List.range' item left).map index.blockEntry).map
        fun e => (e.firstRecord, e.count)) next ∧
      next ≤ index.recordCount := by
  induction left generalizing item expectedRecord with
  | zero =>
    refine (Decides.ok _).congr fun next => ?_
    constructor
    · rintro rfl
      simp [he]
    · rintro ⟨-, h, -⟩
      exact h.symm
  | succ left ih =>
    rw [List.range'_succ]
    simp only [List.map_cons, List.mem_cons, forall_eq_or_imp, Contiguous.cons_iff]
    refine Decides.value (checkBlock_decides hp (by omega) expectedRecord) (fun next h => ?_)
      fun h => (ih (by omega) h.2.2.2).congr fun next => ?_
    · exact ⟨h.1.1, h.2.1.1, h.2.1.2.1, h.2.1.2.2.le.trans h.2.2⟩
    · tauto

theorem checkRecord_decides (hp : index.Placed) {item : ℕ} (hi : item < index.recordCount) :
    Decides (checkRecord index item) fun _ => (index.recordEntry item).Ok := by
  have hin := hp.record_inside hi
  have h24 : recordEntrySize = 24 := rfl
  have hat : index.recordAt item = index.records + item * recordEntrySize := rfl
  refine Decides.step (mul_entrySize hi hp.recordSize) ?_
  simp only [← hat]
  refine Decides.step (getU32_eq (by omega)) (Decides.step (getU64_eq (by omega)) ?_)
  refine Decides.step (stringAt_eq hp _) (Decides.step (getU64_eq (by omega)) ?_)
  refine Decides.step (stringAt_eq hp _) (Decides.step (getU32_eq (by omega)) ?_)
  refine Decides.check (fun _ h => ⟨h.1, h.2.1, h.2.2.1⟩) fun h1 => ?_
  unfold require
  split
  · rename_i h2
    exact (Decides.ok _).congr fun u =>
      ⟨fun _ => ⟨h1.1, h1.2.1, h1.2.2, ⟨h2.1, h2.2.1⟩, h2.2.2.1, h2.2.2.2⟩, fun _ => rfl⟩
  · rename_i h2
    exact Decides.rejected fun _ h =>
      h2 ⟨h.2.2.2.1.1, h.2.2.2.1.2, h.2.2.2.2.1, h.2.2.2.2.2⟩

theorem checkRecords_decides (hp : index.Placed) {left item : ℕ}
    (hi : item + left = index.recordCount) :
    Decides (checkRecords index left item) fun _ =>
      ∀ entry ∈ (List.range' item left).map index.recordEntry, entry.Ok := by
  induction left generalizing item with
  | zero => exact (Decides.ok _).congr fun _ => by simp
  | succ left ih =>
    rw [List.range'_succ]
    simp only [List.map_cons, List.mem_cons, forall_eq_or_imp]
    refine Decides.value (a := ()) ((checkRecord_decides hp (by omega)).congr fun _ => by simp)
      (fun _ h => h.1) fun h => (ih (by omega)).congr fun _ => by tauto

/-- The validation never faults, and it accepts an image exactly when its header
is right and the index it describes is valid. -/
theorem validLayout_decides (image : Image) :
    Decides (validLayout image) fun index => HeaderOk image.bytes index ∧ index.Valid := by
  refine (Decides.bind (readHeader_decides image) (Q := fun index result =>
    index = result ∧ index.Valid) fun index hh => ?_).congr fun index => by
      constructor
      · rintro ⟨_, hh, rfl, hv⟩
        exact ⟨hh, hv⟩
      · rintro ⟨hh, hv⟩
        exact ⟨index, hh, rfl, hv⟩
  have hp := hh.placed
  have hlemmas := checkLemmas_decides hp (Nat.zero_add _) (Nat.zero_le _) none
  have hblocks := checkBlocks_decides hp (Nat.zero_add _) (Nat.zero_le _)
  have hrecords := checkRecords_decides hp (Nat.zero_add _)
  simp only [← List.range_eq_range'] at hlemmas hblocks hrecords
  change Decides _ fun next => (∀ entry ∈ index.lemmaEntries, entry.Ok) ∧ _ at hlemmas
  change Decides _ fun next => (∀ entry ∈ index.blockEntries, entry.Ok) ∧ _ at hblocks
  change Decides _ fun _ => ∀ entry ∈ index.recordEntries, entry.Ok at hrecords
  refine (hlemmas.bind (Q := fun next result => next = index.blockCount ∧ index = result ∧
    index.Valid) fun next hl => Decides.check (fun _ h => h.1) fun h1 => ?_).congr
      fun result => ?_
  · subst h1
    refine (hblocks.bind (Q := fun next result => next = index.recordCount ∧ index = result ∧
      index.Valid) fun next hb => Decides.check (fun _ h => h.1) fun h2 => ?_).congr
        fun result => ?_
    · subst h2
      refine Decides.value (a := ()) (hrecords.congr fun _ => by simp)
        (fun _ h => h.2.2.records) fun hr => (Decides.ok index).congr fun result => ?_
      have hv : index.Valid := ⟨hp, hl.1, hl.2.1, hl.2.2.1.2, hb.1, hb.2.1, hr⟩
      simp [hv, eq_comm]
    · constructor
      · rintro ⟨next, -, -, h, hv⟩
        exact ⟨rfl, h, hv⟩
      · rintro ⟨-, h, hv⟩
        exact ⟨_, ⟨hv.blocks, hv.recordIntervals, le_rfl⟩, rfl, h, hv⟩
  · constructor
    · rintro ⟨next, -, -, h, hv⟩
      exact ⟨h, hv⟩
    · rintro ⟨h, hv⟩
      refine ⟨_, ⟨hv.lemmas, hv.blockIntervals, ⟨by simp, hv.keys⟩, le_rfl⟩, rfl, h, hv⟩

end Morpheus.GenerIndex
