import Morpheus.GenerIndexWriter
import Morpheus.GenerIndexSound

/-!
# Reading the writer's tables back

The rows of written tables, decoded against their own string table, are the
records, blocks and lemmas they were made from; and the reader's entries of the
written file are the decoded rows.
-/
namespace Morpheus.GenerIndex
open Checked

/-- The string at an offset of a string table. -/
def stringIn (strings : Bytes) (offset : ℕ) : Option Bytes :=
  if offset ≥ strings.length then none
  else if 0 ∈ strings.drop offset then some (cstr (strings.drop offset)) else none

theorem stringIn_of_written {before s strings : Bytes} (hs : NulFree s)
    (h : before ++ (s ++ [0]) <+: strings) : stringIn strings before.length = some s := by
  obtain ⟨rest, rfl⟩ := h
  have hdrop : (before ++ (s ++ [0]) ++ rest).drop before.length = s ++ 0 :: rest := by simp
  rw [stringIn, hdrop, if_neg (by simp), if_pos (by simp), cstr_append_nul hs]

theorem lt_of_stringIn {strings s : Bytes} {offset : ℕ} (h : stringIn strings offset = some s) :
    offset < strings.length := by
  by_contra hge
  simp [stringIn, not_lt.mp hge] at h

def SourceRecord.view (record : SourceRecord) : RecordView :=
  ⟨record.kind.code, some record.stem, some record.keys⟩

def BlockRow.interval (row : BlockRow) : ℕ × ℕ := (row.firstRecord, row.count)

def LemmaRow.interval (row : LemmaRow) : ℕ × ℕ := (row.firstBlock, row.count)

namespace Tables

def view (t : Tables) (row : RecordRow) : RecordView :=
  ⟨row.kind.code, stringIn t.strings row.stemOffset, stringIn t.strings row.keysOffset⟩

def keyOf (t : Tables) (row : LemmaRow) : Option Bytes := stringIn t.strings row.keyOffset

variable {final : Tables}

theorem view_addRecord {t : Tables} {item : SourceRecord}
    (h : (t.addRecord item).strings <+: final.strings) :
    (t.addRecord item).records.map final.view = t.records.map final.view ++ [item.view] := by
  have hstem := stringIn_of_written item.stem_ok.2 ((List.prefix_append ..).trans h)
  have hkeys := stringIn_of_written item.keys_ok.2 h
  simp only [List.length_append, List.length_singleton] at hkeys
  simp [addRecord, view, SourceRecord.view, hstem, hkeys]

theorem view_foldl_addRecord {t : Tables} {records : List SourceRecord}
    (h : (records.foldl addRecord t).Extends final) :
    (records.foldl addRecord t).records.map final.view =
      t.records.map final.view ++ records.map SourceRecord.view := by
  induction records generalizing t with
  | nil => simp
  | cons record records ih =>
    have hstep := (Extends.foldl extends_addRecord (t.addRecord record) records).trans h
    rw [List.foldl_cons, ih h, view_addRecord hstep.strings]
    simp

theorem foldl_addBlock_view {t : Tables} {blocks : List SourceBlock}
    (h : (blocks.foldl addBlock t).Extends final) :
    (blocks.foldl addBlock t).records.map final.view =
        t.records.map final.view ++ (blockRecordsOf blocks).map SourceRecord.view ∧
    (blocks.foldl addBlock t).blocks.map BlockRow.interval =
      t.blocks.map BlockRow.interval ++
        intervals t.records.length (blocks.map fun b => b.records.length) := by
  induction blocks generalizing t with
  | nil => simp [blockRecordsOf, intervals]
  | cons block blocks ih =>
    have hstep := (Extends.foldl extends_addBlock (t.addBlock block) blocks).trans h
    obtain ⟨h1, h2⟩ := ih h
    obtain ⟨-, hb, hlen, -⟩ := foldl_addRecord (t.openBlock block) block.records
    have hview := view_foldl_addRecord (t := t.openBlock block) hstep
    rw [List.foldl_cons, h1, h2]
    simp only [addBlock, hview, hb, hlen]
    simp [openBlock, blockRecordsOf, BlockRow.interval, intervals]

theorem addGroups_view {t : Tables} {groups : List (Bytes × List SourceBlock)}
    (hg : ∀ group ∈ groups, NulFree group.1) (h : (t.addGroups groups).Extends final) :
    (t.addGroups groups).records.map final.view = t.records.map final.view ++
        (blockRecordsOf (groups.flatMap (·.2))).map SourceRecord.view ∧
    (t.addGroups groups).blocks.map BlockRow.interval = t.blocks.map BlockRow.interval ++
        intervals t.records.length ((groups.flatMap (·.2)).map fun b => b.records.length) ∧
    (t.addGroups groups).lemmas.map final.keyOf =
        t.lemmas.map final.keyOf ++ groups.map (fun group => some group.1) ∧
    (t.addGroups groups).lemmas.map LemmaRow.interval = t.lemmas.map LemmaRow.interval ++
        intervals t.blocks.length (groups.map fun group => group.2.length) := by
  induction groups generalizing t with
  | nil => simp [addGroups, blockRecordsOf, intervals]
  | cons group groups ih =>
    have hstep := (Extends.foldl extends_addGroup (t.addGroup group) groups).trans h
    have hopen := (Extends.foldl extends_addBlock (t.openGroup group) group.2).trans hstep
    obtain ⟨h1, h2, h3, h4⟩ := ih (t := t.addGroup group) (fun g hmem => hg g (by simp [hmem])) h
    obtain ⟨hl, hbl, hrl, -⟩ := foldl_addBlock (t.openGroup group) group.2
    obtain ⟨hv, hbi⟩ := foldl_addBlock_view (t := t.openGroup group) hstep
    have hkey := stringIn_of_written (hg group (by simp)) hopen.strings
    have hcons : t.addGroups (group :: groups) = (t.addGroup group).addGroups groups := rfl
    rw [hcons, h1, h2, h3, h4]
    simp only [addGroup, hv, hbi, hl, hbl, hrl]
    refine ⟨?_, ?_, ?_, ?_⟩
    · simp [openGroup, blockRecordsOf]
    · rw [List.flatMap_cons, List.map_append, intervals_append, List.append_assoc]
      simp [openGroup, blockRecordsOf, List.length_flatMap]
    · simp [openGroup, keyOf, hkey]
    · simp [openGroup, LemmaRow.interval, intervals]

end Tables

/-- The index that the reader makes of a file with the given tables. -/
def indexOf (t : Tables) : Index where
  file := fileOf t
  lemmas := headerSize
  blocks := headerSize + t.lemmas.length * lemmaEntrySize
  records := headerSize + t.lemmas.length * lemmaEntrySize + t.blocks.length * blockEntrySize
  strings := headerSize + t.lemmas.length * lemmaEntrySize + t.blocks.length * blockEntrySize +
    t.records.length * recordEntrySize
  stringSize := t.strings.length
  lemmaCount := t.lemmas.length
  blockCount := t.blocks.length
  recordCount := t.records.length

section
variable {t : Tables}

theorem fileOf_length (t : Tables) : (fileOf t).length = headerSize + t.payload.length := by
  simp [fileOf, headerOf_length]

theorem indexOf_placed (h : t.payload.length ≤ ptrdiffMax) : (indexOf t).Placed := by
  have hpay := t.payload_length
  rw [Tables.lemmaBytes_length, Tables.blockBytes_length, Tables.recordBytes_length] at hpay
  refine ⟨rfl, rfl, rfl, rfl, ?_, ?_⟩
  · simp only [indexOf, fileOf_length, hpay]
    omega
  · have h64 : headerSize = 64 := rfl
    simp only [indexOf, fileOf_length, sizeMax, ptrdiffMax] at h ⊢
    omega

theorem succ_mul_le {i count size : ℕ} (hi : i < count) : i * size + size ≤ count * size := by
  rw [← Nat.succ_mul]
  exact Nat.mul_le_mul_right size hi

theorem slice_lemmaRow {i : ℕ} (hi : i < t.lemmas.length) :
    slice (fileOf t) ((indexOf t).lemmaAt i) lemmaEntrySize = t.lemmas[i].bytes := by
  have hfile : fileOf t =
      headerOf t ++ t.lemmaBytes ++ (t.blockBytes ++ t.recordBytes ++ t.strings) := by
    simp [fileOf, Tables.payload]
  rw [hfile, slice_section _ _ _ (i := i * lemmaEntrySize), Tables.lemmaBytes,
    slice_flatMap (fun _ _ => LemmaRow.bytes_length _) hi]
  · rw [headerOf_length]
    rfl
  · rw [Tables.lemmaBytes_length]
    exact succ_mul_le hi

theorem slice_blockRow {i : ℕ} (hi : i < t.blocks.length) :
    slice (fileOf t) ((indexOf t).blockAt i) blockEntrySize = t.blocks[i].bytes := by
  have hfile : fileOf t =
      headerOf t ++ t.lemmaBytes ++ t.blockBytes ++ (t.recordBytes ++ t.strings) := by
    simp [fileOf, Tables.payload]
  rw [hfile, slice_section _ _ _ (i := i * blockEntrySize), Tables.blockBytes,
    slice_flatMap (fun _ _ => BlockRow.bytes_length _) hi]
  · rw [List.length_append, headerOf_length, Tables.lemmaBytes_length]
    rfl
  · rw [Tables.blockBytes_length]
    exact succ_mul_le hi

theorem slice_recordRow {i : ℕ} (hi : i < t.records.length) :
    slice (fileOf t) ((indexOf t).recordAt i) recordEntrySize = t.records[i].bytes := by
  have hfile : fileOf t =
      headerOf t ++ t.lemmaBytes ++ t.blockBytes ++ t.recordBytes ++ t.strings := by
    simp [fileOf, Tables.payload]
  rw [hfile, slice_section _ _ _ (i := i * recordEntrySize), Tables.recordBytes,
    slice_flatMap (fun _ _ => RecordRow.bytes_length _) hi]
  · rw [List.length_append, List.length_append, headerOf_length, Tables.lemmaBytes_length,
      Tables.blockBytes_length]
    rfl
  · rw [Tables.recordBytes_length]
    exact succ_mul_le hi

theorem indexOf_string (offset : ℕ) :
    (indexOf t).string offset = stringIn t.strings offset := by
  have htail : offset < t.strings.length →
      (indexOf t).tail offset = t.strings.drop offset := fun h => by
    have hfile : fileOf t =
        headerOf t ++ t.lemmaBytes ++ t.blockBytes ++ t.recordBytes ++ t.strings ++ [] := by
      simp [fileOf, Tables.payload]
    have hat : (indexOf t).strings + offset = (headerOf t ++ t.lemmaBytes ++ t.blockBytes ++
        t.recordBytes).length + offset := by
      simp only [List.length_append, headerOf_length, Tables.lemmaBytes_length,
        Tables.blockBytes_length, Tables.recordBytes_length]
      rfl
    have hs := slice_section _ t.strings [] (n := t.strings.length - offset) hat (by omega)
    rw [← hfile] at hs
    refine hs.trans ?_
    rw [slice, List.take_of_length_le (by simp)]
  unfold Index.string stringIn
  change (if offset ≥ t.strings.length then none else _) = _
  split
  · rfl
  · rename_i h
    rw [htail (by omega)]

/-- A field of an entry, when the entry's bytes are known and hold the field's bytes. -/
theorem field_eq (before : Bytes) {bs row a : Bytes} {start size w value : ℕ}
    (hrow : slice bs start size = row) (hsize : row.length = size)
    (hparts : row = before ++ leBytes w value ++ a) (hvalue : value < 256 ^ w) :
    leValue (slice bs (start + before.length) w) = value := by
  have hlen : before.length + w ≤ size := by
    rw [← hsize, hparts]
    simp
  rw [slice_of_slice hrow hlen, hparts, slice_part _ _ _ rfl (by simp),
    leValue_leBytes_of_lt hvalue]

theorem indexOf_lemmaEntry {i : ℕ} (hi : i < t.lemmas.length)
    (hkey : t.lemmas[i].keyOffset < 2 ^ 64) (hfirst : t.lemmas[i].firstBlock < 2 ^ 64)
    (hcount : t.lemmas[i].count < 2 ^ 32) :
    (indexOf t).lemmaEntry i =
      ⟨t.keyOf t.lemmas[i], t.lemmas[i].firstBlock, t.lemmas[i].count, 0⟩ := by
  have hrow := slice_lemmaRow hi
  generalize t.lemmas[i] = row at *
  have h0 : (indexOf t).u64 ((indexOf t).lemmaAt i) = row.keyOffset :=
    field_eq [] hrow row.bytes_length (by simp [LemmaRow.bytes]; rfl) hkey
  have h8 : (indexOf t).u64 ((indexOf t).lemmaAt i + 8) = row.firstBlock :=
    field_eq (leBytes 8 row.keyOffset) hrow row.bytes_length
      (by simp [LemmaRow.bytes]; rfl) hfirst
  have h16 : (indexOf t).u32 ((indexOf t).lemmaAt i + 16) = row.count :=
    field_eq (leBytes 8 row.keyOffset ++ leBytes 8 row.firstBlock) hrow row.bytes_length
      (by simp [LemmaRow.bytes]; rfl) hcount
  have h20 : (indexOf t).u32 ((indexOf t).lemmaAt i + 20) = 0 :=
    field_eq (leBytes 8 row.keyOffset ++ leBytes 8 row.firstBlock ++ leBytes 4 row.count)
      (a := []) hrow row.bytes_length (by simp [LemmaRow.bytes]) (by norm_num)
  rw [Index.lemmaEntry, h0, h8, h16, h20, indexOf_string, Tables.keyOf]

theorem indexOf_blockEntry {i : ℕ} (hi : i < t.blocks.length)
    (hfirst : t.blocks[i].firstRecord < 2 ^ 64) (hcount : t.blocks[i].count < 2 ^ 32) :
    (indexOf t).blockEntry i = ⟨t.blocks[i].firstRecord, t.blocks[i].count, 0⟩ := by
  have hrow := slice_blockRow hi
  generalize t.blocks[i] = row at *
  have h0 : (indexOf t).u64 ((indexOf t).blockAt i) = row.firstRecord :=
    field_eq [] hrow row.bytes_length (by simp [BlockRow.bytes]; rfl) hfirst
  have h8 : (indexOf t).u32 ((indexOf t).blockAt i + 8) = row.count :=
    field_eq (leBytes 8 row.firstRecord) hrow row.bytes_length
      (by simp [BlockRow.bytes]; rfl) hcount
  have h12 : (indexOf t).u32 ((indexOf t).blockAt i + 12) = 0 :=
    field_eq (leBytes 8 row.firstRecord ++ leBytes 4 row.count) (a := []) hrow
      row.bytes_length (by simp [BlockRow.bytes]) (by norm_num)
  rw [Index.blockEntry, h0, h8, h12]

theorem indexOf_recordEntry {i : ℕ} (hi : i < t.records.length)
    (hstem : t.records[i].stemOffset < 2 ^ 64) (hkeys : t.records[i].keysOffset < 2 ^ 64) :
    (indexOf t).recordEntry i = ⟨t.records[i].kind.code, 0,
      stringIn t.strings t.records[i].stemOffset, stringIn t.strings t.records[i].keysOffset⟩ := by
  have hrow := slice_recordRow hi
  generalize t.records[i] = row at *
  have hcode : row.kind.code < 256 ^ 4 := by cases row.kind <;> simp [RecordKind.code]
  have h0 : (indexOf t).u32 ((indexOf t).recordAt i) = row.kind.code :=
    field_eq [] hrow row.bytes_length (by simp [RecordRow.bytes]; rfl) hcode
  have h4 : (indexOf t).u32 ((indexOf t).recordAt i + 4) = 0 :=
    field_eq (leBytes 4 row.kind.code) hrow row.bytes_length
      (by simp [RecordRow.bytes]; rfl) (by norm_num)
  have h8 : (indexOf t).u64 ((indexOf t).recordAt i + 8) = row.stemOffset :=
    field_eq (leBytes 4 row.kind.code ++ leBytes 4 0) hrow row.bytes_length
      (by simp [RecordRow.bytes]; rfl) hstem
  have h16 : (indexOf t).u64 ((indexOf t).recordAt i + 16) = row.keysOffset :=
    field_eq (leBytes 4 row.kind.code ++ leBytes 4 0 ++ leBytes 8 row.stemOffset) (a := [])
      hrow row.bytes_length (by simp [RecordRow.bytes]) hkeys
  rw [Index.recordEntry, h0, h4, h8, h16, indexOf_string, indexOf_string]

/-- The counts of tables that fit an allocation fit their header fields. -/
theorem counts_lt (h : t.payload.length ≤ ptrdiffMax) :
    t.lemmas.length < 256 ^ 8 ∧ t.blocks.length < 256 ^ 8 ∧ t.records.length < 256 ^ 8 ∧
      t.strings.length < 256 ^ 8 := by
  have hpay := t.payload_length
  rw [Tables.lemmaBytes_length, Tables.blockBytes_length, Tables.recordBytes_length] at hpay
  have h24 : lemmaEntrySize = 24 := rfl
  have h16 : blockEntrySize = 16 := rfl
  have h24' : recordEntrySize = 24 := rfl
  have h63 : ptrdiffMax = 2 ^ 63 - 1 := rfl
  rw [h24, h16, h24'] at hpay
  omega

theorem headerOk_indexOf (h : t.payload.length ≤ ptrdiffMax) :
    HeaderOk (fileOf t) (indexOf t) := by
  have hlen := headerOf_length t
  have h64 : headerSize = 64 := rfl
  obtain ⟨hl, hb, hr, hs⟩ := counts_lt h
  have hmagic : (ascii "MORPHGEN").length = 8 := rfl
  have hrow : slice (fileOf t) 0 headerSize = headerOf t :=
    slice_part [] (headerOf t) t.payload rfl hlen.symm
  have hhash : (payloadHash t.payload).toNat < 256 ^ 8 := UInt64.toNat_lt _
  have hpayload : slice (fileOf t) headerSize ((fileOf t).length - headerSize) = t.payload := by
    have hfile : fileOf t = headerOf t ++ t.payload ++ [] := by simp [fileOf]
    rw [hfile, slice_part _ _ _ hlen.symm]
    simp [hlen]
  have hmagic' : slice (fileOf t) (0 + 0) 8 = ascii "MORPHGEN" := by
    rw [slice_of_slice hrow (by omega)]
    exact slice_part [] (ascii "MORPHGEN") _ rfl hmagic.symm
  exact
    { header := by rw [fileOf_length]; omega
      magic := hmagic'
      version := field_eq (ascii "MORPHGEN") hrow hlen (by simp [headerOf]; rfl) (by decide)
      language := field_eq (ascii "MORPHGEN" ++ leBytes 4 formatVersion) hrow hlen
        (by simp [headerOf]; rfl) (by decide)
      reserved := field_eq (ascii "MORPHGEN" ++ leBytes 4 formatVersion ++ leBytes 4 languageGreek ++
        leBytes 8 t.lemmas.length ++ leBytes 8 t.blocks.length ++ leBytes 8 t.records.length ++
        leBytes 8 t.strings.length ++ leBytes 8 (payloadHash t.payload).toNat) (a := []) hrow hlen
        (by simp [headerOf]) (by decide)
      lemmaCount := field_eq (ascii "MORPHGEN" ++ leBytes 4 formatVersion ++
        leBytes 4 languageGreek) hrow hlen (by simp [headerOf]; rfl) hl
      blockCount := field_eq (ascii "MORPHGEN" ++ leBytes 4 formatVersion ++
        leBytes 4 languageGreek ++ leBytes 8 t.lemmas.length) hrow hlen
        (by simp [headerOf]; rfl) hb
      recordCount := field_eq (ascii "MORPHGEN" ++ leBytes 4 formatVersion ++
        leBytes 4 languageGreek ++ leBytes 8 t.lemmas.length ++ leBytes 8 t.blocks.length) hrow hlen
        (by simp [headerOf]; rfl) hr
      stringSize := field_eq (ascii "MORPHGEN" ++ leBytes 4 formatVersion ++
        leBytes 4 languageGreek ++ leBytes 8 t.lemmas.length ++ leBytes 8 t.blocks.length ++
        leBytes 8 t.records.length) hrow hlen (by simp [headerOf]; rfl) hs
      hash := by
        rw [hpayload]
        exact field_eq (ascii "MORPHGEN" ++ leBytes 4 formatVersion ++
          leBytes 4 languageGreek ++ leBytes 8 t.lemmas.length ++ leBytes 8 t.blocks.length ++
          leBytes 8 t.records.length ++ leBytes 8 t.strings.length) hrow hlen
          (by simp [headerOf]; rfl) hhash
      file := rfl
      placed := indexOf_placed h }

end

end Morpheus.GenerIndex
