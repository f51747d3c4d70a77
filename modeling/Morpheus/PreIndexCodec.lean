import Morpheus.PreIndex

/-!
# The pre-index in memory

`init_preind` reads the records that `WriteKey` has written through one buffer, in requests of at
most `INT_MAX` bytes, and copies the keys into entries that `calloc` has cleared.
-/
namespace Morpheus

section Load

/-- `endtags` as it stands in memory. -/
structure EndTagEntry where
  tagstring : Bytes
  tagoffset : UInt32
  deriving DecidableEq

def EndTagEntry.cleared : EndTagEntry := ⟨List.replicate (keyLen + 1) 0, 0⟩

/-- The entry as the lookup sees it. -/
def EndTagEntry.endTag (entry : EndTagEntry) : EndTag := ⟨cstr entry.tagstring, entry.tagoffset⟩

/-- The loop that reads the records, `none` on a short read. -/
def readRecords (size : ℕ) (f : Bytes) : Option Bytes :=
  if _ : size = 0 then some []
  else
    let nread := f.take (min size intMax)
    if nread.length ≠ min size intMax then none
    else (readRecords (size - min size intMax) (f.drop (min size intMax))).map (nread ++ ·)
termination_by size
decreasing_by
  have hpos : 0 < intMax := by decide
  omega

/-- `memcpy` of the key and the offset from its bytes. -/
def EndTagEntry.read (entry : EndTagEntry) (record : Bytes) : EndTagEntry :=
  { tagstring := record.take keyLen ++ entry.tagstring.drop keyLen
    tagoffset := recordOffset 0 (record.drop keyLen) 0 }

/-- `init_preind` on the contents of the file: the entries, with a cleared one behind them, and
their number. The test against `SIZE_MAX` does not fail where the one against `INT_MAX` has not. -/
def loadPreind (file : Bytes) : Option (List EndTagEntry × ℕ) :=
  let recordCount := file.length / preRecordSize
  if file.length % preRecordSize ≠ 0 then none
  else if recordCount > intMax then none
  else (readRecords (recordCount * preRecordSize) file).map fun records =>
    ((List.range recordCount).map (fun i =>
      EndTagEntry.cleared.read (slice records (i * preRecordSize) preRecordSize)) ++ [.cleared], recordCount)

/-- What the file holds is read whole, in however many requests. -/
theorem readRecords_eq {size : ℕ} {f : Bytes} (h : size ≤ f.length) :
    readRecords size f = some (f.take size) := by
  induction size using Nat.strongRec generalizing f with
  | ind size ih =>
    rw [readRecords]
    by_cases hzero : size = 0
    · rw [dif_pos hzero, hzero, List.take_zero]
    · have hpos : 0 < intMax := by decide
      have hread : (f.take (min size intMax)).length = min size intMax := by
        rw [List.length_take]
        omega
      have hrest : size - min size intMax ≤ (f.drop (min size intMax)).length := by
        rw [List.length_drop]
        omega
      have hsum : min size intMax + (size - min size intMax) = size := by omega
      dsimp only
      rw [dif_neg hzero, if_neg (not_not.mpr hread), ih (size - min size intMax) (by omega) hrest,
        Option.map_some, ← List.take_add, hsum]

/-- A NUL behind a text does not change the string in it. -/
theorem cstr_append_zero (bs : Bytes) : cstr (bs ++ [0]) = cstr bs := by
  induction bs with
  | nil => rfl
  | cons c bs ih =>
    unfold cstr at ih ⊢
    rw [List.cons_append, List.takeWhile_cons, List.takeWhile_cons, ih]

theorem EndTagEntry.read_cleared (record : Bytes) :
    EndTagEntry.cleared.read record = ⟨record.take keyLen ++ [0], recordOffset 0 (record.drop keyLen) 0⟩ := rfl

/-- The entries of a file of whole records, unless they are too many. -/
theorem loadPreind_eq {file : Bytes} (hsize : file.length % preRecordSize = 0)
    (hcount : file.length / preRecordSize ≤ intMax) :
    loadPreind file = some ((List.range (file.length / preRecordSize)).map (fun i =>
      EndTagEntry.cleared.read (slice file (i * preRecordSize) preRecordSize)) ++ [.cleared],
        file.length / preRecordSize) := by
  have hwhole : file.length / preRecordSize * preRecordSize = file.length :=
    Nat.div_mul_cancel (Nat.dvd_of_mod_eq_zero hsize)
  unfold loadPreind
  dsimp only
  rw [if_neg (not_not.mpr hsize), if_neg (Nat.not_lt.mpr hcount), hwhole, readRecords_eq (Nat.le_refl _),
    List.take_length]
  rfl

/-- The entries are those that the lookup is given. -/
theorem loadPreind_initPreind (file : Bytes) : initPreind file =
    (loadPreind file).map fun loaded => (loaded.1.take loaded.2).map EndTagEntry.endTag := by
  by_cases hsize : file.length % preRecordSize = 0
  · by_cases hcount : file.length / preRecordSize ≤ intMax
    · rw [loadPreind_eq hsize hcount, initPreind, if_neg (not_not.mpr hsize), if_neg (Nat.not_lt.mpr hcount),
        Option.map_some, List.take_left' (by simp), List.map_map]
      congr 1
      refine List.map_congr_left fun i _ => ?_
      rw [Function.comp_apply, EndTagEntry.read_cleared, EndTagEntry.endTag, cstr_append_zero]
    · have hlarge := Nat.lt_of_not_le hcount
      rw [initPreind, loadPreind, if_neg (not_not.mpr hsize), if_pos hlarge, if_neg (not_not.mpr hsize),
        if_pos hlarge]
      rfl
  · rw [initPreind, loadPreind, if_pos hsize, if_pos hsize]
    rfl

end Load

section Codec

/-- A key of at most `KEYLEN` bytes and the offset of its text. -/
structure KeyOffset where
  key : Bytes
  offset : UInt32
  nulFree : NulFree key
  length_le : key.length ≤ keyLen

/-- What `WriteKey` is given, the key padded with NULs. -/
def KeyOffset.record (pair : KeyOffset) : PreRecord := ⟨fill pair.key keyLen, pair.offset⟩

/-- The pair in an entry, with the NUL behind the key and those that pad it. -/
def KeyOffset.entry (pair : KeyOffset) : EndTagEntry :=
  ⟨pair.key ++ 0 :: List.replicate (keyLen - pair.key.length) 0, pair.offset⟩

/-- The lookup sees the key and the offset. -/
theorem KeyOffset.entry_endTag (pair : KeyOffset) : pair.entry.endTag = ⟨pair.key, pair.offset⟩ := by
  rw [EndTagEntry.endTag, entry, cstr_append_nul pair.nulFree]

/-- The file that `WriteKey` writes. -/
def writtenKeys (pairs : List KeyOffset) : Bytes := pairs.flatMap fun pair => writeKey pair.record

theorem KeyOffset.record_length (pair : KeyOffset) : (writeKey pair.record).length = preRecordSize :=
  writeKey_length (fill_length pair.length_le).ge

/-- The offset comes back from its bytes, and the key in front of the NUL that was there. -/
theorem KeyOffset.read_record (pair : KeyOffset) :
    EndTagEntry.cleared.read (writeKey pair.record) = pair.entry := by
  have hlength : (fill pair.key keyLen).length = keyLen := fill_length pair.length_le
  have hwritten : writeKey pair.record = fill pair.key keyLen ++ putInt32 pair.offset := by
    rw [writeKey, KeyOffset.record, List.take_of_length_le hlength.le]
  have hpadded :
      fill pair.key keyLen ++ [0] = pair.key ++ 0 :: List.replicate (keyLen - pair.key.length) 0 := by
    rw [fill, List.append_assoc, ← List.replicate_succ', List.replicate_succ]
  rw [EndTagEntry.read_cleared, hwritten, List.take_left' hlength, List.drop_left' hlength, hpadded, putInt32,
    recordOffset_putBytes, gather_int32]
  rfl

theorem writtenKeys_length (pairs : List KeyOffset) :
    (writtenKeys pairs).length = pairs.length * preRecordSize :=
  flatMap_length fun pair _ => pair.record_length

theorem loadPreind_large {pairs : List KeyOffset} (h : intMax < pairs.length) :
    loadPreind (writtenKeys pairs) = none := by
  have hpos : 0 < preRecordSize := by decide
  unfold loadPreind
  dsimp only
  rw [writtenKeys_length, Nat.mul_mod_left, Nat.mul_div_left _ hpos, if_neg (by simp), if_pos h]

/-- What `WriteKey` has written comes back from `init_preind`, the keys each with their NUL, and the
number of them. A file of more than `INT_MAX` records is refused. -/
theorem loadPreind_writtenKeys (pairs : List KeyOffset) : loadPreind (writtenKeys pairs) =
    if pairs.length ≤ intMax then some (pairs.map KeyOffset.entry ++ [.cleared], pairs.length) else none := by
  by_cases hcount : pairs.length ≤ intMax
  · have hpos : 0 < preRecordSize := by decide
    have hsize : (writtenKeys pairs).length / preRecordSize = pairs.length := by
      rw [writtenKeys_length, Nat.mul_div_left _ hpos]
    have hentries : (List.range pairs.length).map (fun i =>
        EndTagEntry.cleared.read (slice (writtenKeys pairs) (i * preRecordSize) preRecordSize)) =
          pairs.map KeyOffset.entry := by
      apply List.ext_getElem
      · simp
      · intro i h h'
        have hi : i < pairs.length := by simpa using h'
        rw [List.getElem_map, List.getElem_map, List.getElem_range, writtenKeys,
          slice_flatMap (fun pair _ => pair.record_length) hi, KeyOffset.read_record]
    rw [if_pos hcount, loadPreind_eq (by rw [writtenKeys_length, Nat.mul_mod_left]) (by rwa [hsize]), hsize, hentries]
  · rw [if_neg hcount, loadPreind_large (Nat.lt_of_not_le hcount)]

/-- One record more than `INT_MAX`. -/
theorem loadPreind_intMax_succ : ¬∀ pairs : List KeyOffset,
    loadPreind (writtenKeys pairs) = some (pairs.map KeyOffset.entry ++ [.cleared], pairs.length) := by
  intro h
  have hall := h (List.replicate (intMax + 1) ⟨ascii "logos", 0, by decide, by decide⟩)
  rw [loadPreind_large (by rw [List.length_replicate]; exact Nat.lt_succ_self _)] at hall
  cases hall

end Codec

end Morpheus
