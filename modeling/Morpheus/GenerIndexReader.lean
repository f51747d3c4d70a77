import Morpheus.BinarySearch
import Morpheus.Checked

/-!
# Reading a generation index

The on-disk layout of `gener.index` and the reader's functions: the validation
of an untrusted image, the lookup of a canonical lemma, and the block and record
views the generation service walks. Pointers into the file are positions in it;
every unsigned operation and every access of the reader is checked.
-/
namespace Morpheus.GenerIndex
open Checked BinarySearch

def headerSize : ℕ := 64
def lemmaEntrySize : ℕ := 24
def blockEntrySize : ℕ := 16
def recordEntrySize : ℕ := 24
def formatVersion : ℕ := 1
def languageGreek : ℕ := 1

/-- `SIZE_MAX` of an LP64 host, which is also the maximum of `uint64_t`. -/
def sizeMax : ℕ := 2 ^ 64 - 1

/-- A byte sequence whose length is a `size_t`. -/
structure Image where
  bytes : Bytes
  fits : bytes.length ≤ sizeMax
  deriving DecidableEq

/-- `struct morpheus_gener_index`. -/
structure Index where
  file : Bytes
  lemmas : ℕ
  blocks : ℕ
  records : ℕ
  strings : ℕ
  stringSize : ℕ
  lemmaCount : ℕ
  blockCount : ℕ
  recordCount : ℕ
  deriving DecidableEq

inductive Status
  | invalid
  | ioError
  | noMemory
  | notFound
  deriving DecidableEq, Repr

structure LemmaView where
  firstBlock : ℕ
  blockCount : ℕ
  deriving DecidableEq, Repr

structure BlockView where
  firstRecord : ℕ
  recordCount : ℕ
  deriving DecidableEq, Repr

structure RecordView where
  kind : ℕ
  stem : Option Bytes
  keys : Option Bytes
  deriving DecidableEq, Repr

def getU32 (object : Bytes) (input : ℕ) : Checked ℕ := do
  return leValue (← read object input 4)

def getU64 (object : Bytes) (input : ℕ) : Checked ℕ := do
  return leValue (← read object input 8)

/-- 64-bit FNV-1a; its product is meant to wrap. -/
def payloadHash (payload : Bytes) : UInt64 :=
  payload.foldl (fun hash byte => (hash ^^^ byte.toUInt64) * 1099511628211) 14695981039346656037

def addSize (total amount : ℕ) : Checked ℕ := do
  require (amount ≤ (← sub sizeMax total))
  add sizeMax total amount

def tableSize (count entrySize : ℕ) : Checked ℕ := do
  require (count ≤ sizeMax)
  require (count = 0 ∨ entrySize ≤ sizeMax / count)
  mul sizeMax count entrySize

/-- The string at an offset of the string table, or `NULL`. -/
def stringAt (index : Index) (offset : ℕ) : Checked (Option Bytes) :=
  if offset ≥ index.stringSize then .ok none
  else do
    let rest ← read index.file (index.strings + offset) (← sub index.stringSize offset)
    return if 0 ∈ rest then some (cstr rest) else none

/-- One turn of the lemma loop: the next expected block and the key just seen. -/
def checkLemma (index : Index) (item expectedBlock : ℕ) (previousKey : Option Bytes) :
    Checked (ℕ × Bytes) := do
  let entry := index.lemmas + (← mul sizeMax item lemmaEntrySize)
  let key ← stringAt index (← getU64 index.file entry)
  let firstBlock ← getU64 index.file (entry + 8)
  let count ← getU32 index.file (entry + 16)
  let reserved ← getU32 index.file (entry + 20)
  match key with
  | none => reject
  | some key => do
    require (key ≠ [] ∧ reserved = 0 ∧ count ≠ 0)
    require (firstBlock = expectedBlock ∧ expectedBlock ≤ index.blockCount)
    require (count ≤ (← sub index.blockCount expectedBlock))
    require (∀ previous ∈ previousKey, strcmp previous key < 0)
    return (← add sizeMax expectedBlock count, key)

def checkLemmas (index : Index) : ℕ → ℕ → ℕ → Option Bytes → Checked ℕ
  | 0, _, expectedBlock, _ => .ok expectedBlock
  | left + 1, item, expectedBlock, previousKey => do
    let next ← checkLemma index item expectedBlock previousKey
    checkLemmas index left (item + 1) next.1 (some next.2)

def checkBlock (index : Index) (item expectedRecord : ℕ) : Checked ℕ := do
  let entry := index.blocks + (← mul sizeMax item blockEntrySize)
  let firstRecord ← getU64 index.file entry
  let count ← getU32 index.file (entry + 8)
  let reserved ← getU32 index.file (entry + 12)
  require (reserved = 0 ∧ count ≠ 0)
  require (firstRecord = expectedRecord ∧ expectedRecord ≤ index.recordCount)
  require (count ≤ (← sub index.recordCount expectedRecord))
  add sizeMax expectedRecord count

def checkBlocks (index : Index) : ℕ → ℕ → ℕ → Checked ℕ
  | 0, _, expectedRecord => .ok expectedRecord
  | left + 1, item, expectedRecord => do
    checkBlocks index left (item + 1) (← checkBlock index item expectedRecord)

/-- The record kinds run from `MORPHEUS_GENER_RECORD_NOUN` to `..._IRREGULAR_VERB`. -/
def checkRecord (index : Index) (item : ℕ) : Checked Unit := do
  let entry := index.records + (← mul sizeMax item recordEntrySize)
  let kind ← getU32 index.file entry
  let stem ← stringAt index (← getU64 index.file (entry + 8))
  let keys ← stringAt index (← getU64 index.file (entry + 16))
  let reserved ← getU32 index.file (entry + 4)
  require (1 ≤ kind ∧ kind ≤ 5 ∧ reserved = 0)
  require (stem ≠ none ∧ stem ≠ some [] ∧ keys ≠ none ∧ keys ≠ some [])

def checkRecords (index : Index) : ℕ → ℕ → Checked Unit
  | 0, _ => .ok ()
  | left + 1, item => do
    checkRecord index item
    checkRecords index left (item + 1)

/-- The first half of `valid_layout`: the header, the sizes of the tables and the hash. -/
def readHeader (image : Image) : Checked Index := do
  let header := image.bytes
  require (headerSize ≤ header.length)
  require (slice header 0 8 = ascii "MORPHGEN")
  require ((← getU32 header 8) = formatVersion)
  require ((← getU32 header 12) = languageGreek)
  require ((← getU64 header 56) = 0)
  let lemmaCount ← getU64 header 16
  let blockCount ← getU64 header 24
  let recordCount ← getU64 header 32
  let stringSize ← getU64 header 40
  require (stringSize ≤ sizeMax)
  let lemmaSize ← tableSize lemmaCount lemmaEntrySize
  let blockSize ← tableSize blockCount blockEntrySize
  let recordSize ← tableSize recordCount recordEntrySize
  let expectedSize ← addSize headerSize lemmaSize
  let expectedSize ← addSize expectedSize blockSize
  let expectedSize ← addSize expectedSize recordSize
  let expectedSize ← addSize expectedSize stringSize
  require (expectedSize = header.length)
  let payload ← read header headerSize (← sub header.length headerSize)
  require ((← getU64 header 48) = (payloadHash payload).toNat)
  return {
    file := header
    lemmas := headerSize
    blocks := headerSize + lemmaSize
    records := headerSize + lemmaSize + blockSize
    strings := headerSize + lemmaSize + blockSize + recordSize
    stringSize, lemmaCount, blockCount, recordCount }

def validLayout (image : Image) : Checked Index := do
  let index ← readHeader image
  let expectedBlock ← checkLemmas index index.lemmaCount 0 0 none
  require (expectedBlock = index.blockCount)
  let expectedRecord ← checkBlocks index index.blockCount 0 0
  require (expectedRecord = index.recordCount)
  checkRecords index index.recordCount 0
  return index

/-- The probe of the lookup: `strcmp` of the wanted lemma with the key of an entry.
A key that is `NULL` would be handed to `strcmp`. -/
def compareKey (index : Index) (canonicalLemma : Bytes) (middle : ℕ) : Checked Int := do
  let entry := index.lemmas + (← mul sizeMax middle lemmaEntrySize)
  match ← stringAt index (← getU64 index.file entry) with
  | none => fault .nullPointer
  | some key => .ok (strcmp canonicalLemma key)

def morpheusGenerIndexLookup (index : Index) (canonicalLemma : Bytes) :
    Checked (Except Status LemmaView) :=
  if canonicalLemma = [] then .ok (.error .invalid)
  else do
    match ← searchM lowerMiddle (compareKey index canonicalLemma) 0 index.lemmaCount with
    | .error _ => .ok (.error .notFound)
    | .ok middle => do
      let entry := index.lemmas + (← mul sizeMax middle lemmaEntrySize)
      let firstBlock ← getU64 index.file (entry + 8)
      let blockCount ← getU32 index.file (entry + 16)
      return .ok { firstBlock, blockCount }

def morpheusGenerIndexBlock (index : Index) (block : ℕ) :
    Checked (Except Status BlockView) :=
  if block ≥ index.blockCount then .ok (.error .notFound)
  else do
    let entry := index.blocks + (← mul sizeMax block blockEntrySize)
    let firstRecord ← getU64 index.file entry
    let recordCount ← getU32 index.file (entry + 8)
    return .ok { firstRecord, recordCount }

def morpheusGenerIndexRecord (index : Index) (record : ℕ) :
    Checked (Except Status RecordView) :=
  if record ≥ index.recordCount then .ok (.error .notFound)
  else do
    let entry := index.records + (← mul sizeMax record recordEntrySize)
    let kind ← getU32 index.file entry
    let stem ← stringAt index (← getU64 index.file (entry + 8))
    let keys ← stringAt index (← getU64 index.file (entry + 16))
    return .ok { kind, stem, keys }

/-- A loop of the generation service: visit `left` items from `item` on and stop
at the first that is not `OK`. -/
def walk {α : Type} (visit : ℕ → Checked (Except Status α)) :
    ℕ → ℕ → Checked (Except Status (List α))
  | 0, _ => .ok (.ok [])
  | left + 1, item => do
    match ← visit item with
    | .error status => .ok (.error status)
    | .ok view => do
      match ← walk visit left (item + 1) with
      | .error status => .ok (.error status)
      | .ok views => .ok (.ok (view :: views))

/-- The record loop of `morpheus_generation_service_generate`. -/
def blockRecords (index : Index) (block : ℕ) : Checked (Except Status (List RecordView)) := do
  match ← morpheusGenerIndexBlock index block with
  | .error status => .ok (.error status)
  | .ok view => walk (morpheusGenerIndexRecord index) view.recordCount view.firstRecord

/-- The records that `morpheus_generation_service_generate` walks, block by block. -/
def serviceRecords (index : Index) (canonicalLemma : Bytes) :
    Checked (Except Status (List (List RecordView))) := do
  match ← morpheusGenerIndexLookup index canonicalLemma with
  | .error status => .ok (.error status)
  | .ok view => walk (blockRecords index) view.blockCount view.firstBlock

end Morpheus.GenerIndex
