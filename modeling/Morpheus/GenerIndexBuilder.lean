import Morpheus.GenerIndexReader
import Morpheus.GenerIndexSource
import Mathlib.Data.List.Sort

/-!
# Writing a generation index

The index builder's `write_index`: empty blocks are dropped, the rest sorted and
deduplicated, the sizes added up, and the payload filled at running cursors. The
builder's constants, `add_size` and `payload_hash` are the same as the reader's.
-/
namespace Morpheus.GenerIndex
open Checked

def uint32Max : ℕ := 2 ^ 32 - 1

/-- The largest object an allocation can return. -/
def ptrdiffMax : ℕ := 2 ^ 63 - 1

def compareBlocks (left right : SourceBlock) : Int :=
  let order := strcmp left.key right.key
  if order ≠ 0 then order
  else if left.ordinal < right.ordinal then -1
  else if left.ordinal ≠ right.ordinal then 1 else 0

def sameRecord (left right : SourceRecord) : Bool :=
  left.kind = right.kind && strcmp left.stem right.stem = 0 && strcmp left.keys right.keys = 0

def sameBlock (left right : SourceBlock) : Bool :=
  strcmp left.key right.key = 0 && left.records.length = right.records.length &&
    (left.records.zip right.records).all fun p => sameRecord p.1 p.2

def discardEmptyBlocks (blocks : List SourceBlock) : List SourceBlock :=
  blocks.filter fun block => block.records ≠ []

/-- The inner loop of `discard_duplicate_blocks`, over the blocks kept so far, newest first. -/
def isDuplicate (block : SourceBlock) : List SourceBlock → Bool
  | [] => false
  | previous :: kept =>
    if strcmp previous.key block.key ≠ 0 then false
    else if sameBlock previous block then true
    else isDuplicate block kept

def discardDuplicates : List SourceBlock → List SourceBlock → List SourceBlock
  | kept, [] => kept.reverse
  | kept, block :: blocks =>
    if isDuplicate block kept then discardDuplicates kept blocks
    else discardDuplicates (block :: kept) blocks

def discardDuplicateBlocks (blocks : List SourceBlock) : List SourceBlock :=
  discardDuplicates [] blocks

/-- `qsort` with `compare_blocks`, which separates any two blocks of an index. -/
def sortBlocks (blocks : List SourceBlock) : List SourceBlock :=
  blocks.insertionSort fun left right => compareBlocks left right ≤ 0

def multiplySize (count size : ℕ) : Checked ℕ := do
  require (size = 0 ∨ count ≤ sizeMax / size)
  mul sizeMax count size

structure Sizes where
  lemmaCount : ℕ
  recordCount : ℕ
  stringSize : ℕ
  deriving DecidableEq

def measureRecords : ℕ → List SourceRecord → Checked ℕ
  | stringSize, [] => .ok stringSize
  | stringSize, record :: records => do
    let stringSize ← addSize stringSize (record.stem.length + 1)
    let stringSize ← addSize stringSize (record.keys.length + 1)
    measureRecords stringSize records

/-- Count a lemma at the first block of its run; `previous` is the lemma of the block before. -/
def measureLemma (previous : Option Bytes) (sizes : Sizes) (block : SourceBlock) :
    Checked Sizes :=
  if previous.all fun key => strcmp key block.key ≠ 0 then do
    let lemmaCount ← add sizeMax sizes.lemmaCount 1
    let stringSize ← addSize sizes.stringSize (block.key.length + 1)
    return { sizes with lemmaCount, stringSize }
  else .ok sizes

/-- The size loop of `write_index`. -/
def measureBlocks : Option Bytes → Sizes → List SourceBlock → Checked Sizes
  | _, sizes, [] => .ok sizes
  | previous, sizes, block :: blocks =>
    if block.records = [] then measureBlocks (some block.key) sizes blocks
    else do
      require (block.records.length ≤ uint32Max)
      let sizes ← measureLemma previous sizes block
      let recordCount ← addSize sizes.recordCount block.records.length
      let stringSize ← measureRecords sizes.stringSize block.records
      measureBlocks (some block.key) { sizes with recordCount, stringSize } blocks

/-- The maximal runs of blocks of one lemma, each with its lemma. -/
def groupBlocks : List SourceBlock → List (Bytes × List SourceBlock)
  | [] => []
  | block :: blocks =>
    (block.key, block :: blocks.takeWhile fun b => strcmp block.key b.key = 0) ::
      groupBlocks (blocks.dropWhile fun b => strcmp block.key b.key = 0)
termination_by blocks => blocks.length
decreasing_by
  exact Nat.lt_succ_of_le (List.dropWhile_suffix _).length_le

/-- The payload with the cursors that move through it. -/
structure Cursors where
  payload : Bytes
  lemmaCursor : ℕ
  blockCursor : ℕ
  recordCursor : ℕ
  stringCursor : ℕ
  firstRecord : ℕ
  deriving DecidableEq

/-- The positions that do not move: the end of the lemma table and `string_base`. -/
structure Layout where
  lemmaSize : ℕ
  stringBase : ℕ

def putU32 (payload : Bytes) (output value : ℕ) : Checked Bytes :=
  write payload output (leBytes 4 value)

def putU64 (payload : Bytes) (output value : ℕ) : Checked Bytes :=
  write payload output (leBytes 8 value)

/-- `memcpy` of a string with its NUL. -/
def putString (payload : Bytes) (output : ℕ) (s : Bytes) : Checked Bytes :=
  write payload output (s ++ [0])

def writeRecord (layout : Layout) (c : Cursors) (item : SourceRecord) : Checked Cursors := do
  let stemOffset ← sub c.stringCursor layout.stringBase
  let payload ← putString c.payload c.stringCursor item.stem
  let stringCursor ← add sizeMax c.stringCursor (item.stem.length + 1)
  let keysOffset ← sub stringCursor layout.stringBase
  let payload ← putString payload stringCursor item.keys
  let stringCursor ← add sizeMax stringCursor (item.keys.length + 1)
  let payload ← putU32 payload c.recordCursor item.kind.code
  let payload ← putU64 payload (c.recordCursor + 8) stemOffset
  let payload ← putU64 payload (c.recordCursor + 16) keysOffset
  let recordCursor ← add sizeMax c.recordCursor recordEntrySize
  let firstRecord ← add sizeMax c.firstRecord 1
  return { c with payload, recordCursor, stringCursor, firstRecord }

def writeBlock (layout : Layout) (c : Cursors) (source : SourceBlock) : Checked Cursors :=
  if source.records = [] then .ok c
  else do
    let payload ← putU64 c.payload c.blockCursor c.firstRecord
    let payload ← putU32 payload (c.blockCursor + 8) source.records.length
    let blockCursor ← add sizeMax c.blockCursor blockEntrySize
    source.records.foldlM (writeRecord layout) { c with payload, blockCursor }

def writeGroup (layout : Layout) (c : Cursors) (group : Bytes × List SourceBlock) :
    Checked Cursors := do
  let groupBlocks := group.2.countP fun block => block.records ≠ []
  require (groupBlocks ≤ uint32Max)
  if groupBlocks = 0 then return c
  let keyOffset ← sub c.stringCursor layout.stringBase
  let payload ← putString c.payload c.stringCursor group.1
  let stringCursor ← add sizeMax c.stringCursor (group.1.length + 1)
  let payload ← putU64 payload c.lemmaCursor keyOffset
  let firstBlock ← sub c.blockCursor layout.lemmaSize
  let payload ← putU64 payload (c.lemmaCursor + 8) (firstBlock / blockEntrySize)
  let payload ← putU32 payload (c.lemmaCursor + 16) groupBlocks
  let lemmaCursor ← add sizeMax c.lemmaCursor lemmaEntrySize
  group.2.foldlM (writeBlock layout) { c with payload, lemmaCursor, stringCursor }

def writeHeader (lemmaCount blockCount recordCount stringSize : ℕ) (payload : Bytes) :
    Checked Bytes := do
  let header := ascii "MORPHGEN" ++ List.replicate (headerSize - 8) 0
  let header ← putU32 header 8 formatVersion
  let header ← putU32 header 12 languageGreek
  let header ← putU64 header 16 lemmaCount
  let header ← putU64 header 24 blockCount
  let header ← putU64 header 32 recordCount
  let header ← putU64 header 40 stringSize
  putU64 header 48 (payloadHash payload).toNat

/-- The blocks that are written: neither empty nor repeated, in the order of `compare_blocks`. -/
def preparedBlocks (index : SourceIndex) : List SourceBlock :=
  discardDuplicateBlocks (sortBlocks (discardEmptyBlocks index.blocks))

/-- `write_index`: the bytes of the file it writes. -/
def writeIndex (index : SourceIndex) : Checked Bytes := do
  let blocks := preparedBlocks index
  let sizes ← measureBlocks none ⟨0, 0, 0⟩ blocks
  let tableSize ← multiplySize sizes.lemmaCount lemmaEntrySize
  let payloadSize ← addSize 0 tableSize
  let tableSize ← multiplySize blocks.length blockEntrySize
  let payloadSize ← addSize payloadSize tableSize
  let tableSize ← multiplySize sizes.recordCount recordEntrySize
  let payloadSize ← addSize payloadSize tableSize
  let payloadSize ← addSize payloadSize sizes.stringSize
  require (payloadSize ≤ ptrdiffMax)
  let lemmaSize ← mul sizeMax sizes.lemmaCount lemmaEntrySize
  let blockEnd ← add sizeMax lemmaSize (← mul sizeMax blocks.length blockEntrySize)
  let stringBase ← add sizeMax blockEnd (← mul sizeMax sizes.recordCount recordEntrySize)
  let c ← (groupBlocks blocks).foldlM (writeGroup { lemmaSize, stringBase })
    { payload := List.replicate payloadSize 0
      lemmaCursor := 0
      blockCursor := lemmaSize
      recordCursor := blockEnd
      stringCursor := stringBase
      firstRecord := 0 }
  require (c.lemmaCursor = lemmaSize ∧ c.blockCursor = blockEnd ∧
    c.recordCursor = stringBase ∧ c.stringCursor = payloadSize)
  let header ← writeHeader sizes.lemmaCount blocks.length sizes.recordCount sizes.stringSize
    c.payload
  return header ++ c.payload

end Morpheus.GenerIndex
