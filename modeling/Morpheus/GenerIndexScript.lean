import Morpheus.CodeUnits
import Morpheus.GenerIndexBuilder

/-!
# The script builder of a generation index

`buildGenerIndex` of the script bindings builds the same file as the index builder,
from strings: the sources are split and trimmed as script strings, sorted by code
units, and written through views of a payload. A view refuses to write outside its
buffer; sizes are exact because they are refused beyond the safe integers.
-/
namespace Morpheus.GenerScript
open Checked GenerIndex

structure ScriptRecord where
  kind : ℕ
  stem : ScriptString
  keys : ScriptString
  deriving DecidableEq

structure ScriptBlock where
  lemmaText : ScriptString
  ordinal : ℕ
  records : List ScriptRecord
  deriving DecidableEq

def text (s : String) : ScriptString := units (ascii s)

def recordKinds : List (ScriptString × ℕ) :=
  [(text ":no:", 1), (text ":aj:", 2), (text ":vs:", 3), (text ":wd:", 4), (text ":vb:", 5)]

/-- The class `[ \t\r\n]`. -/
def isSeparator (c : UInt16) : Bool := c == 32 || c == 9 || c == 13 || c == 10

/-- The class `[-_^+]`. -/
def isMark (c : UInt16) : Bool := c == 45 || c == 95 || c == 94 || c == 43

def canonicalLemma (source : ScriptString) : ScriptString :=
  let first := (scriptTrim source).takeWhile fun c => !isSeparator c
  let content := if (text "!").isPrefixOf first then first.drop 1 else first
  content.filter fun c => !isMark c

def sameBlock (left right : ScriptBlock) : Bool :=
  left.lemmaText = right.lemmaText && left.records.length = right.records.length &&
    (left.records.zip right.records).all fun p =>
      p.1.kind = p.2.kind && p.1.stem = p.2.stem && p.1.keys = p.2.keys

/-- What the loops of `parseSources` carry; `block` is the position of the block that
the current source opened last. -/
structure ScriptState where
  blocks : List ScriptBlock
  ordinal : ℕ
  block : Option ℕ
  deriving DecidableEq

/-- A record line of kind `kind`. -/
def parseRecord (state : ScriptState) (kind : ℕ) (line : ScriptString) :
    Except SourceProblem ScriptState :=
  match state.block with
  | none => .error .recordBeforeLemma
  | some block =>
    match (line.drop 4).findIdx? isSeparator with
    | none => .error .incompleteRecord
    | some separator =>
      let keys := scriptTrim (line.drop (separator + 4))
      if separator = 0 ∨ keys = [] then .error .incompleteRecord
      else
        let record := ⟨kind, (line.drop 4).take separator, keys⟩
        .ok { state with
          blocks := state.blocks.modify block fun b =>
            { b with records := b.records ++ [record] } }

def parseContent (state : ScriptState) (line : ScriptString) :
    Except SourceProblem ScriptState :=
  if line = [] ∨ (text "#").isPrefixOf line ∨ (text "?").isPrefixOf line then .ok state
  else if (text ":le:").isPrefixOf line then
    let key := canonicalLemma (scriptTrim (line.drop 4))
    if key = [] then .error .invalidLemma
    else .ok
      { blocks := state.blocks ++ [⟨key, state.ordinal, []⟩]
        ordinal := state.ordinal + 1
        block := some state.blocks.length }
  else if (text ":de:").isPrefixOf line ∨ (text ";").isPrefixOf line ∨
      (text "@").isPrefixOf line then .error .unexpandedRecord
  else
    match recordKinds.lookup (line.take 4) with
    | none => .ok state
    | some kind => parseRecord state kind line

def parseLine (state : ScriptState) (originalLine : ScriptString) :
    Except SourceProblem ScriptState :=
  if lineCapacity - 1 ≤ (encodeString originalLine).length then .error .lineTooLong
  else parseContent state (scriptTrim originalLine)

/-- The loop over the lines of one source. -/
def parseSource (state : ScriptState) (source : ScriptString) :
    Except SourceProblem ScriptState :=
  (source.splitOn 10).foldlM parseLine { state with block := none }

def compareBlocks (left right : ScriptBlock) : Int :=
  if left.lemmaText < right.lemmaText then -1
  else if right.lemmaText < left.lemmaText then 1
  else (left.ordinal : Int) - right.ordinal

/-- The loop of the last `filter`, over the sorted blocks before this one, nearest first. -/
def isRepeated (block : ScriptBlock) : List ScriptBlock → Bool
  | [] => false
  | previous :: sorted =>
    if previous.lemmaText ≠ block.lemmaText then false
    else if sameBlock previous block then true
    else isRepeated block sorted

def dropRepeated : List ScriptBlock → List ScriptBlock → List ScriptBlock
  | _, [] => []
  | before, block :: blocks =>
    if isRepeated block before then dropRepeated (block :: before) blocks
    else block :: dropRepeated (block :: before) blocks

def sortBlocks (blocks : List ScriptBlock) : List ScriptBlock :=
  (blocks.filter fun block => block.records.length ≠ 0).insertionSort fun left right =>
    compareBlocks left right ≤ 0

def parseSources (sources : List ScriptString) : Except SourceProblem (List ScriptBlock) := do
  let state ← sources.foldlM parseSource ⟨[], 0, none⟩
  return dropRepeated [] (sortBlocks state.blocks)

def encodedSize (value : ScriptString) : ℕ := (encodeString value).length + 1

/-- Count a lemma at its first block; `previous` is the lemma of the block before. -/
def measureLemma (previous : Option ScriptString) (sizes : Sizes) (block : ScriptBlock) : Sizes :=
  if previous = some block.lemmaText then sizes
  else { sizes with
    lemmaCount := sizes.lemmaCount + 1
    stringSize := sizes.stringSize + encodedSize block.lemmaText }

def measureRecord (size : ℕ) (record : ScriptRecord) : ℕ :=
  size + (encodedSize record.stem + encodedSize record.keys)

/-- The counting loop of `buildGenerIndex`. -/
def measureBlocks : Option ScriptString → Sizes → List ScriptBlock → Sizes
  | _, sizes, [] => sizes
  | previous, sizes, block :: blocks =>
    let sizes := measureLemma previous sizes block
    measureBlocks (some block.lemmaText)
      { sizes with
        recordCount := sizes.recordCount + block.records.length
        stringSize := block.records.foldl measureRecord sizes.stringSize }
      blocks

def payloadHash (payload : Bytes) : ℕ :=
  payload.foldl (fun hash byte => (hash ^^^ byte.toNat) * 1099511628211 % 2 ^ 64)
    14695981039346656037

/-- A string and its terminator; the store of the terminator is dropped outside the array. -/
def writeString (output : Bytes) (offset : ℕ) (value : ScriptString) : Checked (Bytes × ℕ) := do
  let bytes := encodeString value
  let output ← write output offset bytes
  return (output.set (offset + bytes.length) 0, offset + bytes.length + 1)

def writeRecord (layout : Layout) (c : Cursors) (record : ScriptRecord) : Checked Cursors := do
  let stemOffset := c.stringCursor - layout.stringBase
  let (payload, stringCursor) ← writeString c.payload c.stringCursor record.stem
  let keysOffset := stringCursor - layout.stringBase
  let (payload, stringCursor) ← writeString payload stringCursor record.keys
  let payload ← putU32 payload c.recordCursor record.kind
  let payload ← putU64 payload (c.recordCursor + 8) stemOffset
  let payload ← putU64 payload (c.recordCursor + 16) keysOffset
  return { c with
    payload
    recordCursor := c.recordCursor + recordEntrySize
    stringCursor
    firstRecord := c.firstRecord + 1 }

def writeBlock (layout : Layout) (c : Cursors) (block : ScriptBlock) : Checked Cursors := do
  let payload ← putU64 c.payload c.blockCursor c.firstRecord
  let payload ← putU32 payload (c.blockCursor + 8) block.records.length
  block.records.foldlM (writeRecord layout)
    { c with payload, blockCursor := c.blockCursor + blockEntrySize }

/-- The runs of blocks of one lemma, from `start` to `end`. -/
def groupBlocks : List ScriptBlock → List (ScriptString × List ScriptBlock)
  | [] => []
  | block :: blocks =>
    (block.lemmaText, block :: blocks.takeWhile fun b => b.lemmaText = block.lemmaText) ::
      groupBlocks (blocks.dropWhile fun b => b.lemmaText = block.lemmaText)
termination_by blocks => blocks.length
decreasing_by
  exact Nat.lt_succ_of_le (List.dropWhile_suffix _).length_le

/-- One turn of the writing loop; `BigInt` refuses a quotient that is no integer. -/
def writeGroup (layout : Layout) (c : Cursors) (group : ScriptString × List ScriptBlock) :
    Checked Cursors := do
  let keyOffset := c.stringCursor - layout.stringBase
  let (payload, stringCursor) ← writeString c.payload c.stringCursor group.1
  let payload ← putU64 payload c.lemmaCursor keyOffset
  require (blockEntrySize ∣ c.blockCursor - layout.lemmaSize)
  let payload ← putU64 payload (c.lemmaCursor + 8)
    ((c.blockCursor - layout.lemmaSize) / blockEntrySize)
  let payload ← putU32 payload (c.lemmaCursor + 16) group.2.length
  group.2.foldlM (writeBlock layout)
    { c with payload, lemmaCursor := c.lemmaCursor + lemmaEntrySize, stringCursor }

def writeHeader (sizes : Sizes) (blockCount : ℕ) (payload : Bytes) : Checked Bytes := do
  let header ← write (List.replicate GenerIndex.headerSize 0) 0 (encodeString (text "MORPHGEN"))
  let header ← putU32 header 8 1
  let header ← putU32 header 12 1
  let header ← putU64 header 16 sizes.lemmaCount
  let header ← putU64 header 24 blockCount
  let header ← putU64 header 32 sizes.recordCount
  let header ← putU64 header 40 sizes.stringSize
  putU64 header 48 (payloadHash payload)

/-- `Number.MAX_SAFE_INTEGER` -/
def maxSafeInteger : ℕ := 2 ^ 53 - 1

inductive BuildError
  | problem (p : SourceProblem)
  | limits
  /-- An exception of a typed array, a view or `BigInt`. -/
  | view
  deriving DecidableEq

def problemMessage : SourceProblem → String
  | .lineTooLong => "generation source line is too long"
  | .invalidLemma => "invalid generation lemma"
  | .unexpandedRecord => "unexpanded generation record"
  | .recordBeforeLemma => "generation record appears before a lemma"
  | .incompleteRecord => "incomplete generation record"

/-- The text of an exception that the code words itself. -/
def BuildError.message : BuildError → Option String
  | .problem p => some (problemMessage p)
  | .limits => some "generation index exceeds JavaScript limits"
  | .view => none

def payloadSize (sizes : Sizes) (blockCount : ℕ) : ℕ :=
  sizes.lemmaCount * lemmaEntrySize + blockCount * blockEntrySize +
    sizes.recordCount * recordEntrySize + sizes.stringSize

/-- The file of the prepared blocks, behind the tests of the sizes. -/
def writeFile (sizes : Sizes) (blocks : List ScriptBlock) : Checked Bytes := do
  let lemmaSize := sizes.lemmaCount * lemmaEntrySize
  let recordCursor := lemmaSize + blocks.length * blockEntrySize
  let stringBase := recordCursor + sizes.recordCount * recordEntrySize
  let c ← (groupBlocks blocks).foldlM (writeGroup { lemmaSize, stringBase })
    { payload := List.replicate (payloadSize sizes blocks.length) 0
      lemmaCursor := 0
      blockCursor := lemmaSize
      recordCursor
      stringCursor := stringBase
      firstRecord := 0 }
  let header ← writeHeader sizes blocks.length c.payload
  return header ++ c.payload

def buildGenerIndex (sources : List ScriptString) : Except BuildError Bytes :=
  match parseSources sources with
  | .error problem => .error (.problem problem)
  | .ok blocks =>
    let sizes := measureBlocks none ⟨0, 0, 0⟩ blocks
    if uint32Max < sizes.lemmaCount ∨ uint32Max < blocks.length ∨
        maxSafeInteger < sizes.recordCount then .error .limits
    else if maxSafeInteger < payloadSize sizes blocks.length then .error .limits
    else
      match writeFile sizes blocks with
      | .error _ => .error .view
      | .ok file => .ok file

end Morpheus.GenerScript
