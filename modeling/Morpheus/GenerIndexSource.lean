import Morpheus.LineInput
import Mathlib.Data.List.DropRight

/-!
# Parsing prepared generation sources

The index builder's `parse_source`: lemma lines open a block, record lines add to
the newest block of the same file. The parsed values carry what the writer relies
on: strings are nonempty C strings and block ordinals ascend.
-/
namespace Morpheus.GenerIndex

inductive RecordKind
  | noun
  | adjective
  | verbStem
  | indeclinable
  | irregularVerb
  deriving DecidableEq, Repr

def RecordKind.code : RecordKind → ℕ
  | noun => 1
  | adjective => 2
  | verbStem => 3
  | indeclinable => 4
  | irregularVerb => 5

structure SourceRecord where
  kind : RecordKind
  stem : Bytes
  keys : Bytes
  stem_ok : stem ≠ [] ∧ NulFree stem
  keys_ok : keys ≠ [] ∧ NulFree keys
  deriving DecidableEq

/-- A block of the source: the records of one `:le:` line. -/
structure SourceBlock where
  key : Bytes
  ordinal : ℕ
  records : List SourceRecord
  key_ok : key ≠ [] ∧ NulFree key
  deriving DecidableEq

structure SourceIndex where
  blocks : List SourceBlock
  nextOrdinal : ℕ
  ordered : (blocks.map (·.ordinal)).Pairwise (· < ·)
  below : ∀ ordinal ∈ blocks.map (·.ordinal), ordinal < nextOrdinal
  deriving DecidableEq

/-- The blocks as lemmas with their records. -/
def SourceIndex.pairs (index : SourceIndex) : List (Bytes × List SourceRecord) :=
  index.blocks.map fun b => (b.key, b.records)

def emptyIndex : SourceIndex := ⟨[], 0, by simp, by simp⟩

def appendBlock (index : SourceIndex) (key : Bytes) (hk : key ≠ [] ∧ NulFree key) :
    SourceIndex where
  blocks := index.blocks ++ [⟨key, index.nextOrdinal, [], hk⟩]
  nextOrdinal := index.nextOrdinal + 1
  ordered := by
    rw [List.map_append]
    refine List.pairwise_append.mpr ⟨index.ordered, by simp, ?_⟩
    simpa using index.below
  below := by
    intro ordinal h
    rw [List.map_append, List.mem_append] at h
    rcases h with h | h
    · exact (index.below ordinal h).trans (Nat.lt_succ_self _)
    · simp at h
      omega

private theorem map_ordinal_modify (blocks : List SourceBlock) (block : ℕ)
    (record : SourceRecord) :
    (blocks.modify block fun b => { b with records := b.records ++ [record] }).map (·.ordinal) =
      blocks.map (·.ordinal) := by
  refine List.ext_getElem (by simp) fun i h1 h2 => ?_
  simp only [List.getElem_map, List.getElem_modify]
  split <;> rfl

def appendRecord (index : SourceIndex) (block : ℕ) (record : SourceRecord) : SourceIndex where
  blocks := index.blocks.modify block fun b => { b with records := b.records ++ [record] }
  nextOrdinal := index.nextOrdinal
  ordered := map_ordinal_modify index.blocks block record ▸ index.ordered
  below := map_ordinal_modify index.blocks block record ▸ index.below

/-- The bytes of `" \t\r\n"`. -/
def isBreak (c : Byte) : Bool := c == 32 || c == 9 || c == 13 || c == 10

def trim (value : Bytes) : Bytes :=
  (value.dropWhile fun c => c == 32 || c == 9).rdropWhile isBreak

/-- The bytes that a canonical lemma leaves out. -/
def isLemmaMark (c : Byte) : Bool := c == 45 || c == 95 || c == 94 || c == 43

def canonicalLemma (source : Bytes) : Bytes :=
  let source := source.takeWhile fun c => !isBreak c
  let source := if source.head? = some 33 then source.tail else source
  source.filter fun c => !isLemmaMark c

def recordPrefixes : List (Bytes × RecordKind) :=
  [(ascii ":no:", .noun), (ascii ":aj:", .adjective), (ascii ":vs:", .verbStem),
    (ascii ":wd:", .indeclinable), (ascii ":vb:", .irregularVerb)]

def recordPrefix (line : Bytes) : Option RecordKind :=
  (recordPrefixes.find? fun p => startsWith p.1 line).map (·.2)

theorem trim_nulFree {s : Bytes} (h : NulFree s) : NulFree (trim s) := by
  have hr := List.rdropWhile_prefix isBreak (s.dropWhile fun c => c == 32 || c == 9)
  exact h.sublist (hr.sublist.trans (List.dropWhile_suffix _).sublist)

/-- The content of a line is a C string. -/
theorem content_nulFree (line : Bytes) : NulFree (trim (cstr line)) :=
  trim_nulFree (cstr_nulFree line)

theorem canonicalLemma_nulFree {s : Bytes} (h : NulFree s) : NulFree (canonicalLemma s) := by
  refine h.sublist (List.filter_sublist.trans ?_)
  have ht := List.takeWhile_sublist (l := s) fun c => !isBreak c
  split
  · exact (List.tail_sublist _).trans ht
  · exact ht

inductive SourceProblem
  | lineTooLong
  | invalidLemma
  | unexpandedRecord
  | recordBeforeLemma
  | incompleteRecord
  deriving DecidableEq, Repr

def SourceProblem.message : SourceProblem → String
  | lineTooLong => "line too long"
  | invalidLemma => "invalid lemma"
  | unexpandedRecord => "unexpanded generation record"
  | recordBeforeLemma => "record before lemma"
  | incompleteRecord => "incomplete record"

/-- What is reported as `path:line: message`. -/
structure SourceError where
  lineNumber : ℕ
  problem : SourceProblem
  deriving DecidableEq, Repr

/-- The stem and the keys of a record line: the field behind the tag and the rest. -/
def recordFields (line : Bytes) : Bytes × Bytes :=
  let fields := line.drop 4
  (fields.takeWhile fun c => !isBreak c, trim ((fields.dropWhile fun c => !isBreak c).drop 1))

theorem recordFields_nulFree {line : Bytes} (h : NulFree line) :
    NulFree (recordFields line).1 ∧ NulFree (recordFields line).2 := by
  have hd := h.sublist (List.drop_sublist 4 line)
  exact ⟨hd.sublist (List.takeWhile_sublist _), trim_nulFree
    (hd.sublist ((List.drop_sublist _ _).trans (List.dropWhile_suffix _).sublist))⟩

/-- The record of a line, if it is a complete record line. -/
def recordOfLine (content : Bytes) (hc : NulFree content) : Option SourceRecord :=
  match recordPrefix content with
  | none => none
  | some kind =>
    if h : (recordFields content).1 = [] ∨ (recordFields content).2 = [] then none
    else
      let hn := recordFields_nulFree hc
      some ⟨kind, (recordFields content).1, (recordFields content).2,
        ⟨fun h1 => h (.inl h1), hn.1⟩, ⟨fun h2 => h (.inr h2), hn.2⟩⟩

/-- `parse_record`; `block` is the position of the newest block of the file, if any. -/
def parseRecord (index : SourceIndex) (block : Option ℕ) (line : Bytes) (hl : NulFree line) :
    Except SourceProblem SourceIndex :=
  match recordPrefix line with
  | none => .ok index
  | some kind =>
    match block with
    | none => .error .recordBeforeLemma
    | some block =>
      if h : (recordFields line).1 = [] ∨ (recordFields line).2 = [] then
        .error .incompleteRecord
      else
        let hn := recordFields_nulFree hl
        .ok (appendRecord index block ⟨kind, (recordFields line).1, (recordFields line).2,
          ⟨fun h1 => h (.inl h1), hn.1⟩, ⟨fun h2 => h (.inr h2), hn.2⟩⟩)

def lineCapacity : ℕ := 8192

/-- The state of `parse_source` between two lines. -/
structure ParseState where
  index : SourceIndex
  block : Option ℕ
  deriving DecidableEq

/-- The body of the loop of `parse_source`, behind the test of the line length. -/
def parseContent (state : ParseState) (content : Bytes) (hc : NulFree content) :
    Except SourceProblem ParseState :=
  if content = [] ∨ content.head? = some 35 ∨ content.head? = some 63 then .ok state
  else if startsWith (ascii ":le:") content then
    let key := canonicalLemma (trim (content.drop 4))
    if h : key = [] then .error .invalidLemma
    else
      let hk := canonicalLemma_nulFree (trim_nulFree (hc.sublist (List.drop_sublist 4 content)))
      .ok ⟨appendBlock state.index key ⟨h, hk⟩, some state.index.blocks.length⟩
  else if startsWith (ascii ":de:") content ∨ content.head? = some 59 ∨
      content.head? = some 64 then .error .unexpandedRecord
  else (parseRecord state.index state.block content hc).map fun index => { state with index }

def parseLine (state : ParseState) (line : Bytes) : Except SourceProblem ParseState :=
  let text := cstr line
  if text.length = lineCapacity - 1 ∧ text.getLast? ≠ some 10 then .error .lineTooLong
  else parseContent state (trim text) (content_nulFree line)

def parseLines : ℕ → ParseState → List Bytes → Except SourceError ParseState
  | _, state, [] => .ok state
  | lineNumber, state, line :: lines =>
    match parseLine state line with
    | .error problem => .error ⟨lineNumber + 1, problem⟩
    | .ok state => parseLines (lineNumber + 1) state lines

def parseSource (index : SourceIndex) (file : Bytes) : Except SourceError SourceIndex :=
  (parseLines 0 ⟨index, none⟩ (fgetsLines lineCapacity file)).map (·.index)

/-- The input loop of `main`. -/
def parseSources (index : SourceIndex) : List Bytes → Except SourceError SourceIndex
  | [] => .ok index
  | file :: files =>
    match parseSource index file with
    | .error error => .error error
    | .ok index => parseSources index files

end Morpheus.GenerIndex
