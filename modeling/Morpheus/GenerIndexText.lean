import Morpheus.GenerIndexSource

/-!
# What the sources say

The meaning of a source text without the parser's state: every lemma line owns the
record lines that follow it, up to the next lemma line or the end of its file.
-/
namespace Morpheus.GenerIndex

inductive SourceItem
  | opens (key : Bytes)
  | record (item : SourceRecord)
  | other
  deriving DecidableEq

def contentItem (content : Bytes) (hc : NulFree content) : SourceItem :=
  if startsWith (ascii ":le:") content then .opens (canonicalLemma (trim (content.drop 4)))
  else
    match recordOfLine content hc with
    | some item => .record item
    | none => .other

def lineItem (line : Bytes) : SourceItem :=
  contentItem (trim (cstr line)) (content_nulFree line)

def SourceItem.record? : SourceItem → Option SourceRecord
  | .record item => some item
  | _ => none

def SourceItem.continues : SourceItem → Bool
  | .opens _ => false
  | _ => true

/-- The records before the next lemma line. -/
def ownedRecords (items : List SourceItem) : List SourceRecord :=
  (items.takeWhile SourceItem.continues).filterMap SourceItem.record?

def itemBlocks : List SourceItem → List (Bytes × List SourceRecord)
  | [] => []
  | .opens key :: items => (key, ownedRecords items) :: itemBlocks items
  | _ :: items => itemBlocks items

/-- The blocks of a list of source texts. -/
def sourceBlocks (files : List Bytes) : List (Bytes × List SourceRecord) :=
  files.flatMap fun file => itemBlocks ((fgetsLines lineCapacity file).map lineItem)

/-- What one accepted line does to the parser. -/
def ItemStep (item : SourceItem) (state next : ParseState) : Prop :=
  match item with
  | .opens key => next.block = some state.index.blocks.length ∧
      next.index.pairs = state.index.pairs ++ [(key, [])]
  | .record item => next.block = state.block ∧ ∃ block, state.block = some block ∧
      next.index.pairs = state.index.pairs.modify block fun b => (b.1, b.2 ++ [item])
  | .other => next = state

theorem pairs_appendRecord (index : SourceIndex) (block : ℕ) (item : SourceRecord) :
    (appendRecord index block item).pairs =
      index.pairs.modify block fun b => (b.1, b.2 ++ [item]) := by
  refine List.ext_getElem (by simp [SourceIndex.pairs, appendRecord]) fun i h1 h2 => ?_
  simp only [SourceIndex.pairs, appendRecord, List.getElem_map, List.getElem_modify]
  split <;> rfl

/-- No line is both a comment and a lemma or record line. -/
theorem tag_of_startsWith {tag content : Bytes} {c : Byte} (h : startsWith (c :: tag) content) :
    content.head? = some c := by
  cases content with
  | nil => simp [startsWith] at h
  | cons d content => simpa [startsWith, eq_comm] using (by simpa [startsWith] using h : _ ∧ _).1

theorem recordPrefix_head {content : Bytes} (h : content.head? ≠ some 58) :
    recordPrefix content = none := by
  rw [recordPrefix, Option.map_eq_none_iff, List.find?_eq_none]
  intro p hp hs
  refine h ?_
  simp only [recordPrefixes, List.mem_cons, List.not_mem_nil, or_false] at hp
  rcases hp with rfl | rfl | rfl | rfl | rfl <;> exact tag_of_startsWith hs

theorem parseRecord_step {state : ParseState} {index : SourceIndex} {content : Bytes}
    {hc : NulFree content} (h : parseRecord state.index state.block content hc = .ok index) :
    ItemStep (match recordOfLine content hc with
      | some item => .record item
      | none => .other) state { state with index } := by
  unfold parseRecord at h
  unfold recordOfLine
  cases hkind : recordPrefix content with
  | none =>
    simp only [hkind, Except.ok.injEq] at h
    subst h
    rfl
  | some kind =>
    simp only [hkind] at h ⊢
    cases hblock : state.block with
    | none => simp [hblock] at h
    | some block =>
      simp only [hblock] at h
      split at h
      · cases h
      · rename_i hfields
        cases h
        rw [dif_neg hfields]
        exact ⟨hblock.symm, block, hblock, pairs_appendRecord ..⟩

theorem parseContent_step {state next : ParseState} {content : Bytes} {hc : NulFree content}
    (h : parseContent state content hc = .ok next) :
    ItemStep (contentItem content hc) state next := by
  unfold parseContent at h
  split at h
  · rename_i hskip
    have hhead : content.head? ≠ some 58 := by
      rcases hskip with rfl | hskip | hskip <;> simp [*]
    have hle : ¬ startsWith (ascii ":le:") content := fun hs => hhead (tag_of_startsWith hs)
    cases h
    simp [contentItem, hle, recordOfLine, recordPrefix_head hhead, ItemStep]
  · split at h
    · rename_i hle
      simp only at h
      split at h
      · cases h
      · cases h
        simp [contentItem, hle, ItemStep, appendBlock, SourceIndex.pairs]
    · rename_i hle
      split at h
      · cases h
      · cases hrec : parseRecord state.index state.block content hc with
        | error problem => simp [hrec, Except.map] at h
        | ok index =>
          simp only [hrec, Except.map, Except.ok.injEq] at h
          subst h
          rw [contentItem, if_neg hle]
          exact parseRecord_step hrec

theorem parseLine_step {state next : ParseState} {line : Bytes}
    (h : parseLine state line = .ok next) : ItemStep (lineItem line) state next := by
  simp only [parseLine] at h
  split at h
  · cases h
  · exact parseContent_step h

/-- The lines that an accepted text is read as. -/
theorem parseLines_ok {lineNumber : ℕ} {state final : ParseState} {line : Bytes}
    {lines : List Bytes} (h : parseLines lineNumber state (line :: lines) = .ok final) :
    ∃ next, ItemStep (lineItem line) state next ∧
      parseLines (lineNumber + 1) next lines = .ok final := by
  rw [parseLines] at h
  cases hline : parseLine state line with
  | error problem => simp [hline] at h
  | ok next =>
    rw [hline] at h
    exact ⟨next, parseLine_step hline, h⟩

theorem ownedRecords_opens (key : Bytes) (items : List SourceItem) :
    ownedRecords (.opens key :: items) = [] := rfl

theorem ownedRecords_record (item : SourceRecord) (items : List SourceItem) :
    ownedRecords (.record item :: items) = item :: ownedRecords items := rfl

theorem ownedRecords_other (items : List SourceItem) :
    ownedRecords (.other :: items) = ownedRecords items := rfl

theorem modify_last {α : Type*} (l : List α) (a : α) (f : α → α) :
    (l ++ [a]).modify l.length f = l ++ [f a] := by
  induction l with
  | nil => rfl
  | cons b l ih => simp [ih]

/-- An open block takes the records up to the next lemma line. -/
theorem parseLines_open {lineNumber : ℕ} {state final : ParseState} {lines : List Bytes}
    {front : List (Bytes × List SourceRecord)} {key : Bytes} {records : List SourceRecord}
    (hb : state.block = some front.length)
    (hp : state.index.pairs = front ++ [(key, records)])
    (h : parseLines lineNumber state lines = .ok final) :
    final.index.pairs = front ++ [(key, records ++ ownedRecords (lines.map lineItem))] ++
      itemBlocks (lines.map lineItem) := by
  induction lines generalizing lineNumber state front key records with
  | nil =>
    cases h
    simp [hp, ownedRecords, itemBlocks]
  | cons line lines ih =>
    obtain ⟨next, hstep, hrest⟩ := parseLines_ok h
    rw [List.map_cons]
    cases hitem : lineItem line with
    | opens newKey =>
      rw [hitem] at hstep
      obtain ⟨hnb, hnp⟩ := hstep
      have hlen : state.index.blocks.length = (front ++ [(key, records)]).length := by
        rw [← hp, SourceIndex.pairs, List.length_map]
      rw [hp] at hnp
      rw [ih (hnb.trans (congrArg some hlen)) hnp hrest, ownedRecords_opens]
      simp [itemBlocks]
    | record item =>
      rw [hitem] at hstep
      obtain ⟨hnb, block, hblock, hnp⟩ := hstep
      obtain rfl : front.length = block := by simpa [hb] using hblock
      rw [hp, modify_last] at hnp
      rw [ih (hnb.trans hb) hnp hrest, ownedRecords_record]
      simp [itemBlocks]
    | other =>
      rw [hitem] at hstep
      obtain rfl : next = state := hstep
      rw [ih hb hp hrest, ownedRecords_other]
      simp [itemBlocks]

/-- Without an open block the lines before the first lemma line hold no record. -/
theorem parseLines_closed {lineNumber : ℕ} {state final : ParseState} {lines : List Bytes}
    (hb : state.block = none) (h : parseLines lineNumber state lines = .ok final) :
    final.index.pairs = state.index.pairs ++ itemBlocks (lines.map lineItem) := by
  induction lines generalizing lineNumber state with
  | nil =>
    cases h
    simp [itemBlocks]
  | cons line lines ih =>
    obtain ⟨next, hstep, hrest⟩ := parseLines_ok h
    rw [List.map_cons]
    cases hitem : lineItem line with
    | opens key =>
      rw [hitem] at hstep
      obtain ⟨hnb, hnp⟩ := hstep
      have hlen : state.index.blocks.length = state.index.pairs.length := by
        simp [SourceIndex.pairs]
      rw [parseLines_open (by rw [hnb, hlen]) hnp hrest]
      simp [itemBlocks]
    | record item =>
      rw [hitem] at hstep
      obtain ⟨-, block, hblock, -⟩ := hstep
      simp [hb] at hblock
    | other =>
      rw [hitem] at hstep
      obtain rfl : next = state := hstep
      rw [ih hb hrest]
      rfl

theorem parseSource_pairs {index final : SourceIndex} {file : Bytes}
    (h : parseSource index file = .ok final) :
    final.pairs = index.pairs ++ itemBlocks ((fgetsLines lineCapacity file).map lineItem) := by
  rw [parseSource] at h
  cases hlines : parseLines 0 ⟨index, none⟩ (fgetsLines lineCapacity file) with
  | error error => simp [hlines, Except.map] at h
  | ok state =>
    simp only [hlines, Except.map, Except.ok.injEq] at h
    subst h
    exact parseLines_closed rfl hlines

/-- The parser collects exactly the blocks of the texts, in order. -/
theorem parseSources_pairs {index final : SourceIndex} {files : List Bytes}
    (h : parseSources index files = .ok final) :
    final.pairs = index.pairs ++ sourceBlocks files := by
  induction files generalizing index with
  | nil =>
    cases h
    simp [sourceBlocks]
  | cons file files ih =>
    rw [parseSources] at h
    cases hfile : parseSource index file with
    | error error => simp [hfile] at h
    | ok next =>
      rw [hfile] at h
      rw [ih h, parseSource_pairs hfile]
      simp [sourceBlocks]

theorem mem_itemBlocks (key : Bytes) (before after : List SourceItem) :
    (key, ownedRecords after) ∈ itemBlocks (before ++ .opens key :: after) := by
  induction before with
  | nil => simp [itemBlocks]
  | cons item before ih => cases item <;> simp [itemBlocks, ih]

/-- A lemma line of a source owns the records behind it. -/
theorem mem_sourceBlocks {files : List Bytes} {source line key : Bytes} {before after : List Bytes}
    (hsource : source ∈ files) (hlines : fgetsLines lineCapacity source = before ++ line :: after)
    (hline : lineItem line = .opens key) :
    (key, ownedRecords (after.map lineItem)) ∈ sourceBlocks files := by
  refine List.mem_flatMap_of_mem hsource ?_
  rw [hlines, List.map_append, List.map_cons, hline]
  exact mem_itemBlocks key _ _

end Morpheus.GenerIndex
