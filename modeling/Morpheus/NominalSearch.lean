import Morpheus.DictionaryFrame
import Morpheus.StemIndex
import Morpheus.StemTypes

/-!
# The nominal search

`checkregnom` splits a word at every place into a stem and an ending, looks both up in their
indexes, and offers the dictionary entries whose stem type the ending can have to `checkdict`.
-/
namespace Morpheus

/-- `VERBS_ONLY` of the engine. -/
def verbsOnly : UInt32 := 0o400000

/-- `ZEROEND` as an ending. -/
def zeroEnd : Bytes := [42]

/-- What is done with an entry: the word, what the run has collected, the stem and its keys; the
number of hits comes last. -/
abbrev EntryCheck (σ : Type) := GkWord → σ → GkString → Bytes → GkWord × σ × ℕ

/-- `checkdict` of a generator, with the analyses as what is collected. -/
def FormGenerator.check (generator : FormGenerator) : EntryCheck AnalysisStore :=
  fun gkword store stem stemkeys =>
    let result := generator.checkdict gkword store stem stemkeys
    (result.gkword, result.store, result.hits)

/-- An entry offered for a word: the ending of the word, the stem, and the keys. -/
structure EntryOffer where
  ending : Bytes
  stem : Bytes
  keys : Bytes
  deriving DecidableEq

/-- A check that also writes down what it is offered. -/
def EntryCheck.logged {σ : Type} (check : EntryCheck σ) : EntryCheck (σ × List EntryOffer) :=
  fun gkword state stem stemkeys =>
    let result := check gkword state.1 stem stemkeys
    (result.1, (result.2.1, state.2 ++ [⟨gkword.endstring.gkstring, stem.gkstring, stemkeys⟩]),
      result.2.2)

/-- A check that leaves the ending of the word as it was. -/
def EntryCheck.KeepsEnding {σ : Type} (check : EntryCheck σ) : Prop :=
  ∀ gkword state stem stemkeys,
    (check gkword state stem stemkeys).1.endstring = gkword.endstring

/-- The loaded indexes of nominal endings and stems. -/
structure NominalIndexes where
  endings : List Bytes
  tags : List EndTag
  file : Bytes

/-- `chcknend` -/
def chcknend (indexes : NominalIndexes) (endstr keys : Bytes) : ℤ × Bytes :=
  checkendind morphstrncmp indexes.endings (stripquant (xstrncpy endstr (maxWordSize + 1))) keys

/-- `chckstem` for a nominal stem: the stem without quantities and diaereses, and its keys. -/
def chckNominalStem (indexes : NominalIndexes) (stemstr : Bytes) : Bytes × Option Bytes :=
  let stemstr := stripdiaer (stripquant stemstr)
  (stemstr, if stemstr = [] then none else lookupStem indexes.tags indexes.file stemstr)

/-- `stemexists` for a nominal stem: the stem as `chckstem` leaves it, and the keys it has in
common with the ending. -/
def stemexists (indexes : NominalIndexes) (stem endkeys : Bytes) : Bytes × Option Bytes :=
  let checked := chckNominalStem indexes stem
  (checked.1, checked.2.bind fun stemkeys =>
    let common := comstemtypes checked.1 stemkeys endkeys
    if common.2 then some common.1 else none)

section
variable {σ : Type} (check : EntryCheck σ)

/-- `StemWorks`: every key of a list is tried, and the hits are added up. -/
def stemWorks (gkword : GkWord) (state : σ) (possstem : GkString) (posskey : Bytes) :
    GkWord × σ × ℕ :=
  (keyWords (xstrncpy posskey 16384)).foldl (fun result curkey =>
    let tried := check result.1 result.2.1 possstem curkey
    (tried.1, tried.2.1, result.2.2 + tried.2.2)) (gkword, state, 0)

/-- `gotnom`: the stem and the ending of the word are looked up without their accents. The ending
loses them in the word, the stem only in a copy. -/
def gotnom (indexes : NominalIndexes) (gkword : GkWord) (state : σ) : GkWord × σ × ℕ :=
  let gkword := { gkword with
    endstring := { gkword.endstring with gkstring := stripacc gkword.endstring.gkstring } }
  let curend := xstrncpy gkword.endstring.gkstring maxWordSize
  let found := chcknend indexes curend []
  if found.1 = 0 then (gkword, state, 0)
  else
    let curstem := stripacc (xstrncpy gkword.stem.gkstring maxWordSize)
    match stemexists indexes curstem found.2 with
    | (_, none) => (gkword, state, 0)
    | (curstem, some stemkeys) =>
      stemWorks check gkword state { GkString.zero with gkstring := curstem } stemkeys

/-- The word with a stem and an ending. -/
def setHalves (gkword : GkWord) (stem ending : Bytes) : GkWord :=
  { gkword with
    stem := { gkword.stem with gkstring := stem }
    endstring := { gkword.endstring with gkstring := ending } }

/-- The loop of `checkregnom` over the places of a word: what is in front of the place, and what
is behind. -/
def checkregnomLoop (indexes : NominalIndexes) :
    (half1 wp : Bytes) → GkWord → σ → ℕ → GkWord × σ × ℕ
  | _, [], gkword, state, rval => (gkword, state, rval)
  | half1, c :: wp, gkword, state, rval =>
    let tried := gotnom check indexes (setHalves gkword half1 (c :: wp)) state
    checkregnomLoop indexes (half1 ++ [c]) wp tried.1 tried.2.1 (rval + tried.2.2)

/-- `checkregnom`: the whole word as a stem with no ending, then the word split at every place. -/
def checkregnom (indexes : NominalIndexes) (gkword : GkWord) (state : σ) : GkWord × σ × ℕ :=
  let workword := xstrncpy gkword.workword maxWordSize
  let tried := gotnom check indexes (setHalves gkword workword zeroEnd) state
  checkregnomLoop check indexes [] workword tried.1 tried.2.1 tried.2.2

/-- `checknom` -/
def checknom (indexes : NominalIndexes) (prntflags : UInt32) (gkword : GkWord) (state : σ) :
    GkWord × σ × ℕ :=
  if prntflags &&& verbsOnly ≠ 0 then (gkword, state, 0) else checkregnom check indexes gkword state

end

/-- What is offered for a stem and an ending. -/
def splitOffers (indexes : NominalIndexes) (stem ending : Bytes) : List EntryOffer :=
  let found := chcknend indexes (xstrncpy (stripacc ending) maxWordSize) []
  if found.1 = 0 then []
  else
    let shared := stemexists indexes (stripacc (xstrncpy stem maxWordSize)) found.2
    (shared.2.elim [] fun stemkeys => keyWords (xstrncpy stemkeys 16384)).map fun curkey =>
      ⟨stripacc ending, shared.1, curkey⟩

/-- What is offered for the places of a word from one place on. -/
def placeOffers (indexes : NominalIndexes) : (half1 wp : Bytes) → List EntryOffer
  | _, [] => []
  | half1, c :: wp =>
    splitOffers indexes half1 (c :: wp) ++ placeOffers indexes (half1 ++ [c]) wp

/-- What is offered for a word. -/
def wordOffers (indexes : NominalIndexes) (workword : Bytes) : List EntryOffer :=
  splitOffers indexes workword zeroEnd ++ placeOffers indexes [] workword

/-- The result of a search that has also written down what was offered. -/
def withOffers {σ : Type} (result : GkWord × σ × ℕ) (offers : List EntryOffer) :
    GkWord × (σ × List EntryOffer) × ℕ :=
  (result.1, (result.2.1, offers), result.2.2)

section
variable {σ : Type} {check : EntryCheck σ} (hkeeps : check.KeepsEnding)
include hkeeps

theorem stemWorks_logged (gkword : GkWord) (state : σ) (offers : List EntryOffer)
    (possstem : GkString) (posskey : Bytes) :
    stemWorks check.logged gkword (state, offers) possstem posskey =
      withOffers (stemWorks check gkword state possstem posskey)
        (offers ++ (keyWords (xstrncpy posskey 16384)).map fun curkey =>
          ⟨gkword.endstring.gkstring, possstem.gkstring, curkey⟩) := by
  unfold stemWorks
  generalize keyWords (xstrncpy posskey 16384) = keys
  suffices h : ∀ (hits : ℕ), keys.foldl (fun result curkey =>
      let tried := check.logged result.1 result.2.1 possstem curkey
      (tried.1, tried.2.1, result.2.2 + tried.2.2)) (gkword, (state, offers), hits) =
      withOffers (keys.foldl (fun result curkey =>
        let tried := check result.1 result.2.1 possstem curkey
        (tried.1, tried.2.1, result.2.2 + tried.2.2)) (gkword, state, hits))
      (offers ++ keys.map fun curkey => ⟨gkword.endstring.gkstring, possstem.gkstring, curkey⟩) from
    h 0
  intro hits
  induction keys generalizing gkword state offers hits with
  | nil => simp [withOffers]
  | cons key keys ih =>
    have hending := hkeeps gkword state possstem key
    rw [List.foldl_cons, List.foldl_cons]
    simp only [EntryCheck.logged] at ih ⊢
    rw [ih, hending, List.map_cons, List.append_assoc, List.singleton_append]

theorem gotnom_logged (indexes : NominalIndexes) (gkword : GkWord) (state : σ)
    (offers : List EntryOffer) :
    gotnom check.logged indexes gkword (state, offers) =
      withOffers (gotnom check indexes gkword state)
        (offers ++ splitOffers indexes gkword.stem.gkstring gkword.endstring.gkstring) := by
  unfold gotnom splitOffers
  dsimp only
  split_ifs with hfound
  · simp [withOffers]
  · rcases hshared : stemexists indexes (stripacc (xstrncpy gkword.stem.gkstring maxWordSize))
      (chcknend indexes (xstrncpy (stripacc gkword.endstring.gkstring) maxWordSize) []).2 with
      ⟨curstem, _ | stemkeys⟩
    · simp [withOffers]
    · exact stemWorks_logged hkeeps _ _ _ _ _

theorem checkregnomLoop_logged (indexes : NominalIndexes) (half1 wp : Bytes) (gkword : GkWord)
    (state : σ) (offers : List EntryOffer) (rval : ℕ) :
    checkregnomLoop check.logged indexes half1 wp gkword (state, offers) rval =
      withOffers (checkregnomLoop check indexes half1 wp gkword state rval)
        (offers ++ placeOffers indexes half1 wp) := by
  induction wp generalizing half1 gkword state offers rval with
  | nil => simp [checkregnomLoop, placeOffers, withOffers]
  | cons c wp ih =>
    rw [checkregnomLoop, gotnom_logged hkeeps]
    simp only [withOffers] at ih ⊢
    rw [ih, checkregnomLoop, placeOffers, List.append_assoc]
    rfl

/-- The search does the same when what it offers is written down, and it offers the entries of the
word's splits one after the other. -/
theorem checkregnom_logged (indexes : NominalIndexes) (gkword : GkWord) (state : σ)
    (offers : List EntryOffer) :
    checkregnom check.logged indexes gkword (state, offers) =
      withOffers (checkregnom check indexes gkword state)
        (offers ++ wordOffers indexes (xstrncpy gkword.workword maxWordSize)) := by
  rw [checkregnom, gotnom_logged hkeeps]
  simp only [withOffers]
  rw [checkregnomLoop_logged hkeeps, wordOffers, List.append_assoc]
  rfl

end

/-- The records of which the indexes of nominal endings and stems are made, as they are sorted:
endings with the names of their stem types, stems with entries. -/
structure NominalTables where
  endings : List IndexRecord
  stems : List IndexRecord
  endings_sorted : LinesAscend comptab 9 endings
  stems_sorted : LinesAscend comptab 32 stems
  endings_ok : ∀ r ∈ endings, r.WellFormed
  stems_ok : ∀ r ∈ stems, r.WellFormed
  stems_entry : ∀ r ∈ stems, ∃ entry : StemEntry, r.text = entry.text
  endings_count : endings.length ≤ maxEndTable
  endings_short : ∀ line ∈ mergeLines comptab endings, line.text.length < longString
  stems_short : ∀ line ∈ mergeLines comptab stems, line.text.length < longString
  stems_size : (joinLines (mergeLines comptab stems)).length < UInt32.size
  stems_comment : ∀ r ∈ stems, ∃ q ∈ stems, q.tag.head? ≠ some 35

namespace NominalTables
variable (tables : NominalTables)

/-- The indexes are those that are written of the tables and loaded again. -/
structure Indexes (indexes : NominalIndexes) : Prop where
  endings : ∃ file, writeEndIndex (tables.endings.map (·.line 9)) = some file ∧
    initEndind file = some indexes.endings
  stems : ∃ indfreq preindex, 0 < indfreq ∧
    doIndex (tables.stems.map (·.line 32)) indfreq = some (indexes.file, preindex) ∧
    initPreind preindex = some indexes.tags

/-- An ending that matches has a name in which the stem type of an entry occurs. -/
def Joins (ending key : Bytes) : Prop :=
  ∃ e ∈ tables.endings, morphstrcmp e.tag ending = 0 ∧
    wantcurstemtype (setstemvars key).cstemtype e.text = true

instance (ending key : Bytes) : Decidable (tables.Joins ending key) :=
  List.decidableBEx (fun e : IndexRecord => morphstrcmp e.tag ending = 0 ∧
    wantcurstemtype (setstemvars key).cstemtype e.text = true) tables.endings

/-- The entry of a stem as `comstemtypes` keeps it. -/
def keptKey (stem key : Bytes) : Bytes := (keptTexts [] stem (setstemvars key)).flatten

/-- The entries that a stem and an ending have in common, in the order of the stem records. -/
def commonKeys (stem ending : Bytes) : List Bytes :=
  ((mergedKeys comptab stem tables.stems).filter fun key => tables.Joins ending key).map
    (keptKey stem)

/-- The entries offered for a stem and an ending: all they have in common, or none when these are
too long for the buffer. -/
def offered (stem ending : Bytes) : List Bytes :=
  if (joinKeys (tables.commonKeys stem ending)).length < longString then
    tables.commonKeys stem ending
  else []

end NominalTables

/-- A key of a tag makes a line that has it. -/
theorem exists_line_of_mergedKeys {table : List IndexRecord} {s : Bytes}
    (htags : TagsAscend comptab table) (h : mergedKeys comptab s table ≠ []) :
    ∃ line ∈ mergeLines comptab table, rank comptab line.tag = rank comptab s ∧
      line.keys = mergedKeys comptab s table := by
  obtain ⟨key, hkey⟩ := List.exists_mem_of_ne_nil _ h
  obtain ⟨r, hr, hrank, -⟩ := mem_mergedKeys.mp hkey
  obtain ⟨line, hline, hlr⟩ := exists_line_of_mem comptab table r hr
  refine ⟨line, hline, hlr.trans hrank, ?_⟩
  rw [mergeLines_keys htags line hline, mergedKeys, mergedKeys, hasTag_congr (hlr.trans hrank)]

/-- A tag without keys has no line. -/
theorem no_line_of_mergedKeys {table : List IndexRecord} {s : Bytes}
    (h : mergedKeys comptab s table = []) :
    ∀ line ∈ mergeLines comptab table, rank comptab line.tag ≠ rank comptab s := by
  intro line hline hrank
  obtain ⟨r, hr, htag⟩ := exists_record_of_mem_mergeLines table line hline
  have hmem := mem_mergedKeys.mpr ⟨r, hr, (congrArg (rank comptab) htag).trans hrank, rfl⟩
  rw [h] at hmem
  cases hmem

section
variable {tables : NominalTables} {indexes : NominalIndexes} (h : tables.Indexes indexes)
include h

/-- The search of the nominal endings finds the names of the records of an ending. -/
theorem checkendind_nominal {s : Bytes} (hs : NoBlanks s) (hlen : s.length + 1 < maxWordSize)
    (keys : Bytes) : checkendind morphstrncmp indexes.endings s keys =
      if mergedKeys comptab s tables.endings = [] then (0, [])
      else (1, joinKeys (mergedKeys comptab s tables.endings)) := by
  have htags := tables.endings_sorted.tagsAscend blankBelow_comptab (by decide) (by decide)
    tables.endings_ok
  have hlines := mergeLines_wellFormed tables.endings_ok htags
  obtain ⟨file, hfile, hload⟩ := h.endings
  rw [writeEndIndex_eq tables.endings_ok, Option.some.injEq] at hfile
  subst hfile
  rw [initEndind_eq tables.endings_ok htags tables.endings_count, Option.some.injEq] at hload
  rw [← hload]
  by_cases hnone : mergedKeys comptab s tables.endings = []
  · rw [if_pos hnone]
    apply checkendind_missing hlen
    intro text htext
    split at htext
    · rw [List.mem_singleton.mp htext]
      have hsn : NulFree (s ++ [32]) := by simp [hs.nulFree]
      rw [morphstrncmp, strncmpBy_eq blankBelow_comptab.separatesNul _ hsn nulFree_nil,
        List.take_length, List.take_nil, ne_eq,
        strcmpBy_eq_zero blankBelow_comptab.separatesNul hsn nulFree_nil]
      simp
    · obtain ⟨line, hline, rfl⟩ := List.mem_map.mp htext
      obtain ⟨hneg, hpos⟩ := compare_ending hs (hlines line hline)
      intro hzero
      apply no_line_of_mergedKeys hnone line hline
      apply le_antisymm
      · exact not_lt.mp fun hlt => (hneg.mpr hlt).ne hzero
      · exact not_lt.mp fun hlt => (hpos.mpr hlt).ne' hzero
  · obtain ⟨line, hline, hrank, hkeys⟩ := exists_line_of_mergedKeys htags hnone
    have hne : tables.endings ≠ [] := by
      intro hnil
      rw [hnil] at hline
      cases hline
    rw [if_neg hnone, if_neg hne, checkendind_found hs hlen hlines (mergeLines_ascend htags) hline
      hrank (tables.endings_short line hline), hkeys]

/-- The lookup of a stem finds its entries, up to the newline of their line. -/
theorem lookupStem_nominal {s : Bytes} (hs : IsWord s) :
    ∃ newline, (newline = [] ∨ newline = [10]) ∧ lookupStem indexes.tags indexes.file s =
      if mergedKeys comptab s tables.stems = [] then none
      else some (joinKeys (mergedKeys comptab s tables.stems) ++ newline) := by
  have htags := tables.stems_sorted.tagsAscend blankBelow_comptab (by decide) (by decide)
    tables.stems_ok
  have hlines := mergeLines_wellFormed tables.stems_ok htags
  have hbuf := lineBuffers_buffered (mergeLines comptab tables.stems)
  obtain ⟨indfreq, preindex, hfreq, hindex, hload⟩ := h.stems
  obtain ⟨preindex', samples, hindex', hload', hnil, hsamples, hpair⟩ := doIndex_samples
    tables.stems_sorted tables.stems_ok tables.stems_short tables.stems_size tables.stems_comment
    hfreq
  obtain ⟨hfile, rfl⟩ := Prod.mk.inj (Option.some.inj (hindex.symm.trans hindex'))
  rw [hfile, Option.some.inj (hload.symm.trans hload')]
  by_cases hempty : samples = []
  · rw [hnil hempty, hempty]
    exact ⟨[], .inl rfl, by simp [mergedKeys, lookupStem, chckPreIndex, binlook]⟩
  · obtain ⟨before, rest, before', rest', hsplit, hsplit', hlen, hchck, hbelow⟩ :=
      chckPreIndex_locates hempty hsamples hpair hs.nulFree
    have hrest : List.Forall₂ Buffered rest rest' := by
      have hdrop := List.forall₂_drop before.length hbuf
      rw [hsplit', hsplit] at hdrop
      rwa [List.drop_left, ← hlen, List.drop_left] at hdrop
    have hmem : ∀ l ∈ rest, l ∈ mergeLines comptab tables.stems := fun l hl =>
      hsplit ▸ List.mem_append_right before hl
    have hwf : ∀ l ∈ rest, l.WellFormed := fun l hl => hlines l (hmem l hl)
    have hlook : lookupStem (samples.map PreRecord.endTag)
        (joinLines (mergeLines comptab tables.stems)) s = scanIndex s rest' := by
      have hbuffers := lineBuffers_fileLines hlines tables.stems_short
      rw [hsplit'] at hbuffers
      have hget := fgetsLines_of_fileLines (hbuffers.of_append.mono
        (by decide : longString * 4 ≤ 32768))
      rw [← lineBuffers_flatten, hsplit', lookupStem, hchck]
      simp only [Option.bind_eq_bind, Option.bind_some, chckFullIndex]
      rw [List.flatten_append, List.drop_left, hget, map_cstr_of_buffered hrest hwf]
    rw [hlook]
    by_cases hnone : mergedKeys comptab s tables.stems = []
    · have hno := no_line_of_mergedKeys hnone
      refine ⟨[], .inl rfl, ?_⟩
      rw [if_pos hnone]
      exact scanIndex_missing hs hrest hwf fun l hl => hno l (hmem l hl)
    · obtain ⟨line, hline, hrank, hkeys⟩ := exists_line_of_mergedKeys htags hnone
      have hin : line ∈ rest := by
        rw [hsplit, List.mem_append] at hline
        exact hline.resolve_left fun hl => (hbelow line hl).ne hrank
      have hasc := mergeLines_ascend htags
      rw [hsplit] at hasc
      obtain ⟨newline, hnewline, hscan⟩ := scanIndex_found hs hrest hwf
        (List.pairwise_append.mp hasc).2.1 hin hrank (tables.stems_short line (hmem line hin))
      refine ⟨newline, hnewline, ?_⟩
      rw [hscan, if_neg hnone, hkeys]

end

/-- A text without blanks stands in one of two texts with a blank between them. -/
theorem infix_separated {t a b : Bytes} (ht : 32 ∉ t) (hne : t ≠ []) :
    t <:+: a ++ 32 :: b ↔ t <:+: a ∨ t <:+: b := by
  constructor
  · intro h
    rcases List.infix_append_iff.mp h with ha | hb | ⟨u, v, rfl, hu, hv⟩
    · exact .inl ha
    · rcases List.infix_cons_iff.mp hb with hstart | hb
      · rcases List.prefix_cons_iff.mp hstart with rfl | ⟨rest, rfl, -⟩
        · exact absurd rfl hne
        · simp at ht
      · exact .inr hb
    · rcases List.prefix_cons_iff.mp hv with rfl | ⟨rest, rfl, -⟩
      · rw [List.append_nil]
        exact .inl hu.isInfix
      · simp at ht
  · rintro (ha | hb)
    · exact ha.trans ⟨[], 32 :: b, by simp⟩
    · exact hb.trans ⟨a ++ [32], [], by simp⟩

theorem infix_joinKeys {t : Bytes} (ht : 32 ∉ t) (hne : t ≠ []) (keys : List Bytes) :
    t <:+: joinKeys keys ↔ ∃ key ∈ keys, t <:+: key := by
  induction keys with
  | nil =>
    have hnil : joinKeys [] = [] := rfl
    simp [hnil, hne]
  | cons key keys ih =>
    cases keys with
    | nil => simp [joinKeys, List.intercalate]
    | cons next keys =>
      have hjoin : joinKeys (key :: next :: keys) = key ++ 32 :: joinKeys (next :: keys) := by
        simp [joinKeys, List.intercalate]
      rw [hjoin, infix_separated ht hne, ih]
      simp

/-- The newline at the end of a list is no word. -/
theorem keyWords_newline (n : ℕ) (s : Bytes) (hn : s.length ≤ n) :
    keyWords (s ++ [10]) = keyWords s := by
  induction n generalizing s with
  | zero =>
    obtain rfl := List.length_eq_zero_iff.mp (Nat.le_zero.mp hn)
    decide +kernel
  | succ n ih =>
    have hspace : [10].dropWhile isSpace = [] := by decide
    rw [← keyWords_skip (s ++ [10]), ← keyWords_skip s, List.dropWhile_append, hspace]
    cases hstart : s.dropWhile isSpace with
    | nil => rfl
    | cons c t =>
      have hc : isSpace c = false := by
        have hhead := List.head?_dropWhile_not isSpace s
        rw [hstart] at hhead
        simpa using hhead
      have hle : (c :: t).length ≤ s.length := hstart ▸ (List.dropWhile_suffix _).length_le
      have hless := nextEntry_length (List.cons_ne_nil c t)
      have hnext : keyWords (nextEntry (c :: t ++ [10])) = keyWords (nextEntry (c :: t)) := by
        have hrest := ih (nextEntry (c :: t)) (by omega)
        unfold nextEntry at hrest ⊢
        rw [List.dropWhile_append]
        split_ifs with hall
        · rw [List.isEmpty_iff.mp hall]
          rfl
        · rw [List.dropWhile_append, hspace]
          split_ifs with hgap
          · rw [List.isEmpty_iff.mp hgap]
          · exact hrest
      have htake : ((c :: t ++ [10]).takeWhile fun d => !isSpace d) =
          (c :: t).takeWhile fun d => !isSpace d := by
        rw [List.takeWhile_append]
        split_ifs with hall
        · rw [(List.takeWhile_prefix _).eq_of_length hall]
          exact List.append_nil _
        · rfl
      have hwords := keyWords_word (s := c :: t ++ [10]) rfl hc
      rw [List.isEmpty_cons, if_neg Bool.false_ne_true, hwords, htake, hnext,
        keyWords_word (s := c :: t) rfl hc]

theorem StemEntry.text_isKeyWord (entry : StemEntry) : IsKeyWord entry.text := by
  have hfield : ∀ {field : Bytes}, field.all isFieldByte = true → ∀ c ∈ field, isSpace c = false :=
    fun h c hc => (isFieldByte_iff.mp (List.all_eq_true.mp h c hc)).2
  have hkeys : ∀ c ∈ entry.vars.cstemkeys, isSpace c = false := by
    intro c hc
    simpa using List.all_eq_true.mp entry.keys_bytes c hc
  refine ⟨by simp [text], fun c hc => ?_⟩
  simp only [text, List.mem_append, List.mem_cons] at hc
  rcases hc with hc | rfl | hc | rfl | hc | rfl | hc
  · exact hfield entry.stem_bytes c hc
  · exact colon_not_space
  · exact hfield entry.lemma_bytes c hc
  · exact colon_not_space
  · exact hfield entry.type_bytes c hc
  · exact colon_not_space
  · exact hkeys c hc

theorem StemEntry.kept_isKeyWord (entry : StemEntry) {stem : Bytes} (hs : NoBlanks stem) :
    IsKeyWord (entry.kept stem) := by
  have htext := entry.text_isKeyWord.2
  refine ⟨entry.kept_ne_nil stem, fun c hc => ?_⟩
  simp only [kept, List.mem_append, List.mem_cons] at hc
  rcases hc with hc | rfl | hc | rfl | hc
  · exact htext c (by simp [text, hc])
  · exact colon_not_space
  · split_ifs at hc
    · exact htext c (by simp [text, hc])
    · exact not_isSpace_of_lt (hs c hc)
  · exact colon_not_space
  · exact htext c (by simp only [text, List.mem_append, List.mem_cons]; tauto)

theorem StemEntry.setstemvars_text (entry : StemEntry) :
    Morpheus.setstemvars entry.text = entry.vars := by
  rw [← List.append_nil entry.text, entry.setstemvars (by simp)]

theorem NominalTables.keptKey_text (stem : Bytes) (entry : StemEntry) :
    keptKey stem entry.text = entry.kept stem := by
  have h := keptTexts_flatten [] stem entry
  rw [List.nil_append] at h
  rw [keptKey, entry.setstemvars_text, h]
  rfl

section
variable {tables : NominalTables} {indexes : NominalIndexes}

/-- The entries of a stem. -/
theorem NominalTables.exists_entries (tables : NominalTables) (stem : Bytes) :
    ∃ entries : List StemEntry, mergedKeys comptab stem tables.stems =
      entries.map StemEntry.text := by
  have h : mergedKeys comptab stem tables.stems ∈ Set.range (List.map StemEntry.text) := by
    rw [Set.range_list_map]
    intro key hkey
    obtain ⟨r, hr, -, rfl⟩ := mem_mergedKeys.mp hkey
    obtain ⟨entry, hentry⟩ := tables.stems_entry r hr
    exact ⟨entry, hentry.symm⟩
  obtain ⟨entries, hentries⟩ := h
  exact ⟨entries, hentries.symm⟩

/-- The names found for an ending hold a stem type exactly when one of its records does. -/
theorem NominalTables.joins_iff {ending : Bytes} (hs : NoBlanks ending) (entry : StemEntry) :
    tables.Joins ending entry.text ↔
      wantcurstemtype entry.vars.cstemtype
        (joinKeys (mergedKeys comptab ending tables.endings)) = true := by
  rw [Joins, entry.setstemvars_text, wantcurstemtype_iff]
  simp only [wantcurstemtype_iff]
  have hblank : 32 ∉ entry.vars.cstemtype := by
    intro hmem
    have h := (isFieldByte_iff.mp (List.all_eq_true.mp entry.type_bytes 32 hmem)).2
    exact absurd h (by decide)
  have hrank : ∀ e ∈ tables.endings,
      (morphstrcmp e.tag ending = 0 ↔ rank comptab e.tag = rank comptab ending) := fun e he =>
    strcmpBy_eq_zero blankBelow_comptab.separatesNul (tables.endings_ok e he).1.nulFree hs.nulFree
  constructor
  · rintro ⟨e, he, hzero, hne, hin⟩
    exact ⟨hne, (infix_joinKeys hblank hne _).mpr
      ⟨e.text, mem_mergedKeys.mpr ⟨e, he, (hrank e he).mp hzero, rfl⟩, hin⟩⟩
  · rintro ⟨hne, hin⟩
    obtain ⟨key, hkey, hin⟩ := (infix_joinKeys hblank hne _).mp hin
    obtain ⟨e, he, htag, rfl⟩ := mem_mergedKeys.mp hkey
    exact ⟨e, he, (hrank e he).mpr htag, hne, hin⟩

/-- What a stem and an ending have in common, found through the entries of the stem. -/
theorem NominalTables.commonKeys_eq {stem ending : Bytes} (hending : NoBlanks ending)
    {entries : List StemEntry}
    (hentries : mergedKeys comptab stem tables.stems = entries.map StemEntry.text) :
    tables.commonKeys stem ending = (entries.filter fun entry =>
      wantcurstemtype entry.vars.cstemtype
        (joinKeys (mergedKeys comptab ending tables.endings))).map (StemEntry.kept stem) := by
  rw [commonKeys, hentries, List.filter_map, List.map_map]
  congr 1
  · funext entry
    exact keptKey_text stem entry
  · apply List.filter_congr
    intro entry _
    rw [Function.comp_apply, Bool.eq_iff_iff, decide_eq_true_iff, joins_iff hending]

variable (h : tables.Indexes indexes)
include h

/-- The keys that `stemexists` leaves are those offered for the stem and the ending. -/
theorem stemexists_nominal {stem ending : Bytes} (hs : NoBlanks stem) (hending : NoBlanks ending) :
    (stemexists indexes stem (joinKeys (mergedKeys comptab ending tables.endings))).1 =
        stripdiaer (stripquant stem) ∧
      ((stemexists indexes stem (joinKeys (mergedKeys comptab ending tables.endings))).2.elim []
        fun stemkeys => keyWords (xstrncpy stemkeys 16384)) =
        tables.offered (stripdiaer (stripquant stem)) ending := by
  refine ⟨rfl, ?_⟩
  have hstripped : NoBlanks (stripdiaer (stripquant stem)) := by
    intro c hc
    simp only [stripdiaer, stripquant, striplongmark, stripshortmark, List.mem_filter] at hc
    exact hs c hc.1.1.1
  unfold stemexists chckNominalStem
  dsimp only
  generalize stripdiaer (stripquant stem) = curstem at hstripped ⊢
  obtain ⟨entries, hentries⟩ := tables.exists_entries curstem
  have hcommon := NominalTables.commonKeys_eq hending hentries
  by_cases hnone : mergedKeys comptab curstem tables.stems = []
  · have hlook : (if curstem = [] then none else lookupStem indexes.tags indexes.file curstem) =
        none := by
      split_ifs with hempty
      · rfl
      · obtain ⟨newline, -, hlook⟩ := lookupStem_nominal h ⟨hempty, hstripped⟩
        rw [hlook, if_pos hnone]
    rw [hlook, NominalTables.offered, NominalTables.commonKeys, hnone]
    simp
  · have hempty : curstem ≠ [] := by
      rintro rfl
      obtain ⟨key, hkey⟩ := List.exists_mem_of_ne_nil _ hnone
      obtain ⟨r, hr, hrank, -⟩ := mem_mergedKeys.mp hkey
      exact (tables.stems_ok r hr).1.1 (List.map_eq_nil_iff.mp hrank)
    obtain ⟨newline, hnewline, hlook⟩ := lookupStem_nominal h ⟨hempty, hstripped⟩
    rw [if_neg hempty, hlook, if_neg hnone, Option.bind_some]
    have hwords : keyWords (joinKeys (entries.map StemEntry.text) ++ newline) =
        entries.map StemEntry.text := by
      have hjoin : keyWords (joinKeys (entries.map StemEntry.text)) =
          entries.map StemEntry.text := by
        apply keyWords_joinKeys
        intro word hword
        obtain ⟨entry, -, rfl⟩ := List.mem_map.mp hword
        exact entry.text_isKeyWord
      rcases hnewline with rfl | rfl
      · rw [List.append_nil, hjoin]
      · rw [keyWords_newline _ _ le_rfl, hjoin]
    have hkept : ∀ key ∈ tables.commonKeys curstem ending, IsKeyWord key := by
      intro key hkey
      rw [hcommon] at hkey
      obtain ⟨entry, -, rfl⟩ := List.mem_map.mp hkey
      exact entry.kept_isKeyWord hstripped
    have hsome : (!(entries.filter fun entry => wantcurstemtype entry.vars.cstemtype
        (joinKeys (mergedKeys comptab ending tables.endings))).isEmpty) = true ↔
        tables.commonKeys curstem ending ≠ [] := by
      rw [hcommon, Bool.not_eq_true', List.isEmpty_eq_false_iff, ne_eq, ne_eq, List.map_eq_nil_iff]
    rw [hentries, comstemtypes_found hwords, ← hcommon, NominalTables.offered]
    split_ifs with hfit hfound hfound
    · have hcut := xstrncpy_of_lt (hfit.trans (by decide : longString < 16384))
      dsimp only [Option.elim_some]
      rw [hcut, keyWords_joinKeys hkept]
    · rw [not_not.mp (mt hsome.mpr hfound)]
      rfl
    · cases hfound
    · rfl

/-- A stem without accents, quantities and diaereses. -/
def bareStem (stem : Bytes) : Bytes := stripdiaer (stripquant (stripacc stem))

omit h in
theorem NoBlanks.stripacc {s : Bytes} (hs : NoBlanks s) : NoBlanks (stripacc s) := by
  intro c hc
  exact hs c (List.mem_filter.mp hc).1

theorem splitOffers_nominal {stem ending : Bytes} (hs : NoBlanks stem) (hending : NoBlanks ending)
    (hstem : stem.length < maxWordSize) (hlen : ending.length + 1 < maxWordSize) :
    splitOffers indexes stem ending =
      (tables.offered (bareStem stem) (stripquant (stripacc ending))).map fun key =>
        ⟨stripacc ending, bareStem stem, key⟩ := by
  have hacc : (stripacc ending).length ≤ ending.length := List.length_filter_le _ _
  have hquant : (stripquant (stripacc ending)).length ≤ (stripacc ending).length :=
    (List.length_filter_le _ _).trans (List.length_filter_le _ _)
  have hcut := xstrncpy_of_lt (show (stripacc ending).length < maxWordSize by omega)
  have hcut' := xstrncpy_of_lt (show (stripacc ending).length < maxWordSize + 1 by omega)
  have hblanks : NoBlanks (stripquant (stripacc ending)) := by
    intro c hc
    simp only [stripquant, striplongmark, stripshortmark, List.mem_filter] at hc
    exact hending.stripacc c hc.1.1
  unfold splitOffers chcknend
  rw [hcut, hcut', xstrncpy_of_lt hstem, checkendind_nominal h hblanks (by omega)]
  obtain ⟨hbare, hkeys⟩ := stemexists_nominal h hs.stripacc hblanks
  by_cases hnone : mergedKeys comptab (stripquant (stripacc ending)) tables.endings = []
  · have hjoins : ∀ key, ¬ tables.Joins (stripquant (stripacc ending)) key := by
      rintro key ⟨e, he, hzero, -⟩
      have hrank := (strcmpBy_eq_zero blankBelow_comptab.separatesNul
        (tables.endings_ok e he).1.nulFree hblanks.nulFree).mp hzero
      have hmem := mem_mergedKeys.mpr ⟨e, he, hrank, rfl⟩
      rw [hnone] at hmem
      cases hmem
    rw [if_pos hnone, NominalTables.offered, NominalTables.commonKeys]
    simp [hjoins]
  · rw [if_neg hnone]
    dsimp only
    rw [if_neg one_ne_zero, hkeys, hbare]
    rfl

/-- The ways to split a word into a stem and an ending: with no ending first, then with every
ending of the word. -/
def wordSplits (workword : Bytes) : List (Bytes × Bytes) :=
  (workword, zeroEnd) :: (List.range workword.length).map fun i => (workword.take i, workword.drop i)

omit h in
theorem placeOffers_eq (half1 wp : Bytes) :
    placeOffers indexes half1 wp = (List.range wp.length).flatMap fun i =>
      splitOffers indexes (half1 ++ wp.take i) (wp.drop i) := by
  induction wp generalizing half1 with
  | nil => rfl
  | cons c wp ih =>
    rw [placeOffers, ih, List.length_cons, List.range_succ_eq_map, List.flatMap_cons,
      List.flatMap_map]
    simp

omit h in
theorem noBlanks_zeroEnd : NoBlanks zeroEnd := by
  intro c hc
  rw [List.mem_singleton.mp hc]
  decide

theorem wordOffers_nominal {workword : Bytes} (hword : NoBlanks workword)
    (hlen : workword.length + 1 < maxWordSize) :
    wordOffers indexes workword = (wordSplits workword).flatMap fun split =>
      (tables.offered (bareStem split.1) (stripquant (stripacc split.2))).map fun key =>
        ⟨stripacc split.2, bareStem split.1, key⟩ := by
  rw [wordOffers, wordSplits, placeOffers_eq, List.flatMap_cons, List.flatMap_map,
    splitOffers_nominal h hword noBlanks_zeroEnd (by omega) (by decide)]
  congr 1
  apply List.flatMap_congr
  intro i _
  apply splitOffers_nominal h
  · exact fun c hc => hword c (List.mem_of_mem_take hc)
  · exact fun c hc => hword c (List.mem_of_mem_drop hc)
  · rw [List.nil_append, List.length_take]
    omega
  · rw [List.length_drop]
    omega

end

section
variable {σ : Type} {check : EntryCheck σ} {P : GkWord → σ → Prop}
  (hhalves : ∀ gkword state stem ending, P gkword state →
    P { gkword with stem := stem, endstring := ending } state)
  (hstep : ∀ gkword state stem stemkeys, P gkword state →
    P (check gkword state stem stemkeys).1 (check gkword state stem stemkeys).2.1)
include hstep

theorem stemWorks_keeps {gkword : GkWord} {state : σ} (hP : P gkword state) (possstem : GkString)
    (posskey : Bytes) : P (stemWorks check gkword state possstem posskey).1
      (stemWorks check gkword state possstem posskey).2.1 := by
  unfold stemWorks
  generalize keyWords (xstrncpy posskey 16384) = keys
  generalize 0 = hits
  induction keys generalizing gkword state hits with
  | nil => exact hP
  | cons key keys ih => exact ih (hstep gkword state possstem key hP) _

include hhalves

theorem gotnom_keeps (indexes : NominalIndexes) {gkword : GkWord} {state : σ} (hP : P gkword state) :
    P (gotnom check indexes gkword state).1 (gotnom check indexes gkword state).2.1 := by
  have hending := fun ending => hhalves gkword state gkword.stem ending hP
  unfold gotnom
  dsimp only
  split
  · exact hending _
  · split
    · exact hending _
    · exact stemWorks_keeps hstep (hending _) _ _

theorem checkregnomLoop_keeps (indexes : NominalIndexes) (half1 wp : Bytes) {gkword : GkWord}
    {state : σ} (hP : P gkword state) (rval : ℕ) :
    P (checkregnomLoop check indexes half1 wp gkword state rval).1
      (checkregnomLoop check indexes half1 wp gkword state rval).2.1 := by
  induction wp generalizing half1 gkword state rval with
  | nil => exact hP
  | cons c wp ih =>
    exact ih _ (gotnom_keeps hhalves hstep indexes (hhalves gkword state _ _ hP)) _

/-- What one entry keeps, and what does not look at the stem and the ending, the search keeps. -/
theorem checkregnom_keeps (indexes : NominalIndexes) {gkword : GkWord} {state : σ}
    (hP : P gkword state) :
    P (checkregnom check indexes gkword state).1 (checkregnom check indexes gkword state).2.1 :=
  checkregnomLoop_keeps hhalves hstep indexes _ _
    (gotnom_keeps hhalves hstep indexes (hhalves gkword state _ _ hP)) _

end

theorem FormGenerator.check_keepsEnding (generator : FormGenerator) :
    generator.check.KeepsEnding := by
  intro gkword store stem stemkeys
  unfold check checkdict
  dsimp only
  split_ifs
  · rfl
  · split
    · rfl
    · split <;> rfl

/-- The search offers to `checkdict` the entries that the stem and the ending of each split of the
word have in common, in the order of the splits and of the stem records, and no others; the
analyses are only added. -/
theorem checkregnom_offers {tables : NominalTables} {indexes : NominalIndexes}
    (h : tables.Indexes indexes) (generator : FormGenerator) (gkword : GkWord)
    (store : AnalysisStore) (hword : NoBlanks gkword.workword)
    (hlen : gkword.workword.length + 1 < maxWordSize) :
    checkregnom generator.check.logged indexes gkword (store, []) =
        withOffers (checkregnom generator.check indexes gkword store)
          ((wordSplits gkword.workword).flatMap fun split =>
            (tables.offered (bareStem split.1) (stripquant (stripacc split.2))).map fun key =>
              ⟨stripacc split.2, bareStem split.1, key⟩) ∧
      store.OnlyAdds (checkregnom generator.check indexes gkword store).2.1 := by
  constructor
  · rw [checkregnom_logged generator.check_keepsEnding, List.nil_append,
      xstrncpy_of_lt (by omega), wordOffers_nominal h hword hlen]
  · have hstart : store.OnlyAdds store := onlyAdds_of_stored rfl
    refine @checkregnom_keeps _ _ (fun _ state => store.OnlyAdds state) (fun _ _ _ _ => id) ?_
      indexes gkword store hstart
    exact fun gkword state stem stemkeys hadds =>
      hadds.trans (checkdict_onlyAdds generator gkword state stem stemkeys)

/-- A stem with its entry, and an ending of its stem type. -/
def logosTables : NominalTables where
  endings := [⟨ascii "os", ascii "os_ou"⟩]
  stems := [⟨ascii "log", ascii ":lo/gos:os_ou:masc"⟩]
  endings_sorted := by decide
  stems_sorted := by decide
  endings_ok := by
    intro r hr
    rw [List.mem_singleton.mp hr]
    exact ⟨by decide, by decide, by decide, 111, ascii "s_ou", by decide, by decide⟩
  stems_ok := by
    intro r hr
    rw [List.mem_singleton.mp hr]
    exact ⟨by decide, by decide, by decide, 58, ascii "lo/gos:os_ou:masc", by decide, by decide⟩
  stems_entry := by
    intro r hr
    rw [List.mem_singleton.mp hr]
    exact ⟨⟨⟨[], ascii "lo/gos", ascii "os_ou", ascii "masc"⟩, by decide, by decide, by decide,
      by decide, by decide, by decide, by decide, by decide⟩, by decide⟩
  endings_count := by decide
  endings_short := by decide
  stems_short := by decide
  stems_size := by decide +kernel
  stems_comment := fun _ _ => ⟨_, List.mem_singleton_self _, by decide⟩

def logosIndexes : NominalIndexes where
  endings := [ascii "os os_ou"]
  tags := [⟨ascii "log", 0⟩]
  file := ascii "log :lo/gos:os_ou:masc"

def logosWord : GkWord := { GkWord.zero with workword := ascii "lo/gos" }

theorem logos_indexes : logosTables.Indexes logosIndexes :=
  ⟨⟨ascii "os os_ou\n", by decide +kernel, by decide +kernel⟩,
    10, ascii "log" ++ List.replicate 9 0, by decide, by decide +kernel, by decide +kernel⟩

theorem noBlanks_logos : NoBlanks logosWord.workword :=
  List.forall_iff_forall_mem.mp (by decide +kernel : List.Forall (32 < ·) (ascii "lo/gos"))

theorem checkregnom_offers_logos :
    checkregnom silentGenerator.check.logged logosIndexes logosWord (.empty, []) =
        withOffers (checkregnom silentGenerator.check logosIndexes logosWord .empty)
          ((wordSplits logosWord.workword).flatMap fun split =>
            (logosTables.offered (bareStem split.1) (stripquant (stripacc split.2))).map fun key =>
              ⟨stripacc split.2, bareStem split.1, key⟩) ∧
      AnalysisStore.empty.OnlyAdds
        (checkregnom silentGenerator.check logosIndexes logosWord .empty).2.1 :=
  checkregnom_offers logos_indexes silentGenerator logosWord .empty noBlanks_logos (by decide)

/-- The word splits into the stem and the ending with its accent left out. -/
example : (wordSplits (ascii "lo/gos")).flatMap (fun split =>
    (logosTables.offered (bareStem split.1) (stripquant (stripacc split.2))).map fun key =>
      EntryOffer.mk (stripacc split.2) (bareStem split.1) key) =
    [⟨ascii "os", ascii "log", ascii "lo/gos:log:os_ou:masc"⟩] := by decide +kernel

end Morpheus
