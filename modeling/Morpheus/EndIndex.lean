import Morpheus.BinarySearch
import Morpheus.GkString
import Morpheus.IndexLines
import Morpheus.PreIndex

/-!
# The ending index

`indexendtables_from_list` merges the endings of the compiled tables into an index,
`init_endind` splits it into lines and `checkendind` searches them.
-/
namespace Morpheus

/-- `MAX_END_TABLE` -/
def maxEndTable : ℕ := 20000

/-- `stripdiaer` -/
def stripdiaer (word : Bytes) : Bytes := word.filter (· ≠ 43)

/-- `Is_accent` -/
def isAccent (c : Byte) : Bool := c = 47 ∨ c = 92 ∨ c = 61

/-- `stripacc`; the syllable it returns is not used here. -/
def stripacc (word : Bytes) : Bytes := word.filter fun c => !isAccent c

/-- `stripshortmark` -/
def stripshortmark (word : Bytes) : Bytes := word.filter (· ≠ 94)

/-- `striplongmark` -/
def striplongmark (word : Bytes) : Bytes := word.filter (· ≠ 95)

/-- `stripquant` -/
def stripquant (word : Bytes) : Bytes := striplongmark (stripshortmark word)

/-- `nextkey`: the first word of a list and the list after it. -/
def nextkey (keylist : Bytes) : Bytes × Bytes :=
  let start := keylist.dropWhile isSpace
  if start = [] then ([], keylist)
  else (start.takeWhile fun c => !isSpace c,
    (start.dropWhile fun c => !isSpace c).dropWhile isSpace)

/-- The string under which an ending is indexed: without accents, quantities and diaereses,
and without a final asterisk. -/
def indexedEnding (ending : Bytes) : Bytes :=
  let sp := stripquant (stripacc (stripdiaer ending))
  if sp ≠ [] ∧ sp.head? ≠ some 42 ∧ sp.getLast? = some 42 then sp.dropLast else sp

section
variable (nameOfStemtype : UInt32 → Bytes) (sprintGkFlags : GkString → Bytes)

/-- The record of an ending that a table holds; endings that are empty are left out. The names
of stem types are those of the key tables, the flags those of `SprintGkFlags`. -/
def endingRecord (isDeriv : Bool) (gstr : GkString) : Option IndexRecord :=
  let sp := indexedEnding gstr.gkstring
  if sp = [] then none
  else if isDeriv then
    some ⟨sp, (if sp ≠ gstr.gkstring then gstr.gkstring else []) ++
      sprintGkFlags { gstr with gkstring := sp }⟩
  else some ⟨sp, nameOfStemtype gstr.stemtype⟩

/-- The records of the endings of all tables. They must fit the buffer `tmp`, in which
`SprintGkFlags` stays by itself, and the table of endings. -/
def collectEndings (isDeriv : Bool) (tables : List (List GkString)) :
    Option (List IndexRecord) :=
  let records := tables.flatten.filterMap (endingRecord nameOfStemtype sprintGkFlags isDeriv)
  if records.any (fun r => (r.line 9).length ≥ longString * 8) then none
  else if records.length > maxEndTable then none
  else some records

end

/-- What `indexendtables_from_list` writes of the strings that `qsort` has sorted. -/
def writeEndIndex (endlines : List Bytes) : Option Bytes := do
  let out ← mergeLoop morphstrcmp (fun s => some (nextkey s)) [] [] endlines
  some (out ++ [10])

/-- The lines of a loaded index. The newline at its end begins no line. -/
def endLines : Bytes → Bytes → List Bytes
  | line, [] => [cstr line]
  | line, c :: rest =>
    if c = 10 then cstr line :: (if rest = [] then [] else endLines [] rest)
    else endLines (line ++ [c]) rest

/-- `init_endind` -/
def initEndind (file : Bytes) : Option (List Bytes) :=
  let pointers := if file = [] then [] else endLines [] file
  if pointers.length > intMax then none else some pointers

/-- `checkendind` with the buffer of the keys. -/
def checkendind (scmp : Bytes → Bytes → ℕ → ℤ) (etags : List Bytes) (endstr keys : Bytes) :
    ℤ × Bytes :=
  let curtag := xstrncpy endstr maxWordSize ++ [32]
  if curtag.length ≥ maxWordSize then (0, keys)
  else
    match BinarySearch.search BinarySearch.closedMiddle
        (fun mid => scmp curtag (etags.getD mid []) curtag.length) 0 etags.length with
    | .ok mid => (1, xstrncpy ((etags.getD mid []).drop curtag.length) longString)
    | .error _ => (0, [])

theorem nextkey_line {r : IndexRecord} (h : r.WellFormed) :
    nextkey (r.line 9) = (r.tag, r.text) := by
  have htab : isSpace 9 = true := rfl
  obtain ⟨hstart, htake, hrest⟩ := h.split htab
  have hne : r.line 9 ≠ [] := by simp [IndexRecord.line]
  simp only [nextkey, hstart, if_neg hne, htake, hrest]

/-- Lines that end with newlines are loaded one by one. -/
theorem endLines_eq {text rest line : Bytes} (hn : 10 ∉ text) :
    endLines line (text ++ 10 :: rest) =
      cstr (line ++ text) :: (if rest = [] then [] else endLines [] rest) := by
  induction text generalizing line with
  | nil => simp [endLines]
  | cons c text ih =>
    obtain ⟨hc, hn⟩ : 10 ≠ c ∧ 10 ∉ text := by simpa using hn
    rw [List.cons_append, endLines, if_neg (Ne.symm hc), ih hn]
    simp

theorem endLines_joinLines {lines : List IndexLine} (hne : lines ≠ [])
    (hwf : ∀ l ∈ lines, l.WellFormed) :
    endLines [] (joinLines lines ++ [10]) = lines.map IndexLine.text := by
  induction lines with
  | nil => exact absurd rfl hne
  | cons line rest ih =>
    have hwl := hwf line (by simp)
    have hnul : NulFree line.text := by
      simp [IndexLine.text, hwl.word.nulFree, hwl.nulFree]
    by_cases hrest : rest = []
    · subst hrest
      have hjoin : joinLines [line] = line.text := by simp [joinLines, List.intercalate]
      rw [hjoin, endLines_eq hwl.no_newline, if_pos rfl]
      simp [cstr_of_nulFree hnul]
    · rw [joinLines_cons hrest, List.append_assoc, List.cons_append, endLines_eq hwl.no_newline,
        if_neg (by simp), ih hrest fun l hl => hwf l (by simp [hl])]
      simp [cstr_of_nulFree hnul]

/-- The search compares a string with a line by the line's ending. -/
theorem compare_ending {s : Bytes} (hs : NoBlanks s) {line : IndexLine} (hwf : line.WellFormed) :
    (morphstrncmp (s ++ [32]) line.text (s ++ [32]).length < 0 ↔
        rank comptab s < rank comptab line.tag) ∧
      (0 < morphstrncmp (s ++ [32]) line.text (s ++ [32]).length ↔
        rank comptab line.tag < rank comptab s) := by
  have hsn : NulFree (s ++ [32]) := by simp [hs.nulFree]
  have hln : NulFree line.text := by simp [IndexLine.text, hwf.word.nulFree, hwf.nulFree]
  have hrs : rank comptab (s ++ [32]) = rank comptab s ++ [32] := by
    rw [rank_append]
    rfl
  have hrl : rank comptab line.text =
      rank comptab line.tag ++ 32 :: rank comptab (joinKeys line.keys) := by
    rw [IndexLine.text, rank_append, rank_cons]
    rfl
  have hlen : (s ++ [32]).length = (rank comptab s).length + 1 := by simp
  obtain ⟨hlt, hgt⟩ := Lexicographic.take_separated_lt
    (y := rank comptab (joinKeys line.keys)) (hs.lt_rank blankBelow_comptab)
    (hwf.word.lt_rank blankBelow_comptab)
  rw [morphstrncmp, strncmpBy_eq blankBelow_comptab.separatesNul _ hsn hln, List.take_length,
    strcmpBy_lt blankBelow_comptab.separatesNul hsn (hln.take _),
    strcmpBy_pos blankBelow_comptab.separatesNul hsn (hln.take _), rank_take, hrs, hrl, hlen]
  exact ⟨hlt, hgt⟩

section
variable {lines : List IndexLine} {s keys : Bytes}

private theorem getD_text {i : ℕ} (hi : i < lines.length) :
    (lines.map IndexLine.text).getD i [] = lines[i].text := by
  simp [hi]

private theorem curtag_eq (hlen : s.length + 1 < maxWordSize) :
    xstrncpy s maxWordSize = s := by
  apply List.take_of_length_le
  omega

/-- The search finds the line of an ending. -/
theorem checkendind_found (hs : NoBlanks s) (hlen : s.length + 1 < maxWordSize)
    (hwf : ∀ l ∈ lines, l.WellFormed)
    (hasc : lines.Pairwise fun l m => rank comptab l.tag < rank comptab m.tag)
    {line : IndexLine} (hmem : line ∈ lines) (htag : rank comptab line.tag = rank comptab s)
    (hshort : line.text.length < longString) :
    checkendind morphstrncmp (lines.map IndexLine.text) s keys = (1, joinKeys line.keys) := by
  have hd : BinarySearch.Descending (fun mid => morphstrncmp (s ++ [32])
      ((lines.map IndexLine.text).getD mid []) (s ++ [32]).length) lines.length := by
    intro i j hij hj hle
    dsimp only at hle ⊢
    rw [getD_text (hij.trans hj)] at hle
    rw [getD_text hj, (compare_ending hs (hwf _ (List.getElem_mem hj))).1]
    have hlt := List.pairwise_iff_getElem.mp hasc i j (hij.trans hj) hj hij
    have hgt := (compare_ending hs (hwf _ (List.getElem_mem (hij.trans hj)))).2
    exact (not_lt.mp fun h => hle.not_gt (hgt.mpr h)).trans_lt hlt
  obtain ⟨i, hi, rfl⟩ := List.getElem_of_mem hmem
  have hzero : morphstrncmp (s ++ [32]) ((lines.map IndexLine.text).getD i [])
      (s ++ [32]).length = 0 := by
    rw [getD_text hi]
    obtain ⟨hneg, hpos⟩ := compare_ending hs (hwf _ (List.getElem_mem hi))
    apply le_antisymm
    · exact not_lt.mp fun h => (hpos.mp h).ne htag
    · exact not_lt.mp fun h => (hneg.mp h).ne htag.symm
  have hsearch : BinarySearch.search BinarySearch.closedMiddle _ 0 lines.length = .ok i :=
    BinarySearch.search_complete hd hi hzero
  have hguard : ¬(s ++ [32]).length ≥ maxWordSize := by
    simp
    omega
  have hsl : s.length = lines[i].tag.length := by
    rw [← rank_length comptab, ← htag, rank_length]
  have hdrop : lines[i].text.drop (s ++ [32]).length = joinKeys lines[i].keys := by
    rw [List.length_append, hsl, IndexLine.text]
    simp
  have hcut : xstrncpy (joinKeys lines[i].keys) longString = joinKeys lines[i].keys := by
    apply List.take_of_length_le
    simp only [IndexLine.text, List.length_append, List.length_cons] at hshort
    omega
  simp only [checkendind, curtag_eq hlen, if_neg hguard, List.length_map]
  rw [hsearch]
  dsimp only
  rw [getD_text hi, hdrop, hcut]

/-- The search finds nothing where no line matches. -/
theorem checkendind_missing {etags : List Bytes} (hlen : s.length + 1 < maxWordSize)
    (hne : ∀ line ∈ etags, morphstrncmp (s ++ [32]) line (s ++ [32]).length ≠ 0) :
    checkendind morphstrncmp etags s keys = (0, []) := by
  have hguard : ¬(s ++ [32]).length ≥ maxWordSize := by
    simp
    omega
  simp only [checkendind, curtag_eq hlen, if_neg hguard]
  cases hsearch : BinarySearch.search BinarySearch.closedMiddle (fun mid =>
      morphstrncmp (s ++ [32]) (etags.getD mid []) (s ++ [32]).length) 0 etags.length with
  | error low => rfl
  | ok mid =>
    obtain ⟨-, hmid, hzero⟩ := BinarySearch.search_found hsearch
    rw [List.getD_eq_getElem?_getD, List.getElem?_eq_getElem hmid] at hzero
    exact absurd hzero (hne _ (List.getElem_mem hmid))

end

/-- Texts in ascending order, or equal. -/
def TextLe (x y : Bytes) : Prop := rank comptab x < rank comptab y ∨ x = y

instance : Std.Antisymm TextLe where
  antisymm := by
    intro x y hxy hyx
    rcases hxy with hxy | rfl
    · rcases hyx with hyx | rfl
      · exact absurd hyx hxy.not_gt
      · rfl
    · rfl

/-- Each key of a tag stands once where the comparison tells the keys apart. -/
theorem mergedKeys_nodup {records : List IndexRecord} {tag : Bytes}
    (hsorted : LinesAscend comptab 9 records) (hwf : ∀ r ∈ records, r.WellFormed)
    (hapart : ∀ r ∈ records, ∀ q ∈ records, rank comptab r.tag = rank comptab tag →
      rank comptab q.tag = rank comptab tag → morphstrcmp r.text q.text = 0 → r.text = q.text) :
    (mergedKeys comptab tag records).Nodup := by
  have hpair : ((records.filter (hasTag comptab tag)).map (·.text)).Pairwise TextLe := by
    rw [List.pairwise_map]
    apply List.Pairwise.imp_of_mem _ (hsorted.filter _)
    intro r q hr hq hle
    obtain ⟨hr, hrt⟩ := List.mem_filter.mp hr
    obtain ⟨hq, hqt⟩ := List.mem_filter.mp hq
    have hrw := hwf r hr
    have hqw := hwf q hq
    have hrt := hasTag_iff.mp hrt
    have hqt := hasTag_iff.mp hqt
    rcases (strcmpBy_line_le blankBelow_comptab (by decide) (by decide) hrw.1 hqw.1 hrw.2.1
      hqw.2.1).mp hle with hlt | ⟨-, hle⟩
    · exact absurd (hrt.trans hqt.symm) hlt.ne
    · rcases hle.lt_or_eq with hlt | heq
      · exact Or.inl hlt
      · apply Or.inr
        apply hapart r hr q hq hrt hqt
        exact (strcmpBy_eq_zero blankBelow_comptab.separatesNul hrw.2.1 hqw.2.1).mpr heq
  rw [mergedKeys, hpair.destutter_eq_dedup]
  exact List.nodup_dedup _

/-- The index of the sorted endings and what is loaded of it. -/
theorem writeEndIndex_eq {table : List IndexRecord} (hwf : ∀ r ∈ table, r.WellFormed) :
    writeEndIndex (table.map (·.line 9)) = some (joinLines (mergeLines comptab table) ++ [10]) := by
  have hsplit : ∀ r ∈ table, some (nextkey (r.line 9)) = some (r.tag, r.text) := by
    intro r hr
    rw [nextkey_line (hwf r hr)]
  have hfile : mergeLoop morphstrcmp (fun s => some (nextkey s)) [] [] (table.map (·.line 9)) =
      some (joinLines (mergeLines comptab table)) :=
    mergeLoop_mergeLines blankBelow_comptab.separatesNul hsplit (fun r hr => (hwf r hr).1) []
  simp [writeEndIndex, hfile]

theorem initEndind_eq {table : List IndexRecord} (hwf : ∀ r ∈ table, r.WellFormed)
    (htags : TagsAscend comptab table) (hcount : table.length ≤ maxEndTable) :
    initEndind (joinLines (mergeLines comptab table) ++ [10]) =
      some (if table = [] then [[]] else (mergeLines comptab table).map IndexLine.text) := by
  have hlines := mergeLines_wellFormed hwf htags
  cases table with
  | nil => rfl
  | cons r rest =>
    have hne : mergeLines comptab (r :: rest) ≠ [] := mergeFrom_ne_nil _ _ _ _
    have hlen : (mergeLines comptab (r :: rest)).length ≤ _ := mergeLines_length_le (r :: rest)
    simp only [maxEndTable] at hcount
    have hmax : ¬((mergeLines comptab (r :: rest)).map IndexLine.text).length > intMax := by
      rw [List.length_map]
      simp only [intMax]
      omega
    have hfile : joinLines (mergeLines comptab (r :: rest)) ++ [10] ≠ [] := by simp
    have hrecords : r :: rest ≠ [] := by simp
    simp only [initEndind, endLines_joinLines hne hlines, if_neg hfile, if_neg hmax,
      if_neg hrecords]

/-- Looking up a string gives the merged keys of the ending, or nothing where no table has it. -/
theorem endIndex_lookup {nameOfStemtype : UInt32 → Bytes} {sprintGkFlags : GkString → Bytes}
    {isDeriv : Bool} {tables : List (List GkString)} {records table : List IndexRecord}
    (hrecords : records =
      tables.flatten.filterMap (endingRecord nameOfStemtype sprintGkFlags isDeriv))
    (hcount : records.length ≤ maxEndTable) (hwf : ∀ r ∈ records, r.WellFormed)
    (hperm : table.Perm records) (hsorted : LinesAscend comptab 9 table)
    (hshort : ∀ line ∈ mergeLines comptab table, line.text.length < longString) :
    ∃ file etags, collectEndings nameOfStemtype sprintGkFlags isDeriv tables = some records ∧
      writeEndIndex (table.map (·.line 9)) = some file ∧ initEndind file = some etags ∧
      ∀ s keys, NoBlanks s → s.length + 1 < maxWordSize →
        ((∃ r ∈ records, morphstrcmp r.tag s = 0) →
          ∃ found, checkendind morphstrncmp etags s keys = (1, joinKeys found) ∧
            (∀ k, k ∈ found ↔ ∃ r ∈ records, morphstrcmp r.tag s = 0 ∧ r.text = k) ∧
            ((∀ r ∈ records, ∀ q ∈ records, morphstrcmp r.tag s = 0 → morphstrcmp q.tag s = 0 →
              morphstrcmp r.text q.text = 0 → r.text = q.text) → found.Nodup)) ∧
        ((∀ r ∈ records, morphstrcmp r.tag s ≠ 0) →
          checkendind morphstrncmp etags s keys = (0, [])) := by
  have hwf' : ∀ r ∈ table, r.WellFormed := fun r hr => hwf r (hperm.subset hr)
  have htags := hsorted.tagsAscend blankBelow_comptab (by decide) (by decide) hwf'
  have hlines := mergeLines_wellFormed hwf' htags
  have hasc := mergeLines_ascend htags
  have hcollect : collectEndings nameOfStemtype sprintGkFlags isDeriv tables = some records := by
    have hfit : records.any (fun r => (r.line 9).length ≥ longString * 8) = false := by
      apply List.any_eq_false.mpr
      intro r hr
      obtain ⟨line, hline, hle⟩ := length_le_of_mem htags (hperm.symm.subset hr)
      have hlt := hshort line hline
      simp only [longString] at hlt
      simp only [IndexRecord.line, longString, List.length_append, List.length_cons,
        decide_eq_true_eq, not_le, ge_iff_le]
      omega
    simp only [collectEndings, ← hrecords, hfit, Bool.false_eq_true, if_false]
    rw [if_neg (by omega)]
  refine ⟨_, _, hcollect, writeEndIndex_eq hwf',
    initEndind_eq hwf' htags (by rwa [hperm.length_eq]), fun s keys hs hlen => ?_⟩
  have hcmp : ∀ r ∈ records, (morphstrcmp r.tag s = 0 ↔ rank comptab r.tag = rank comptab s) :=
    fun r hr => strcmpBy_eq_zero blankBelow_comptab.separatesNul (hwf r hr).1.nulFree hs.nulFree
  have hmem : ∀ k, k ∈ mergedKeys comptab s table ↔
      ∃ r ∈ records, morphstrcmp r.tag s = 0 ∧ r.text = k := by
    intro k
    rw [mem_mergedKeys]
    constructor
    · rintro ⟨r, hr, hrank, htext⟩
      have hr' := hperm.subset hr
      exact ⟨r, hr', (hcmp r hr').mpr hrank, htext⟩
    · rintro ⟨r, hr, hzero, htext⟩
      exact ⟨r, hperm.symm.subset hr, (hcmp r hr).mp hzero, htext⟩
  constructor
  · rintro ⟨r, hr, hzero⟩
    obtain ⟨line, hline, hlr⟩ := exists_line_of_mem comptab table r (hperm.symm.subset hr)
    have hls := hlr.trans ((hcmp r hr).mp hzero)
    have hne : table ≠ [] := List.ne_nil_of_mem (hperm.symm.subset hr)
    refine ⟨mergedKeys comptab s table, ?_, hmem, ?_⟩
    · rw [if_neg hne, checkendind_found hs hlen hlines hasc hline hls (hshort line hline),
        mergeLines_keys htags line hline, mergedKeys, mergedKeys, hasTag_congr hls]
    · intro hapart
      apply mergedKeys_nodup hsorted hwf'
      intro r hr q hq hrs hqs
      have hr' := hperm.subset hr
      have hq' := hperm.subset hq
      exact hapart r hr' q hq' ((hcmp r hr').mpr hrs) ((hcmp q hq').mpr hqs)
  · intro hne
    apply checkendind_missing hlen
    intro text htext
    split at htext
    · rw [List.mem_singleton.mp htext]
      have hsn : NulFree (s ++ [32]) := by simp [hs.nulFree]
      rw [morphstrncmp, strncmpBy_eq blankBelow_comptab.separatesNul _ hsn nulFree_nil,
        List.take_length, List.take_nil, ne_eq,
        strcmpBy_eq_zero blankBelow_comptab.separatesNul hsn nulFree_nil]
      simp
    · obtain ⟨line, hline, rfl⟩ := List.mem_map.mp htext
      obtain ⟨r, hr, htag⟩ := exists_record_of_mem_mergeLines table line hline
      have hr' := hperm.subset hr
      obtain ⟨hneg, hpos⟩ := compare_ending hs (hlines line hline)
      intro hzero
      apply hne r hr'
      rw [hcmp r hr', htag]
      apply le_antisymm
      · exact not_lt.mp fun h => (hneg.mpr h).ne hzero
      · exact not_lt.mp fun h => (hpos.mpr h).ne' hzero

/-- Two stem types of the second declension. -/
def declensionName (stemtype : UInt32) : Bytes :=
  if stemtype = 0o10201 then ascii "os_ou"
  else if stemtype = 0o10203 then ascii "eos_eou"
  else []

/-- An ending that the tables of both stem types have. -/
def declensionTables : List (List GkString) :=
  [[{ GkString.zero with stemtype := 0o10201, gkstring := ascii "os" }],
    [{ GkString.zero with stemtype := 0o10203, gkstring := ascii "o/s" }]]

def declensionRecords : List IndexRecord :=
  [⟨ascii "os", ascii "os_ou"⟩, ⟨ascii "os", ascii "eos_eou"⟩]

theorem endIndex_lookup_declension :
    ∃ file etags, collectEndings declensionName (fun _ => []) false declensionTables =
        some declensionRecords ∧
      writeEndIndex (declensionRecords.reverse.map (·.line 9)) = some file ∧
      initEndind file = some etags ∧
      ∀ s keys, NoBlanks s → s.length + 1 < maxWordSize →
        ((∃ r ∈ declensionRecords, morphstrcmp r.tag s = 0) →
          ∃ found, checkendind morphstrncmp etags s keys = (1, joinKeys found) ∧
            (∀ k, k ∈ found ↔ ∃ r ∈ declensionRecords, morphstrcmp r.tag s = 0 ∧ r.text = k) ∧
            ((∀ r ∈ declensionRecords, ∀ q ∈ declensionRecords, morphstrcmp r.tag s = 0 →
              morphstrcmp q.tag s = 0 → morphstrcmp r.text q.text = 0 → r.text = q.text) →
              found.Nodup)) ∧
        ((∀ r ∈ declensionRecords, morphstrcmp r.tag s ≠ 0) →
          checkendind morphstrncmp etags s keys = (0, [])) := by
  have hwf : ∀ r ∈ declensionRecords, r.WellFormed := by
    intro r hr
    simp only [declensionRecords, List.mem_cons, List.not_mem_nil, or_false] at hr
    rcases hr with rfl | rfl
    · exact ⟨by decide, by decide, by decide, 111, ascii "s_ou", by decide, by decide⟩
    · exact ⟨by decide, by decide, by decide, 101, ascii "os_eou", by decide, by decide⟩
  exact endIndex_lookup (by decide +kernel) (by decide) hwf (List.reverse_perm _) (by decide)
    (by decide)

/-- A search string with a blank in it matches the beginning of a line, though no table has such
an ending. -/
theorem endIndex_blank_found :
    ∃ file etags, collectEndings declensionName (fun _ => []) false declensionTables =
        some declensionRecords ∧
      writeEndIndex (declensionRecords.reverse.map (·.line 9)) = some file ∧
      initEndind file = some etags ∧
      (∀ r ∈ declensionRecords, morphstrcmp r.tag (ascii "os eos_eou") ≠ 0) ∧
      checkendind morphstrncmp etags (ascii "os eos_eou") [] = (1, ascii "os_ou") :=
  ⟨ascii "os eos_eou os_ou\n", [ascii "os eos_eou os_ou"], by decide +kernel, by decide +kernel,
    by decide +kernel, by decide +kernel, by decide +kernel⟩

end Morpheus
