import Morpheus.PreIndex

/-!
# The stem index

`do_index` writes the sorted stem records as an index and its pre-index; the dictionary
finds a stem's keys through both.
-/
namespace Morpheus

/-- `BIGSTRING` -/
def bigString : ℕ := 8192 * 5

/-- `take_key`: the first word of a list and what comes after it. -/
def takeKey (capacity : ℕ) (keylist : Bytes) : Option (Bytes × Bytes) :=
  let start := keylist.dropWhile isSpace
  let output := start.takeWhile fun c => !isSpace c
  let rest := start.dropWhile fun c => !isSpace c
  if output = [] ∨ output.length ≥ capacity then none
  else some (output, rest.dropWhile isSpace)

/-- `do_index` on the table that `qsort` has sorted: the index file and its pre-index. -/
def doIndex (table : List Bytes) (indfreq : ℤ) : Option (Bytes × Bytes) := do
  let file ← mergeLoop morphstrcmp (takeKey bigString) [] [] table
  let preindex ← indexList file [] indfreq
  some (file, preindex)

/-- The lookup of a stem: `ChckPreIndex` and the scan from the offset it gives. -/
def lookupStem (tags : List EndTag) (file stemstr : Bytes) : Option Bytes := do
  let startoff ← chckPreIndex tags stemstr false
  chckFullIndex stemstr file startoff

theorem takeKey_line {capacity : ℕ} {r : IndexRecord} (h : r.WellFormed)
    (hcap : r.tag.length < capacity) : takeKey capacity (r.line 32) = some (r.tag, r.text) := by
  have hblank : isSpace 32 = true := rfl
  obtain ⟨hstart, htake, hrest⟩ := h.split hblank
  have hguard : ¬(r.tag = [] ∨ r.tag.length ≥ capacity) := by
    intro hbad
    rcases hbad with hnil | hlong
    · exact h.1.1 hnil
    · omega
  simp only [takeKey, hstart, htake, hrest, if_neg hguard]

/-- The buffers in which the lines of an index file are read. -/
def lineBuffers : List IndexLine → List Bytes
  | [] => []
  | [line] => [line.text]
  | line :: rest => (line.text ++ [10]) :: lineBuffers rest

theorem lineBuffers_cons (line : IndexLine) {rest : List IndexLine} (h : rest ≠ []) :
    lineBuffers (line :: rest) = (line.text ++ [10]) :: lineBuffers rest := by
  cases rest with
  | nil => exact absurd rfl h
  | cons l rest => rfl

theorem lineBuffers_flatten (lines : List IndexLine) :
    (lineBuffers lines).flatten = joinLines lines := by
  induction lines with
  | nil => rfl
  | cons line rest ih =>
    cases rest with
    | nil => simp [lineBuffers, joinLines, List.intercalate]
    | cons l rest =>
      rw [lineBuffers_cons line (by simp), joinLines_cons (by simp), List.flatten_cons, ih]
      simp

theorem lineBuffers_buffered (lines : List IndexLine) :
    List.Forall₂ Buffered lines (lineBuffers lines) := by
  induction lines with
  | nil => exact List.Forall₂.nil
  | cons line rest ih =>
    cases rest with
    | nil => exact List.Forall₂.cons (Or.inl rfl) List.Forall₂.nil
    | cons l rest =>
      rw [lineBuffers_cons line (by simp)]
      exact List.Forall₂.cons (Or.inr rfl) ih

theorem lineBuffers_fileLines {lines : List IndexLine} (hwf : ∀ l ∈ lines, l.WellFormed)
    (hshort : ∀ l ∈ lines, l.text.length < longString) :
    FileLines (longString * 4) (lineBuffers lines) := by
  induction lines with
  | nil => trivial
  | cons line rest ih =>
    have hlen := hshort line (by simp)
    have hrest := ih (fun l hl => hwf l (by simp [hl])) (fun l hl => hshort l (by simp [hl]))
    have hline := (hwf line (by simp)).no_newline
    simp only [longString] at hlen hrest ⊢
    cases rest with
    | nil =>
      refine ⟨Or.inr ⟨rfl, ?_, hline⟩, by omega, trivial⟩
      simp [IndexLine.text]
    | cons l rest =>
      rw [lineBuffers_cons line (by simp)]
      exact ⟨Or.inl ⟨line.text, hline, rfl⟩, by simp; omega, hrest⟩

/-- A line takes at least three bytes of the file. -/
theorem three_mul_length_le {lines : List IndexLine} {buffers : List Bytes}
    (hb : List.Forall₂ Buffered lines buffers) (hwf : ∀ l ∈ lines, l.WellFormed) :
    3 * lines.length ≤ buffers.flatten.length := by
  induction hb with
  | nil => simp
  | @cons line buffer rest rest' hb hrest ih =>
    have hih := ih fun l hl => hwf l (by simp [hl])
    obtain ⟨newline, -, rfl⟩ := hb.eq
    have hwl := hwf line (by simp)
    have htag := List.length_pos_of_ne_nil hwl.word.1
    obtain ⟨c, s, hkeys, -⟩ := hwl.begins
    rw [List.flatten_cons, hkeys]
    simp only [List.length_cons, List.length_append]
    omega

/-- The index and its pre-index are written for every table that fits 32-bit offsets, and the
samples of the pre-index are what the run-time lookup loads. -/
theorem doIndex_samples {table : List IndexRecord} {indfreq : ℤ}
    (hsorted : LinesAscend comptab 32 table) (hwf : ∀ r ∈ table, r.WellFormed)
    (hshort : ∀ line ∈ mergeLines comptab table, line.text.length < longString)
    (hsize : (joinLines (mergeLines comptab table)).length < UInt32.size)
    (hcomment : ∀ r ∈ table, ∃ q ∈ table, q.tag.head? ≠ some 35) (hfreq : 0 < indfreq) :
    ∃ preindex records, doIndex (table.map (·.line 32)) indfreq =
        some (joinLines (mergeLines comptab table), preindex) ∧
      initPreind preindex = some (records.map PreRecord.endTag) ∧
      (records = [] → table = []) ∧
      (∀ r ∈ records, IsSample (mergeLines comptab table)
        (lineBuffers (mergeLines comptab table)) r) ∧
      records.Pairwise fun r q =>
        rank comptab (cstr (r.key.take keyLen)) < rank comptab (cstr (q.key.take keyLen)) := by
  have htags := hsorted.tagsAscend blankBelow_comptab (by decide) (by decide) hwf
  have hlines := mergeLines_wellFormed hwf htags
  have hasc := mergeLines_ascend htags
  have hbuf := lineBuffers_buffered (mergeLines comptab table)
  have hflat := lineBuffers_flatten (mergeLines comptab table)
  have hshortTag : ∀ r ∈ table, r.tag.length < bigString := by
    intro r hr
    obtain ⟨line, hline, hrank⟩ := exists_line_of_mem comptab table r hr
    have hlen := congrArg List.length hrank
    rw [rank_length, rank_length] at hlen
    have htext := hshort line hline
    simp only [IndexLine.text, List.length_append, longString] at htext
    simp only [bigString]
    omega
  have hsplit : ∀ r ∈ table, takeKey bigString (r.line 32) = some (r.tag, r.text) :=
    fun r hr => takeKey_line (hwf r hr) (hshortTag r hr)
  have hfile := mergeLoop_mergeLines blankBelow_comptab.separatesNul hsplit
    (fun r hr => (hwf r hr).1) []
  have hinitial : Sampled [] IndexKeyState.initial :=
    ⟨by simp [IndexKeyState.initial], nulFree_nil, by simp, Or.inl rfl⟩
  obtain ⟨records, hrun, hcount, hsamples, hpair⟩ := indexListFrom_samples
    (min indfreq.toNat maxModulus) hasc hlines [] (mergeLines comptab table) [] _ rfl rfl rfl hbuf
    hinitial (by rwa [List.nil_append, hflat])
  have hthree := three_mul_length_le hbuf hlines
  have hintMax : records.length ≤ intMax := by
    rw [hflat] at hthree
    simp only [UInt32.size] at hsize
    simp only [intMax]
    omega
  refine ⟨(records.map writeKey).flatten, records, ?_, ?_, ?_, fun r hr => (hsamples r hr).1, hpair⟩
  · have hlist : indexList (joinLines (mergeLines comptab table)) [] indfreq =
        some (records.map writeKey).flatten := by
      rw [List.flatten_nil, List.length_nil] at hrun
      rw [indexList, if_neg hfreq.not_ge, ← hflat,
        fgetsLines_of_fileLines (lineBuffers_fileLines hlines hshort), hrun, Option.map_some]
    have hloop : mergeLoop morphstrcmp (takeKey bigString) [] []
        (table.map (·.line 32)) = some (joinLines (mergeLines comptab table)) := hfile
    simp [doIndex, hloop, hlist]
  · apply initPreind_writeKey _ hintMax
    intro r hr
    obtain ⟨-, -, -, -, -, -, -, -, -, hlen, -⟩ := (hsamples r hr).1
    exact hlen
  · intro hnil
    by_contra htable
    obtain ⟨r, rest, hcons⟩ := List.exists_cons_of_ne_nil htable
    obtain ⟨q, hq, hhead⟩ := hcomment r (by simp [hcons])
    obtain ⟨line, hline, hrank⟩ := exists_line_of_mem comptab table q hq
    refine indexListFrom_ne_nil hbuf hlines (by simp [IndexKeyState.initial]) rfl ?_ ?_ ?_ hrun hnil
    · simp only [IndexKeyState.initial, maxModulus]
      omega
    · rw [hflat, List.flatten_nil]
      simpa using hsize
    · refine ⟨line, hline, fun hhash => hhead ?_⟩
      exact head?_comment_of_rank_eq hrank hhash

theorem map_cstr_of_buffered {lines : List IndexLine} {buffers : List Bytes}
    (hb : List.Forall₂ Buffered lines buffers) (hwf : ∀ l ∈ lines, l.WellFormed) :
    buffers.map cstr = buffers := by
  induction hb with
  | nil => rfl
  | @cons line buffer rest rest' hb hrest ih =>
    rw [List.map_cons, cstr_of_nulFree (hb.nulFree (hwf line (by simp))),
      ih fun l hl => hwf l (by simp [hl])]

/-- A stem is found with the merged keys of its tag, up to the newline of its line, and
nothing is found for a tag that no record has. -/
theorem stemIndex_lookup {records table : List IndexRecord} {indfreq : ℤ}
    (hperm : table.Perm records) (hsorted : LinesAscend comptab 32 table)
    (hwf : ∀ r ∈ records, r.WellFormed)
    (hshort : ∀ line ∈ mergeLines comptab table, line.text.length < longString)
    (hsize : (joinLines (mergeLines comptab table)).length < UInt32.size)
    (hcomment : ∀ r ∈ records, ∃ q ∈ records, q.tag.head? ≠ some 35) (hfreq : 0 < indfreq) :
    ∃ file preindex tags, doIndex (table.map (·.line 32)) indfreq = some (file, preindex) ∧
      initPreind preindex = some tags ∧
      ∀ s, IsWord s →
        (∀ r ∈ records, morphstrcmp r.tag s = 0 →
          ∃ newline, (newline = [] ∨ newline = [10]) ∧
            lookupStem tags file s = some (joinKeys (mergedKeys comptab s table) ++ newline)) ∧
        ((∀ r ∈ records, morphstrcmp r.tag s ≠ 0) → lookupStem tags file s = none) := by
  have hwf' : ∀ r ∈ table, r.WellFormed := fun r hr => hwf r (hperm.subset hr)
  have htags := hsorted.tagsAscend blankBelow_comptab (by decide) (by decide) hwf'
  have hlines := mergeLines_wellFormed hwf' htags
  have hasc := mergeLines_ascend htags
  have hbuf := lineBuffers_buffered (mergeLines comptab table)
  obtain ⟨preindex, samples, hindex, hload, hnil, hsamples, hpair⟩ := doIndex_samples hsorted hwf'
    hshort hsize (fun r hr => by
      obtain ⟨q, hq, hhead⟩ := hcomment r (hperm.subset hr)
      exact ⟨q, hperm.symm.subset hq, hhead⟩) hfreq
  refine ⟨_, preindex, _, hindex, hload, fun s hs => ?_⟩
  have hcmp : ∀ r ∈ records, (morphstrcmp r.tag s = 0 ↔ rank comptab r.tag = rank comptab s) :=
    fun r hr => strcmpBy_eq_zero blankBelow_comptab.separatesNul (hwf r hr).1.nulFree hs.nulFree
  by_cases hempty : samples = []
  · have htable := hnil hempty
    subst htable
    obtain rfl : records = [] := hperm.nil_eq.symm
    refine ⟨by simp, fun _ => ?_⟩
    simp [hempty, lookupStem, chckPreIndex, binlook]
  · obtain ⟨before, rest, before', rest', hsplit, hsplit', hlen, hchck, hbelow⟩ :=
      chckPreIndex_locates hempty hsamples hpair hs.nulFree
    have hrest : List.Forall₂ Buffered rest rest' := by
      have hdrop := List.forall₂_drop before.length hbuf
      rw [hsplit', hsplit] at hdrop
      rwa [List.drop_left, ← hlen, List.drop_left] at hdrop
    have hmem : ∀ l ∈ rest, l ∈ mergeLines comptab table := by
      intro l hl
      rw [hsplit]
      exact List.mem_append_right before hl
    have hlook : lookupStem (samples.map PreRecord.endTag)
        (joinLines (mergeLines comptab table)) s = scanIndex s rest' := by
      have hfile := lineBuffers_fileLines hlines hshort
      rw [hsplit'] at hfile
      have hget := fgetsLines_of_fileLines ((hfile.of_append).mono
        (by decide : longString * 4 ≤ 32768))
      have hcstr := map_cstr_of_buffered hrest fun l hl => hlines l (hmem l hl)
      rw [← lineBuffers_flatten, hsplit', lookupStem, hchck]
      simp only [Option.bind_eq_bind, Option.bind_some, chckFullIndex]
      rw [List.flatten_append, List.drop_left, hget, hcstr]
    rw [hlook]
    constructor
    · intro r hr hzero
      have hrank := (hcmp r hr).mp hzero
      obtain ⟨line, hline, hlr⟩ := exists_line_of_mem comptab table r (hperm.symm.subset hr)
      have hls := hlr.trans hrank
      have hin : line ∈ rest := by
        rw [hsplit, List.mem_append] at hline
        rcases hline with hline | hline
        · exact absurd hls (hbelow line hline).ne
        · exact hline
      obtain ⟨newline, hnewline, hscan⟩ := scanIndex_found hs hrest
        (fun l hl => hlines l (hmem l hl))
        (by rw [hsplit] at hasc; exact (List.pairwise_append.mp hasc).2.1) hin hls
        (hshort line hline)
      refine ⟨newline, hnewline, ?_⟩
      rw [hscan, mergeLines_keys htags line hline, mergedKeys, mergedKeys, hasTag_congr hls]
    · intro hne
      apply scanIndex_missing hs hrest fun l hl => hlines l (hmem l hl)
      intro l hl hrank
      obtain ⟨r, hr, htag⟩ := exists_record_of_mem_mergeLines table l (hmem l hl)
      have hr' := hperm.subset hr
      apply hne r hr'
      rw [hcmp r hr', htag, hrank]

/-- Two records of one tag. -/
def twoRecords : List IndexRecord := [⟨ascii "a", ascii "k1"⟩, ⟨ascii "a", ascii "k2"⟩]

theorem stemIndex_lookup_twoRecords :
    ∃ file preindex tags,
      doIndex (twoRecords.map (·.line 32)) 10 = some (file, preindex) ∧
        initPreind preindex = some tags ∧
        ∀ s, IsWord s →
          (∀ r ∈ twoRecords, morphstrcmp r.tag s = 0 →
            ∃ newline, (newline = [] ∨ newline = [10]) ∧ lookupStem tags file s =
              some (joinKeys (mergedKeys comptab s twoRecords) ++ newline)) ∧
          ((∀ r ∈ twoRecords, morphstrcmp r.tag s ≠ 0) → lookupStem tags file s = none) := by
  have hwf : ∀ r ∈ twoRecords, r.WellFormed := by
    intro r hr
    simp only [twoRecords, List.mem_cons, List.not_mem_nil, or_false] at hr
    rcases hr with rfl | rfl
    · exact ⟨by decide, by decide, by decide, 107, [49], by decide, by decide⟩
    · exact ⟨by decide, by decide, by decide, 107, [50], by decide, by decide⟩
  exact stemIndex_lookup (List.Perm.refl _) (by decide) hwf (by decide) (by decide +kernel)
    (fun _ _ => ⟨⟨ascii "a", ascii "k1"⟩, by simp [twoRecords], by decide⟩)
    (show (0 : ℤ) < 10 by decide)

/-- A tag that begins with `#` is taken for a comment and, where no other tag follows, lost; a
search string with a blank in it matches the beginning of a line. -/
theorem stemIndex_comment_lost :
    (∃ file preindex tags, doIndex [ascii "#a k"] 10 = some (file, preindex) ∧
      initPreind preindex = some tags ∧ lookupStem tags file (ascii "#a") = none) ∧
    ∃ file preindex tags, doIndex [ascii "a k1", ascii "a k2"] 10 = some (file, preindex) ∧
      initPreind preindex = some tags ∧
      lookupStem tags file (ascii "a k1") = some (ascii "k2") :=
  ⟨⟨ascii "#a k", [], [], by decide +kernel, by decide +kernel, by decide +kernel⟩,
    ascii "a k1 k2", ascii "a" ++ List.replicate 11 0, [⟨ascii "a", 0⟩], by decide +kernel,
    by decide +kernel, by decide +kernel⟩

end Morpheus
