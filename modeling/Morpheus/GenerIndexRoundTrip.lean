import Morpheus.GenerIndexDecode
import Morpheus.GenerIndexText

/-!
# The round trip of a generation index

A file written from sorted blocks is valid, and its lookups return exactly these
blocks. The blocks in turn are the nonempty source blocks, each distinct one once.
-/
namespace Morpheus.GenerIndex
open Checked

section
variable {blocks : List SourceBlock}

theorem tablesOf_view (blocks : List SourceBlock) :
    (tablesOf blocks).records.map (tablesOf blocks).view =
        (blockRecordsOf blocks).map SourceRecord.view ∧
    (tablesOf blocks).blocks.map BlockRow.interval =
        intervals 0 (blocks.map fun b => b.records.length) ∧
    (tablesOf blocks).lemmas.map (tablesOf blocks).keyOf =
        (groupBlocks blocks).map (fun group => some group.1) ∧
    (tablesOf blocks).lemmas.map LemmaRow.interval =
        intervals 0 ((groupBlocks blocks).map fun group => group.2.length) := by
  have hfree : ∀ group ∈ groupBlocks blocks, NulFree group.1 := fun group hg => by
    obtain ⟨hne, hkey⟩ := mem_groupBlocks hg
    obtain ⟨b, hb⟩ := List.exists_mem_of_ne_nil _ hne
    exact hkey b hb ▸ b.key_ok.2
  have h := Tables.addGroups_view (t := Tables.empty) hfree (Tables.Extends.refl (tablesOf blocks))
  rw [groupBlocks_flatMap] at h
  exact h

/-- The blocks can be written and found again. -/
structure Writable (blocks : List SourceBlock) : Prop extends WithinLimits blocks where
  nonempty : ∀ b ∈ blocks, b.records ≠ []
  sorted : blocks.Pairwise fun a b => rank id a.key ≤ rank id b.key

theorem contiguous_groups (blocks : List SourceBlock) :
    Contiguous 0 (intervals 0 ((groupBlocks blocks).map fun group => group.2.length))
      blocks.length := by
  have hpos : ∀ count ∈ (groupBlocks blocks).map (fun group => group.2.length), 0 < count := by
    intro count hc
    obtain ⟨group, hg, rfl⟩ := List.mem_map.mp hc
    exact List.length_pos_iff.mpr (mem_groupBlocks hg).1
  have h := contiguous_intervals 0 hpos
  rwa [Nat.zero_add, ← List.length_flatMap, groupBlocks_flatMap] at h

theorem contiguous_blocks (h : ∀ b ∈ blocks, b.records ≠ []) :
    Contiguous 0 (intervals 0 (blocks.map fun b => b.records.length))
      (blockRecordsOf blocks).length := by
  have hpos : ∀ count ∈ blocks.map (fun b => b.records.length), 0 < count := by
    intro count hc
    obtain ⟨b, hb, rfl⟩ := List.mem_map.mp hc
    exact List.length_pos_iff.mpr (h b hb)
  have h := contiguous_intervals 0 hpos
  rwa [Nat.zero_add, ← List.length_flatMap] at h

theorem lemmaEntries_eq (h : WithinLimits blocks) :
    (indexOf (tablesOf blocks)).lemmaEntries = (tablesOf blocks).lemmas.map fun row =>
      ⟨(tablesOf blocks).keyOf row, row.firstBlock, row.count, 0⟩ := by
  obtain ⟨-, hb, -, hs⟩ := counts_lt h.payload
  obtain ⟨-, -, hkey, hint⟩ := tablesOf_view blocks
  refine List.ext_getElem (by simp [Index.lemmaEntries, indexOf]) fun i h1 h2 => ?_
  simp only [Index.lemmaEntries, List.getElem_map, List.getElem_range]
  have hi : i < (tablesOf blocks).lemmas.length := by simpa using h2
  have hmem := List.getElem_mem hi
  have hoff : (tablesOf blocks).lemmas[i].keyOffset < (tablesOf blocks).strings.length := by
    have := List.mem_map_of_mem (f := (tablesOf blocks).keyOf) hmem
    rw [hkey] at this
    obtain ⟨group, -, hg⟩ := List.mem_map.mp this
    exact lt_of_stringIn hg.symm
  have hrow : (tablesOf blocks).lemmas[i].interval ∈
      intervals 0 ((groupBlocks blocks).map fun group => group.2.length) :=
    hint ▸ List.mem_map_of_mem hmem
  obtain ⟨group, hg, hlen⟩ := List.mem_map.mp (snd_mem_of_mem_intervals hrow)
  have hin := (contiguous_groups blocks).inside hrow
  rw [← (tablesOf_lengths blocks).2.1] at hin
  have hmax := h.groups group hg
  simp only [LemmaRow.interval, uint32Max] at hlen hin hmax
  refine indexOf_lemmaEntry hi (by omega) (by omega) (by omega)

theorem blockEntries_eq (h : Writable blocks) :
    (indexOf (tablesOf blocks)).blockEntries = (tablesOf blocks).blocks.map fun row =>
      ⟨row.firstRecord, row.count, 0⟩ := by
  obtain ⟨-, -, hr, -⟩ := counts_lt h.payload
  obtain ⟨-, hint, -, -⟩ := tablesOf_view blocks
  refine List.ext_getElem (by simp [Index.blockEntries, indexOf]) fun i h1 h2 => ?_
  simp only [Index.blockEntries, List.getElem_map, List.getElem_range]
  have hi : i < (tablesOf blocks).blocks.length := by simpa using h2
  have hrow : (tablesOf blocks).blocks[i].interval ∈
      intervals 0 (blocks.map fun b => b.records.length) :=
    hint ▸ List.mem_map_of_mem (List.getElem_mem hi)
  obtain ⟨b, hb, hlen⟩ := List.mem_map.mp (snd_mem_of_mem_intervals hrow)
  have hin := (contiguous_blocks h.nonempty).inside hrow
  have hmax := h.records b hb
  rw [← (tablesOf_lengths blocks).2.2.1] at hin
  simp only [BlockRow.interval, uint32Max] at hlen hin hmax
  exact indexOf_blockEntry hi (by omega) (by omega)

theorem recordEntries_eq (h : WithinLimits blocks) :
    (indexOf (tablesOf blocks)).recordEntries = (blockRecordsOf blocks).map fun record =>
      ⟨record.kind.code, 0, some record.stem, some record.keys⟩ := by
  obtain ⟨-, -, -, hs⟩ := counts_lt h.payload
  obtain ⟨hview, -⟩ := tablesOf_view blocks
  have hlen := (tablesOf_lengths blocks).2.2.1
  refine List.ext_getElem (by simpa [Index.recordEntries, indexOf] using hlen) fun i h1 h2 => ?_
  simp only [Index.recordEntries, List.getElem_map, List.getElem_range]
  have hi' : i < (blockRecordsOf blocks).length := by simpa using h2
  have hi : i < (tablesOf blocks).records.length := by omega
  have hrow : (tablesOf blocks).view (tablesOf blocks).records[i] =
      (blockRecordsOf blocks)[i].view := by
    have := List.getElem_of_eq hview (by simpa using hi)
    simpa only [List.getElem_map] using this
  simp only [Tables.view, SourceRecord.view, RecordView.mk.injEq] at hrow
  obtain ⟨hkind, hstem, hkeys⟩ := hrow
  rw [indexOf_recordEntry hi ((lt_of_stringIn hstem).trans hs) ((lt_of_stringIn hkeys).trans hs),
    hkind, hstem, hkeys]

/-- Behind the run of a lemma all keys are larger. -/
theorem lt_of_mem_dropWhile {block : SourceBlock}
    (h : (block :: blocks).Pairwise fun a b => rank id a.key ≤ rank id b.key)
    {b : SourceBlock} (hb : b ∈ blocks.dropWhile fun b => strcmp block.key b.key = 0) :
    rank id block.key < rank id b.key := by
  induction blocks with
  | nil => simp at hb
  | cons c cs ih =>
    obtain ⟨hhead, htail⟩ := List.pairwise_cons.mp h
    by_cases hc : strcmp block.key c.key = 0
    · rw [List.dropWhile_cons_of_pos (by simpa using hc)] at hb
      exact ih (List.pairwise_cons.mpr ⟨fun d hd => hhead d (by simp [hd]),
        (List.pairwise_cons.mp htail).2⟩) hb
    · rw [List.dropWhile_cons_of_neg (by simpa using hc)] at hb
      have hlt : rank id block.key < rank id c.key := by
        refine lt_of_le_of_ne (hhead c (by simp)) fun he => hc (strcmp_key.mpr ?_)
        exact rank_injective Function.injective_id he
      rcases List.mem_cons.mp hb with rfl | hb
      · exact hlt
      · exact hlt.trans_le ((List.pairwise_cons.mp htail).1 b hb)

theorem exists_mem_of_group {group : Bytes × List SourceBlock} (h : group ∈ groupBlocks blocks) :
    ∃ b ∈ blocks, b.key = group.1 := by
  obtain ⟨hne, hkey⟩ := mem_groupBlocks h
  obtain ⟨b, hb⟩ := List.exists_mem_of_ne_nil _ hne
  refine ⟨b, ?_, hkey b hb⟩
  rw [← groupBlocks_flatMap blocks]
  exact List.mem_flatMap_of_mem h hb

theorem exists_group_of_mem {b : SourceBlock} (h : b ∈ blocks) :
    ∃ group ∈ groupBlocks blocks, group.1 = b.key := by
  rw [← groupBlocks_flatMap blocks] at h
  obtain ⟨group, hg, hb⟩ := List.mem_flatMap.mp h
  exact ⟨group, hg, ((mem_groupBlocks hg).2 b hb).symm⟩

/-- The keys of the runs of sorted blocks ascend strictly. -/
theorem groupBlocks_ascend
    (h : blocks.Pairwise fun a b => rank id a.key ≤ rank id b.key) :
    ((groupBlocks blocks).map (·.1)).Pairwise fun a b => rank id a < rank id b := by
  fun_induction groupBlocks blocks with
  | case1 => simp
  | case2 block blocks ih =>
    have hdrop := (List.pairwise_cons.mp h).2.sublist
      (List.dropWhile_suffix fun b => strcmp block.key b.key = 0).sublist
    rw [List.map_cons, List.pairwise_cons]
    refine ⟨fun key hkey => ?_, ih hdrop⟩
    obtain ⟨group, hg, rfl⟩ := List.mem_map.mp hkey
    obtain ⟨b, hb, hkey⟩ := exists_mem_of_group hg
    exact hkey ▸ lt_of_mem_dropWhile h hb

/-- The run of a lemma among sorted blocks holds all its blocks, in order. -/
theorem groupBlocks_filter
    (h : blocks.Pairwise fun a b => rank id a.key ≤ rank id b.key)
    {group : Bytes × List SourceBlock} (hg : group ∈ groupBlocks blocks) :
    group.2 = blocks.filter fun b => b.key = group.1 := by
  fun_induction groupBlocks blocks with
  | case1 => simp at hg
  | case2 block blocks ih =>
    have hsplit := List.takeWhile_append_dropWhile (p := fun b => strcmp block.key b.key = 0)
      (l := blocks)
    have htake : ∀ b ∈ blocks.takeWhile fun b => strcmp block.key b.key = 0,
        b.key = block.key := fun b hb => by
      have := List.mem_takeWhile_imp hb
      exact (strcmp_key.mp (by simpa using this)).symm
    have hdrop := (List.pairwise_cons.mp h).2.sublist
      (List.dropWhile_suffix fun b => strcmp block.key b.key = 0).sublist
    rcases List.mem_cons.mp hg with rfl | hg
    · rw [List.filter_cons_of_pos (by simp)]
      conv_rhs => rw [← hsplit, List.filter_append]
      rw [List.filter_eq_self.mpr fun b hb => by simpa using htake b hb,
        List.filter_eq_nil_iff.mpr fun b hb => ?_, List.append_nil]
      have := lt_of_mem_dropWhile h hb
      simp only [decide_eq_true_eq]
      rintro he
      simp [he] at this
    · obtain ⟨b, hb, hkey⟩ := exists_mem_of_group hg
      have hlt := lt_of_mem_dropWhile h hb
      rw [hkey] at hlt
      have hne : block.key ≠ group.1 := fun he => by simp [he] at hlt
      have hnil : (blocks.takeWhile fun b => strcmp block.key b.key = 0).filter
          (fun b => b.key = group.1) = [] :=
        List.filter_eq_nil_iff.mpr fun b hb => by simpa [htake b hb] using hne
      rw [ih hdrop hg, List.filter_cons_of_neg (by simpa using hne)]
      conv_rhs => rw [← hsplit, List.filter_append, hnil, List.nil_append]

/-- The file of writable blocks is valid. -/
theorem valid_indexOf (h : Writable blocks) : (indexOf (tablesOf blocks)).Valid := by
  obtain ⟨-, hblk, hkey, hint⟩ := tablesOf_view blocks
  have hlem := lemmaEntries_eq h.toWithinLimits
  have hblkEntries := blockEntries_eq h
  have hpresent : ∀ {s : Bytes}, s ≠ [] → Present (some s) := fun hs =>
    ⟨by simp, by simpa using hs⟩
  have hcount := (tablesOf_lengths blocks).2.1
  have hrecords := (tablesOf_lengths blocks).2.2.1
  refine ⟨indexOf_placed h.payload, ?_, ?_, ?_, ?_, ?_, ?_⟩
  · intro entry he
    rw [hlem] at he
    obtain ⟨row, hrow, rfl⟩ := List.mem_map.mp he
    have := List.mem_map_of_mem (f := (tablesOf blocks).keyOf) hrow
    rw [hkey] at this
    obtain ⟨group, hg, hgkey⟩ := List.mem_map.mp this
    obtain ⟨b, -, hb⟩ := exists_mem_of_group hg
    refine ⟨?_, rfl⟩
    rw [← hgkey, ← hb]
    exact hpresent b.key_ok.1
  · rw [hlem, List.map_map]
    change Contiguous 0 ((tablesOf blocks).lemmas.map LemmaRow.interval)
      (tablesOf blocks).blocks.length
    rw [hint, hcount]
    exact contiguous_groups blocks
  · have hchain : ((groupBlocks blocks).map fun group => some group.1).IsChain
        fun a b => strcmp (a.getD []) (b.getD []) < 0 := by
      rw [List.isChain_map]
      refine ((List.pairwise_map.mp (groupBlocks_ascend h.sorted)).imp_of_mem ?_).isChain
      intro g g' hg hg' hlt
      obtain ⟨b, -, hb⟩ := exists_mem_of_group hg
      obtain ⟨b', -, hb'⟩ := exists_mem_of_group hg'
      exact (strcmpBy_lt separatesNul_id (hb ▸ b.key_ok.2) (hb' ▸ b'.key_ok.2)).mpr hlt
    rw [← hkey, List.isChain_map] at hchain
    rw [hlem, List.isChain_map]
    exact hchain
  · intro entry he
    rw [hblkEntries] at he
    obtain ⟨row, -, rfl⟩ := List.mem_map.mp he
    rfl
  · rw [hblkEntries, List.map_map]
    change Contiguous 0 ((tablesOf blocks).blocks.map BlockRow.interval)
      (tablesOf blocks).records.length
    rw [hblk, hrecords]
    exact contiguous_blocks h.nonempty
  · intro entry he
    rw [recordEntries_eq h.toWithinLimits] at he
    obtain ⟨record, -, rfl⟩ := List.mem_map.mp he
    refine ⟨?_, ?_, rfl, hpresent record.stem_ok.1, hpresent record.keys_ok.1⟩ <;>
      cases record.kind <;> simp [RecordKind.code]

theorem recordsOf_eq (h : Writable blocks) {i : ℕ} (hi : i < blocks.length) :
    (indexOf (tablesOf blocks)).recordsOf i = blocks[i].records.map SourceRecord.view := by
  have hentries := recordEntries_eq h.toWithinLimits
  obtain ⟨-, hblk, -, -⟩ := tablesOf_view blocks
  have hcount := (tablesOf_lengths blocks).2.1
  have hrow : (indexOf (tablesOf blocks)).blockEntry i =
      ⟨(tablesOf blocks).blocks[i].firstRecord, (tablesOf blocks).blocks[i].count, 0⟩ := by
    have := List.getElem_of_eq (blockEntries_eq h) (i := i)
      (by simp [Index.blockEntries, indexOf]; omega)
    simpa only [Index.blockEntries, List.getElem_map, List.getElem_range] using this
  have hp : (intervals 0 ((blocks.map (·.records)).map List.length))[i]? =
      some (tablesOf blocks).blocks[i].interval := by
    rw [List.map_map]
    change (intervals 0 (blocks.map fun b => b.records.length))[i]? = _
    rw [← hblk, List.getElem?_map, List.getElem?_eq_getElem (by omega)]
    rfl
  have := map_interval (g := SourceRecord.view) (f := fun record =>
    (⟨((indexOf (tablesOf blocks)).recordEntry record).kind,
      ((indexOf (tablesOf blocks)).recordEntry record).stem,
      ((indexOf (tablesOf blocks)).recordEntry record).keys⟩ : RecordView))
    (fun j hj => ?_) (by simpa using hi) hp
  · rw [List.getElem_map] at this
    rw [Index.recordsOf, hrow]
    exact this
  · have hj' : j < (blockRecordsOf blocks).length := by
      rwa [blockRecordsOf, List.flatMap_def]
    have hrec := List.getElem_of_eq hentries (i := j)
      (by simpa [Index.recordEntries, indexOf, (tablesOf_lengths blocks).2.2.1] using hj')
    simp only [Index.recordEntries, List.getElem_map, List.getElem_range] at hrec
    simp only [Nat.zero_add, hrec]
    rfl

/-- The walk of a run of blocks visits their records. -/
theorem blocksOf_eq (h : Writable blocks) {i : ℕ} (hi : i < (groupBlocks blocks).length) :
    (indexOf (tablesOf blocks)).blocksOf i =
      (groupBlocks blocks)[i].2.map fun b => b.records.map SourceRecord.view := by
  obtain ⟨-, -, -, hint⟩ := tablesOf_view blocks
  have hlen : (tablesOf blocks).lemmas.length = (groupBlocks blocks).length := by
    simpa using congrArg List.length hint
  have hrow : ((indexOf (tablesOf blocks)).lemmaEntry i).firstBlock =
      (tablesOf blocks).lemmas[i].firstBlock ∧ ((indexOf (tablesOf blocks)).lemmaEntry i).count =
      (tablesOf blocks).lemmas[i].count := by
    have := List.getElem_of_eq (lemmaEntries_eq h.toWithinLimits) (i := i)
      (by simp [Index.lemmaEntries, indexOf]; omega)
    simp only [Index.lemmaEntries, List.getElem_map, List.getElem_range] at this
    simp [this]
  have hp : (intervals 0 (((groupBlocks blocks).map (·.2)).map List.length))[i]? =
      some (tablesOf blocks).lemmas[i].interval := by
    rw [List.map_map]
    change (intervals 0 ((groupBlocks blocks).map fun group => group.2.length))[i]? = _
    rw [← hint, List.getElem?_map, List.getElem?_eq_getElem (by omega)]
    rfl
  have := map_interval (f := (indexOf (tablesOf blocks)).recordsOf)
    (g := fun b : SourceBlock => b.records.map SourceRecord.view)
    (fun j hj => ?_) (by simpa using hi) hp
  · rw [List.getElem_map] at this
    rw [Index.blocksOf, hrow.1, hrow.2]
    exact this
  · have hflat : ((groupBlocks blocks).map (·.2)).flatten = blocks := by
      rw [← List.flatMap_def, groupBlocks_flatMap]
    have hj' : j < blocks.length := by rwa [hflat] at hj
    rw [Nat.zero_add, recordsOf_eq h hj']
    simp [hflat]

end

section
variable {blocks : List SourceBlock}

theorem key_indexOf (h : WithinLimits blocks) {i : ℕ} (hi : i < (groupBlocks blocks).length) :
    (indexOf (tablesOf blocks)).key i = (groupBlocks blocks)[i].1 := by
  obtain ⟨-, -, hkey, -⟩ := tablesOf_view blocks
  have hlen : (tablesOf blocks).lemmas.length = (groupBlocks blocks).length := by
    simpa using congrArg List.length hkey
  have hentry := List.getElem_of_eq (lemmaEntries_eq h) (i := i)
    (by simp [Index.lemmaEntries, indexOf]; omega)
  simp only [Index.lemmaEntries, List.getElem_map, List.getElem_range] at hentry
  have hrow := List.getElem_of_eq hkey (i := i) (by simp; omega)
  simp only [List.getElem_map] at hrow
  simp [Index.key, hentry, hrow]

/-- The walk of a lemma of the blocks visits exactly its blocks. -/
theorem serviceRecords_of_mem (h : Writable blocks) {key : Bytes}
    (hkey : ∃ b ∈ blocks, b.key = key) :
    (∃ view, morpheusGenerIndexLookup (indexOf (tablesOf blocks)) key = .ok (.ok view)) ∧
    serviceRecords (indexOf (tablesOf blocks)) key =
      .ok (.ok ((recordsFor key blocks).map fun records => records.map SourceRecord.view)) := by
  obtain ⟨b, hb, rfl⟩ := hkey
  obtain ⟨group, hg, hkey⟩ := exists_group_of_mem hb
  obtain ⟨i, hi, rfl⟩ := List.getElem_of_mem hg
  have hv := valid_indexOf h
  have hi' : i < (indexOf (tablesOf blocks)).lemmaCount := by
    have := congrArg List.length (tablesOf_view blocks).2.2.1
    simp only [List.length_map] at this
    change i < (tablesOf blocks).lemmas.length
    omega
  rw [← hkey, ← key_indexOf h.toWithinLimits hi]
  refine ⟨⟨_, hv.lookup_of_key hi'⟩, ?_⟩
  rw [hv.serviceRecords_of_key hi', blocksOf_eq h hi, key_indexOf h.toWithinLimits hi,
    groupBlocks_filter h.sorted hg, recordsFor, List.map_map]
  rfl

theorem lookup_of_not_mem (h : Writable blocks) {key : Bytes} (hne : key ≠ [])
    (hfree : NulFree key) (hkey : ∀ b ∈ blocks, b.key ≠ key) :
    morpheusGenerIndexLookup (indexOf (tablesOf blocks)) key = .ok (.error .notFound) := by
  refine (valid_indexOf h).lookup_of_absent hne hfree fun i hi => ?_
  have hlen := congrArg List.length (tablesOf_view blocks).2.2.1
  simp only [List.length_map] at hlen
  have hi' : i < (groupBlocks blocks).length := hlen ▸ hi
  rw [key_indexOf h.toWithinLimits hi']
  obtain ⟨b, hb, hbkey⟩ := exists_mem_of_group (List.getElem_mem hi')
  exact hbkey ▸ hkey b hb

end

theorem writable_of_writeIndex {index : SourceIndex} {file : Bytes}
    (h : writeIndex index = .ok file) :
    Writable (preparedBlocks index) ∧ file = fileOf (tablesOf (preparedBlocks index)) := by
  obtain ⟨hlimits, hfile⟩ := ((writeIndex_decides index).2 file).mp h
  exact ⟨⟨hlimits, fun b hb => (mem_preparedBlocks hb).2, preparedBlocks_sorted index⟩, hfile⟩

theorem mem_prepared_iff {index : SourceIndex} {key : Bytes} :
    (∃ b ∈ preparedBlocks index, b.key = key) ↔
      ∃ records, (key, records) ∈ index.pairs ∧ records ≠ [] := by
  constructor
  · rintro ⟨b, hb, rfl⟩
    exact ⟨b.records, List.mem_map_of_mem (mem_preparedBlocks hb).1, (mem_preparedBlocks hb).2⟩
  · rintro ⟨records, hmem⟩
    have hmem := mem_blocksFor.mpr hmem
    rw [← preparedBlocks_recordsFor] at hmem
    obtain ⟨b, hb, hkey, -⟩ := mem_recordsFor.mp hmem
    exact ⟨b, hb, hkey⟩

/-- The reader makes of a written file the index of its tables. -/
theorem validLayout_of_writeIndex {index : SourceIndex} {file : Bytes}
    (h : writeIndex index = .ok file) :
    ∃ hfit : file.length ≤ sizeMax,
      validLayout ⟨file, hfit⟩ = .ok (indexOf (tablesOf (preparedBlocks index))) := by
  obtain ⟨hw, rfl⟩ := writable_of_writeIndex h
  have hv := valid_indexOf hw
  exact ⟨hv.placed.fits, ((validLayout_decides _).2 _).mpr ⟨headerOk_indexOf hw.payload, hv⟩⟩

/-- A lemma with a record in the sources is found, with its blocks. -/
theorem lookup_of_source {files : List Bytes} {index : SourceIndex} {file : Bytes}
    (hparse : parseSources emptyIndex files = .ok index) (hwrite : writeIndex index = .ok file)
    {key : Bytes} (hkey : ∃ records, (key, records) ∈ sourceBlocks files ∧ records ≠ []) :
    (∃ view, morpheusGenerIndexLookup (indexOf (tablesOf (preparedBlocks index))) key =
      .ok (.ok view)) ∧
    serviceRecords (indexOf (tablesOf (preparedBlocks index))) key =
      .ok (.ok ((blocksFor (sourceBlocks files) key).map
        fun records => records.map SourceRecord.view)) := by
  have hpairs : index.pairs = sourceBlocks files := parseSources_pairs hparse
  rw [← hpairs] at hkey ⊢
  rw [← preparedBlocks_recordsFor]
  exact serviceRecords_of_mem (writable_of_writeIndex hwrite).1 (mem_prepared_iff.mpr hkey)

/-- Whatever sources the builder accepts, the reader accepts the file it writes, finds
exactly the nonempty blocks of each lemma, each distinct one once and in input order
with its records, and finds no other key. -/
theorem generIndex_roundTrip (files : List Bytes) (index : SourceIndex) (file : Bytes)
    (hparse : parseSources emptyIndex files = .ok index) (hwrite : writeIndex index = .ok file) :
    ∃ (hfit : file.length ≤ sizeMax) (read : Index),
      validLayout ⟨file, hfit⟩ = .ok read ∧
      (∀ key, (∃ records, (key, records) ∈ sourceBlocks files ∧ records ≠ []) →
        (∃ view, morpheusGenerIndexLookup read key = .ok (.ok view)) ∧
        serviceRecords read key = .ok (.ok ((blocksFor (sourceBlocks files) key).map
          fun records => records.map SourceRecord.view))) ∧
      (∀ key, key ≠ [] → NulFree key →
        (∀ records, (key, records) ∈ sourceBlocks files → records = []) →
        morpheusGenerIndexLookup read key = .ok (.error .notFound)) := by
  obtain ⟨hfit, hread⟩ := validLayout_of_writeIndex hwrite
  refine ⟨hfit, _, hread, fun key hkey => lookup_of_source hparse hwrite hkey,
    fun key hne hfree hkey => ?_⟩
  have hw := (writable_of_writeIndex hwrite).1
  refine lookup_of_not_mem hw hne hfree fun b hb hbkey => ?_
  obtain ⟨records, hmem, hrec⟩ := mem_prepared_iff.mp ⟨b, hb, hbkey⟩
  have hpairs : index.pairs = sourceBlocks files := parseSources_pairs hparse
  exact hrec (hkey records (hpairs ▸ hmem))

/-- A lemma with two equal blocks and one of two records between them, a lemma whose
spelling carries marks, and a lemma without records. -/
def sampleSource : Bytes := ascii
  (":le:lo/gos\n:no:log os_ou masc\n:le:e)gw/\n:le:!a)na-ba/llw\n:vs:bal aor2\n" ++
    ":le:lo/gos\n:no:log os_ou neut\n:vs:leg w_stem\n:le:lo/gos\n:no:log os_ou masc\n")

def sampleIndex : SourceIndex :=
  (parseSources emptyIndex [sampleSource]).toOption.getD emptyIndex

theorem parseSources_sampleSource : parseSources emptyIndex [sampleSource] = .ok sampleIndex := by
  decide +kernel

def mascRecord : SourceRecord := ⟨.noun, ascii "log", ascii "os_ou masc", by decide, by decide⟩

def neutRecord : SourceRecord := ⟨.noun, ascii "log", ascii "os_ou neut", by decide, by decide⟩

def legRecord : SourceRecord := ⟨.verbStem, ascii "leg", ascii "w_stem", by decide, by decide⟩

def balRecord : SourceRecord := ⟨.verbStem, ascii "bal", ascii "aor2", by decide, by decide⟩

theorem sourceBlocks_sampleSource : sourceBlocks [sampleSource] =
    [(ascii "lo/gos", [mascRecord]), (ascii "e)gw/", []), (ascii "a)naba/llw", [balRecord]),
      (ascii "lo/gos", [neutRecord, legRecord]), (ascii "lo/gos", [mascRecord])] := by
  decide +kernel

theorem sampleSource_bare : ∀ b ∈ sourceBlocks [sampleSource], b.1 = ascii "e)gw/" → b.2 = [] := by
  rw [sourceBlocks_sampleSource]
  decide +kernel

theorem preparedBlocks_sampleIndex : preparedBlocks sampleIndex =
    [⟨ascii "a)naba/llw", 2, [balRecord], by decide⟩, ⟨ascii "lo/gos", 0, [mascRecord], by decide⟩,
      ⟨ascii "lo/gos", 3, [neutRecord, legRecord], by decide⟩] := by
  decide +kernel

theorem sampleIndex_limits : WithinLimits (preparedBlocks sampleIndex) := by
  rw [preparedBlocks_sampleIndex]
  refine ⟨?_, ?_, ?_⟩ <;> decide +kernel

theorem writeIndex_sampleIndex :
    writeIndex sampleIndex = .ok (fileOf (tablesOf (preparedBlocks sampleIndex))) :=
  ((writeIndex_decides sampleIndex).2 _).mpr ⟨sampleIndex_limits, rfl⟩

/-- The file of the source keeps the two distinct blocks of `lo/gos` in input order and
leaves the lemma without records out. -/
theorem generIndex_roundTrip_sample :
    ∃ (file : Bytes) (hfit : file.length ≤ sizeMax) (read : Index),
      writeIndex sampleIndex = .ok file ∧ validLayout ⟨file, hfit⟩ = .ok read ∧
      (∃ view, morpheusGenerIndexLookup read (ascii "lo/gos") = .ok (.ok view)) ∧
      serviceRecords read (ascii "lo/gos") = .ok (.ok
        [[⟨1, some (ascii "log"), some (ascii "os_ou masc")⟩],
          [⟨1, some (ascii "log"), some (ascii "os_ou neut")⟩,
            ⟨3, some (ascii "leg"), some (ascii "w_stem")⟩]]) ∧
      morpheusGenerIndexLookup read (ascii "e)gw/") = .ok (.error .notFound) := by
  obtain ⟨hfit, read, hread, hfound, habsent⟩ :=
    generIndex_roundTrip [sampleSource] sampleIndex _ parseSources_sampleSource
      writeIndex_sampleIndex
  rw [sourceBlocks_sampleSource] at hfound
  obtain ⟨hview, hrecords⟩ := hfound (ascii "lo/gos") ⟨[mascRecord], List.mem_cons_self, by decide⟩
  exact ⟨_, hfit, read, writeIndex_sampleIndex, hread, hview, hrecords.trans (by decide +kernel),
    habsent _ (by decide) (by decide) fun records hmem => sampleSource_bare _ hmem rfl⟩

end Morpheus.GenerIndex
