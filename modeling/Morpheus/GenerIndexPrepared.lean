import Morpheus.GenerIndexBuilder
import Mathlib.Data.Prod.Lex
import Mathlib.Order.Lex

/-!
# The prepared blocks

What dropping, sorting and deduplicating do to the blocks of one lemma: they leave
its nonempty blocks in input order, each distinct one once.
-/
namespace Morpheus.GenerIndex

theorem strcmp_key {left right : SourceBlock} :
    strcmp left.key right.key = 0 ↔ left.key = right.key :=
  strcmp_eq_zero left.key_ok.2 right.key_ok.2

theorem sameRecord_iff {left right : SourceRecord} : sameRecord left right ↔ left = right := by
  simp only [sameRecord, Bool.and_eq_true, decide_eq_true_eq,
    strcmp_eq_zero left.stem_ok.2 right.stem_ok.2, strcmp_eq_zero left.keys_ok.2 right.keys_ok.2]
  cases left
  cases right
  simp [and_assoc]

theorem sameRecords_iff {left right : List SourceRecord} (h : left.length = right.length) :
    (left.zip right).all (fun p => sameRecord p.1 p.2) ↔ left = right := by
  induction left generalizing right with
  | nil => cases right <;> simp at h ⊢
  | cons l left ih =>
    cases right with
    | nil => simp at h
    | cons r right =>
      have hlen : left.length = right.length := by simpa using h
      simp only [List.zip_cons_cons, List.all_cons, Bool.and_eq_true, ih hlen, sameRecord_iff,
        List.cons.injEq]

theorem sameBlock_iff {left right : SourceBlock} :
    sameBlock left right ↔ left.key = right.key ∧ left.records = right.records := by
  simp only [sameBlock, Bool.and_eq_true, decide_eq_true_eq, strcmp_key, and_assoc]
  refine and_congr_right fun _ => ⟨fun h => (sameRecords_iff h.1).mp h.2, fun h => ?_⟩
  have hlen := congrArg List.length h
  exact ⟨hlen, (sameRecords_iff hlen).mpr h⟩

/-- The order of `compare_blocks` is that of the lemma and then of the ordinal. -/
theorem compareBlocks_le {left right : SourceBlock} :
    compareBlocks left right ≤ 0 ↔
      toLex (rank id left.key, left.ordinal) ≤ toLex (rank id right.key, right.ordinal) := by
  obtain ⟨hlt, heq⟩ := strcmpBy_sign separatesNul_id left.key_ok.2 right.key_ok.2
  change strcmp _ _ < 0 ↔ _ at hlt
  change strcmp _ _ = 0 ↔ _ at heq
  rw [Prod.Lex.toLex_le_toLex, ← hlt, ← heq]
  simp only [compareBlocks]
  split_ifs <;> omega

theorem sortBlocks_pairwise (blocks : List SourceBlock) :
    (sortBlocks blocks).Pairwise fun a b =>
      toLex (rank id a.key, a.ordinal) ≤ toLex (rank id b.key, b.ordinal) := by
  have htrans : IsTrans SourceBlock fun left right => compareBlocks left right ≤ 0 :=
    ⟨fun _ _ _ h h' => compareBlocks_le.mpr ((compareBlocks_le.mp h).trans (compareBlocks_le.mp h'))⟩
  have htotal : Std.Total fun left right : SourceBlock => compareBlocks left right ≤ 0 :=
    ⟨fun _ _ => (le_total _ _).imp compareBlocks_le.mpr compareBlocks_le.mpr⟩
  exact (List.pairwise_insertionSort _ blocks).imp fun h => compareBlocks_le.mp h

theorem sortBlocks_perm (blocks : List SourceBlock) : (sortBlocks blocks).Perm blocks :=
  List.perm_insertionSort _ blocks

theorem sortBlocks_sorted (blocks : List SourceBlock) :
    (sortBlocks blocks).Pairwise fun a b => rank id a.key ≤ rank id b.key :=
  (sortBlocks_pairwise blocks).imp fun h => by
    rcases Prod.Lex.toLex_le_toLex.mp h with h | h
    · exact le_of_lt h
    · exact le_of_eq h.1

/-- Sorting keeps the blocks of one lemma in input order. -/
theorem sortBlocks_filter {blocks : List SourceBlock}
    (h : (blocks.map (·.ordinal)).Pairwise (· < ·)) (key : Bytes) :
    (sortBlocks blocks).filter (fun b => b.key = key) = blocks.filter fun b => b.key = key := by
  have hord := List.pairwise_map.mp h
  refine @List.Perm.eq_of_pairwise _ (fun a b => a.ordinal ≤ b.ordinal) _ _ ?_ ?_
    ((hord.imp le_of_lt).filter _) ((sortBlocks_perm blocks).filter _)
  · intro a b ha hb hab hba
    have hinj := List.inj_on_of_nodup_map (h.imp ne_of_lt)
    refine hinj ?_ (List.mem_of_mem_filter hb) (le_antisymm hab hba)
    exact (sortBlocks_perm blocks).mem_iff.mp (List.mem_of_mem_filter ha)
  · refine ((sortBlocks_pairwise blocks).filter _).imp_of_mem fun {a b} ha hb hle => ?_
    have ha' : a.key = key := by simpa using (List.mem_filter.mp ha).2
    have hb' : b.key = key := by simpa using (List.mem_filter.mp hb).2
    simpa [Prod.Lex.toLex_le_toLex, ha', hb'] using hle

theorem discardDuplicates_sublist (kept blocks : List SourceBlock) :
    (discardDuplicates kept blocks).Sublist (kept.reverse ++ blocks) := by
  induction blocks generalizing kept with
  | nil => simp [discardDuplicates]
  | cons block blocks ih =>
    rw [discardDuplicates]
    split
    · exact (ih kept).trans (List.Sublist.append_left (List.sublist_cons_self ..) _)
    · simpa using ih (block :: kept)

/-- Among sorted blocks the inner loop meets every block of the same lemma. -/
theorem isDuplicate_iff {block : SourceBlock} {kept : List SourceBlock}
    (h : (block :: kept).Pairwise fun a b => rank id b.key ≤ rank id a.key) :
    isDuplicate block kept ↔
      ∃ previous ∈ kept, previous.key = block.key ∧ previous.records = block.records := by
  induction kept with
  | nil => simp [isDuplicate]
  | cons previous kept ih =>
    obtain ⟨hhead, htail⟩ := List.pairwise_cons.mp h
    have hrest : (block :: kept).Pairwise fun a b => rank id b.key ≤ rank id a.key :=
      List.pairwise_cons.mpr ⟨fun c hc => hhead c (by simp [hc]), (List.pairwise_cons.mp htail).2⟩
    by_cases hkey : previous.key = block.key
    · by_cases hrec : previous.records = block.records
      · simp [isDuplicate, strcmp_key, sameBlock_iff, hkey, hrec]
      · simp [isDuplicate, strcmp_key, sameBlock_iff, hkey, hrec, ih hrest]
    · have hlt : rank id previous.key < rank id block.key :=
        lt_of_le_of_ne (hhead previous (by simp)) fun he =>
          hkey (rank_injective Function.injective_id he)
      have hnone : ∀ c ∈ kept, c.key ≠ block.key := fun c hc he => by
        have := (List.pairwise_cons.mp htail).1 c hc
        rw [he] at this
        exact absurd hlt (not_lt.mpr this)
      rw [isDuplicate, if_pos fun h0 => hkey (strcmp_key.mp h0)]
      simp only [Bool.false_eq_true, false_iff]
      rintro ⟨c, hc, he, -⟩
      rcases List.mem_cons.mp hc with rfl | hc
      · exact hkey he
      · exact hnone c hc he

/-- Keeping the first occurrences changes nothing when nothing is repeated. -/
theorem eraseDups_of_nodup {α : Type*} [BEq α] [LawfulBEq α] {l : List α} (h : l.Nodup) :
    l.eraseDups = l := by
  induction l with
  | nil => rfl
  | cons a l ih =>
    obtain ⟨ha, hl⟩ := List.nodup_cons.mp h
    rw [List.eraseDups_cons, List.filter_eq_self.mpr, ih hl]
    intro b hb
    simpa using fun he : b = a => ha (he ▸ hb)

/-- What was met before is dropped. -/
theorem eraseDups_append_of_mem {α : Type*} [BEq α] [LawfulBEq α] {as bs : List α} {a : α}
    (h : a ∈ as) : (as ++ a :: bs).eraseDups = (as ++ bs).eraseDups := by
  rw [List.eraseDups_append, List.eraseDups_append, List.removeAll, List.removeAll,
    List.filter_cons_of_neg (by simpa using h)]

/-- The records of the blocks of one lemma. -/
def recordsFor (key : Bytes) (blocks : List SourceBlock) : List (List SourceRecord) :=
  (blocks.filter fun b => b.key = key).map (·.records)

@[simp] theorem recordsFor_append (key : Bytes) (as bs : List SourceBlock) :
    recordsFor key (as ++ bs) = recordsFor key as ++ recordsFor key bs := by
  simp [recordsFor]

@[simp] theorem recordsFor_cons (key : Bytes) (b : SourceBlock) (bs : List SourceBlock) :
    recordsFor key (b :: bs) =
      if b.key = key then b.records :: recordsFor key bs else recordsFor key bs := by
  by_cases h : b.key = key <;> simp [recordsFor, h]

theorem mem_recordsFor {key : Bytes} {blocks : List SourceBlock} {records : List SourceRecord} :
    records ∈ recordsFor key blocks ↔ ∃ b ∈ blocks, b.key = key ∧ b.records = records := by
  simp [recordsFor, and_assoc]

/-- The loop of `discard_duplicate_blocks` keeps each distinct block once, the first one. -/
theorem discardDuplicates_recordsFor {kept blocks : List SourceBlock}
    (hs : (kept.reverse ++ blocks).Pairwise fun a b => rank id a.key ≤ rank id b.key)
    (hn : ∀ key, (recordsFor key kept.reverse).Nodup) (key : Bytes) :
    recordsFor key (discardDuplicates kept blocks) =
      (recordsFor key (kept.reverse ++ blocks)).eraseDups := by
  induction blocks generalizing kept with
  | nil => simpa [discardDuplicates] using (eraseDups_of_nodup (hn key)).symm
  | cons block blocks ih =>
    have hdesc : (block :: kept).Pairwise fun a b => rank id b.key ≤ rank id a.key := by
      have : ((block :: kept).reverse).Pairwise fun a b => rank id a.key ≤ rank id b.key := by
        rw [List.reverse_cons]
        exact hs.sublist (List.Sublist.append_left (by simp) _)
      exact List.pairwise_reverse.mp this
    have hdup := isDuplicate_iff hdesc
    rw [discardDuplicates]
    split
    · rename_i h
      obtain ⟨previous, hp, hkey, hrec⟩ := hdup.mp h
      rw [ih (hs.sublist (List.Sublist.append_left (List.sublist_cons_self ..) _)) hn]
      simp only [recordsFor_append, recordsFor_cons]
      split
      · rename_i hk
        refine (eraseDups_append_of_mem (mem_recordsFor.mpr ⟨previous, ?_, ?_, hrec⟩)).symm
        · simpa using hp
        · rw [hkey, hk]
      · rfl
    · rename_i h
      have hlist : (block :: kept).reverse ++ blocks = kept.reverse ++ block :: blocks := by simp
      rw [ih (hlist ▸ hs) fun key => ?_, hlist]
      rw [List.reverse_cons, recordsFor_append, recordsFor_cons]
      split
      · rename_i hk
        refine List.nodup_append.mpr ⟨hn key, by simp [recordsFor], ?_⟩
        rintro a ha b hb rfl
        obtain ⟨previous, hp, hkey, hrec⟩ := mem_recordsFor.mp ha
        refine h (hdup.mpr ⟨previous, by simpa using hp, by rw [hkey, hk], ?_⟩)
        simpa [recordsFor, hrec] using hb
      · simpa [recordsFor] using hn key

/-- The nonempty blocks of a lemma, each distinct one once. -/
def blocksFor (blocks : List (Bytes × List SourceRecord)) (key : Bytes) :
    List (List SourceRecord) :=
  ((blocks.filter fun b => b.1 = key ∧ b.2 ≠ []).map (·.2)).eraseDups

theorem mem_blocksFor {blocks : List (Bytes × List SourceRecord)} {key : Bytes}
    {records : List SourceRecord} :
    records ∈ blocksFor blocks key ↔ (key, records) ∈ blocks ∧ records ≠ [] := by
  simp [blocksFor, List.mem_eraseDups]

theorem preparedBlocks_recordsFor (index : SourceIndex) (key : Bytes) :
    recordsFor key (preparedBlocks index) = blocksFor index.pairs key := by
  have hord : ((discardEmptyBlocks index.blocks).map (·.ordinal)).Pairwise (· < ·) :=
    List.pairwise_map.mpr ((List.pairwise_map.mp index.ordered).filter _)
  have h := @discardDuplicates_recordsFor [] _ (by
    simpa using sortBlocks_sorted (discardEmptyBlocks index.blocks)) (by simp [recordsFor]) key
  refine h.trans ?_
  rw [List.reverse_nil, List.nil_append, recordsFor, sortBlocks_filter hord, discardEmptyBlocks,
    List.filter_filter, blocksFor, SourceIndex.pairs, List.filter_map, List.map_map]
  simp [Function.comp_def]

theorem preparedBlocks_sorted (index : SourceIndex) :
    (preparedBlocks index).Pairwise fun a b => rank id a.key ≤ rank id b.key :=
  (sortBlocks_sorted _).sublist (discardDuplicates_sublist [] _)

theorem mem_preparedBlocks {index : SourceIndex} {block : SourceBlock}
    (h : block ∈ preparedBlocks index) : block ∈ index.blocks ∧ block.records ≠ [] := by
  have := (discardDuplicates_sublist [] _).subset h
  simpa [sortBlocks, discardEmptyBlocks] using this

end Morpheus.GenerIndex
