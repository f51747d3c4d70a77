import Morpheus.CString
import Morpheus.Lexicographic
import Mathlib.Data.List.Destutter

/-!
# Index files of tagged keys

An index is built from records, each a tag, a separator and a key text. The records are
sorted as strings, and records of one tag, as far as the comparison tells tags apart, are
merged into one line of the tag and its keys.
-/
namespace Morpheus

/-- A key table that keeps blanks, and keeps letters above them. -/
structure BlankBelow (key : Byte → Byte) : Prop where
  separatesNul : SeparatesNul key
  low : ∀ c ≤ 32, key c = c
  above : ∀ c, 32 < c → 32 < key c

/-- The table of `morphstrcmp`, `init_comptab`: an iota subscript matches an iota. -/
def comptab (c : Byte) : Byte := if c = 124 then 105 else c

/-- `morphstrcmp` -/
def morphstrcmp (s1 s2 : Bytes) : ℤ := strcmpBy comptab s1 s2

/-- `morphstrncmp` -/
def morphstrncmp (s1 s2 : Bytes) (n : ℕ) : ℤ := strncmpBy comptab n s1 s2

theorem blankBelow_comptab : BlankBelow comptab where
  separatesNul := by
    intro c
    simp only [comptab]
    split
    · rename_i h
      simp [h]
    · exact Iff.rfl
  low := by
    intro c hc
    have : c ≠ 124 := by
      rintro rfl
      exact absurd hc (by decide)
    simp [comptab, this]
  above := by
    intro c hc
    simp only [comptab]
    split
    · decide
    · exact hc

/-- A text without blanks and control characters. -/
def NoBlanks (s : Bytes) : Prop := ∀ c ∈ s, 32 < c

theorem NoBlanks.nulFree {s : Bytes} (h : NoBlanks s) : NulFree s :=
  fun h0 => absurd (h 0 h0) (by decide)

/-- A tag: a text without blanks and control characters that is not empty. -/
def IsWord (s : Bytes) : Prop := s ≠ [] ∧ NoBlanks s

instance (s : Bytes) : Decidable (IsWord s) :=
  decidable_of_iff (s ≠ [] ∧ s.all (fun c => decide (32 < c)) = true) (by simp [IsWord, NoBlanks])

theorem IsWord.nulFree {s : Bytes} (h : IsWord s) : NulFree s := h.2.nulFree

theorem not_isSpace_of_lt {c : Byte} (hc : 32 < c) : isSpace c = false := by
  simp only [isSpace, Bool.or_eq_false_iff, Bool.and_eq_false_iff, beq_eq_false_iff_ne,
    decide_eq_false_iff_not]
  have hn : 32 < c.toNat := hc
  constructor
  · intro h
    subst h
    exact absurd hn (by decide)
  · right
    intro h
    have : c.toNat ≤ 13 := h
    omega

structure IndexRecord where
  tag : Bytes
  text : Bytes
  deriving DecidableEq, Repr

/-- The record as a string. -/
def IndexRecord.line (r : IndexRecord) (separator : Byte) : Bytes := r.tag ++ separator :: r.text

/-- A line of the index: the tag of its first record and the keys. -/
structure IndexLine where
  tag : Bytes
  keys : List Bytes
  deriving DecidableEq, Repr

/-- The keys as they stand in the line. -/
def joinKeys (keys : List Bytes) : Bytes := List.intercalate [32] keys

def IndexLine.text (line : IndexLine) : Bytes := line.tag ++ 32 :: joinKeys line.keys

/-- The merging loop on the sorted strings. The tag before is compared with `cmp`; a key
that repeats the one before it is left out. -/
def mergeLoop (cmp : Bytes → Bytes → ℤ) (split : Bytes → Option (Bytes × Bytes)) :
    Bytes → Bytes → List Bytes → Option Bytes
  | _, _, [] => some []
  | prevtag, prevkey, s :: rest => do
    let (curtag, curkey) ← split s
    let out :=
      if cmp curtag prevtag ≠ 0 then
        (if prevtag ≠ [] then [10] else []) ++ curtag ++ 32 :: curkey
      else if prevkey ≠ curkey then 32 :: curkey
      else []
    let rest ← mergeLoop cmp split curtag curkey rest
    some (out ++ rest)

/-- The lines the merging makes, from the line under construction on. -/
def mergeFrom (key : Byte → Byte) (line : IndexLine) (prevtag prevkey : Bytes) :
    List IndexRecord → List IndexLine
  | [] => [line]
  | r :: rest =>
    if rank key r.tag = rank key prevtag then
      if prevkey ≠ r.text then
        mergeFrom key { line with keys := line.keys ++ [r.text] } r.tag r.text rest
      else mergeFrom key line r.tag r.text rest
    else line :: mergeFrom key ⟨r.tag, [r.text]⟩ r.tag r.text rest

def mergeLines (key : Byte → Byte) : List IndexRecord → List IndexLine
  | [] => []
  | r :: rest => mergeFrom key ⟨r.tag, [r.text]⟩ r.tag r.text rest

/-- Lines as the loop writes them, with a newline between them. -/
def joinLines (lines : List IndexLine) : Bytes :=
  List.intercalate [10] (lines.map IndexLine.text)

/-- Whether a record has a tag, as far as the comparison tells tags apart. -/
def hasTag (key : Byte → Byte) (tag : Bytes) (r : IndexRecord) : Bool :=
  rank key r.tag = rank key tag

@[simp] theorem hasTag_iff {key : Byte → Byte} {tag : Bytes} {r : IndexRecord} :
    hasTag key tag r = true ↔ rank key r.tag = rank key tag := decide_eq_true_iff

theorem hasTag_congr {key : Byte → Byte} {tag tag' : Bytes} (h : rank key tag = rank key tag') :
    hasTag key tag = hasTag key tag' := by
  funext r
  simp [hasTag, h]

/-- The keys of a tag in the order of the records, without immediate repetitions. -/
def mergedKeys (key : Byte → Byte) (tag : Bytes) (records : List IndexRecord) : List Bytes :=
  ((records.filter (hasTag key tag)).map (·.text)).destutter (· ≠ ·)

private theorem mem_destutter' {a k : Bytes} {l : List Bytes} :
    k ∈ List.destutter' (· ≠ ·) a l ↔ k = a ∨ k ∈ l := by
  induction l generalizing a with
  | nil => simp
  | cons b l ih =>
    by_cases h : a = b
    · rw [List.destutter'_cons_neg _ (not_not.mpr h), ih, List.mem_cons, h]
      tauto
    · rw [List.destutter'_cons_pos _ h, List.mem_cons, ih, List.mem_cons]

theorem mem_destutter {k : Bytes} {l : List Bytes} : k ∈ l.destutter (· ≠ ·) ↔ k ∈ l := by
  cases l with
  | nil => rfl
  | cons a l => rw [List.destutter_cons', mem_destutter', List.mem_cons]

section
variable {key : Byte → Byte}

theorem mergeFrom_ne_nil (line : IndexLine) (prevtag prevkey : Bytes)
    (records : List IndexRecord) : mergeFrom key line prevtag prevkey records ≠ [] := by
  induction records generalizing line prevtag prevkey with
  | nil => simp [mergeFrom]
  | cons r rest ih =>
    simp only [mergeFrom]
    split
    · split
      · exact ih _ _ _
      · exact ih _ _ _
    · simp

theorem joinLines_cons {line : IndexLine} {lines : List IndexLine} (h : lines ≠ []) :
    joinLines (line :: lines) = line.text ++ 10 :: joinLines lines := by
  cases lines with
  | nil => exact absurd rfl h
  | cons l lines => simp [joinLines, List.intercalate]

theorem joinKeys_append {keys : List Bytes} (h : keys ≠ []) (k : Bytes) :
    joinKeys (keys ++ [k]) = joinKeys keys ++ 32 :: k := by
  induction keys with
  | nil => exact absurd rfl h
  | cons a keys ih =>
    cases keys with
    | nil => simp [joinKeys, List.intercalate]
    | cons b keys =>
      have hb := ih (by simp)
      simp only [joinKeys, List.intercalate, List.cons_append, List.intersperse_cons_cons,
        List.flatten_cons] at hb ⊢
      simp [hb]

theorem joinKeys_begins (k : Bytes) (keys : List Bytes) :
    ∃ rest, joinKeys (k :: keys) = k ++ rest := by
  cases keys with
  | nil => exact ⟨[], by simp [joinKeys, List.intercalate]⟩
  | cons b keys =>
    exact ⟨32 :: joinKeys (b :: keys), by simp [joinKeys, List.intercalate]⟩

theorem mem_joinKeys {keys : List Bytes} {c : Byte} (h : c ∈ joinKeys keys) :
    c = 32 ∨ ∃ k ∈ keys, c ∈ k := by
  induction keys with
  | nil => simp [joinKeys, List.intercalate] at h
  | cons k keys ih =>
    cases keys with
    | nil => exact Or.inr ⟨k, by simp, by simpa [joinKeys, List.intercalate] using h⟩
    | cons b keys =>
      have hjoin : joinKeys (k :: b :: keys) = k ++ 32 :: joinKeys (b :: keys) := by
        simp [joinKeys, List.intercalate]
      rw [hjoin, List.mem_append, List.mem_cons] at h
      rcases h with h | h | h
      · exact Or.inr ⟨k, by simp, h⟩
      · exact Or.inl h
      · rcases ih h with h | ⟨k', hk', hc⟩
        · exact Or.inl h
        · exact Or.inr ⟨k', by simp [hk'], hc⟩

theorem length_le_joinKeys {keys : List Bytes} {k : Bytes} (h : k ∈ keys) :
    k.length ≤ (joinKeys keys).length := by
  induction keys with
  | nil => simp at h
  | cons a keys ih =>
    rcases List.mem_cons.mp h with rfl | h
    · obtain ⟨rest, hrest⟩ := joinKeys_begins k keys
      simp [hrest]
    · obtain ⟨b, keys, rfl⟩ := List.exists_cons_of_ne_nil (List.ne_nil_of_mem h)
      have hih := ih h
      simp only [joinKeys, List.intercalate, List.intersperse_cons_cons, List.flatten_cons,
        List.length_append] at hih ⊢
      omega

theorem text_append_key (line : IndexLine) (k : Bytes) (h : line.keys ≠ []) :
    IndexLine.text { line with keys := line.keys ++ [k] } = line.text ++ 32 :: k := by
  simp [IndexLine.text, joinKeys_append h]

/-- What the loop writes after a line's beginning are the rest of the line and the lines
after it. -/
theorem mergeLoop_eq (hk : SeparatesNul key) {split : Bytes → Option (Bytes × Bytes)}
    {separator : Byte} {records : List IndexRecord}
    (hsplit : ∀ r ∈ records, split (r.line separator) = some (r.tag, r.text))
    (hwords : ∀ r ∈ records, IsWord r.tag) (line : IndexLine) (prevtag prevkey : Bytes)
    (hprev : IsWord prevtag) (hkeys : line.keys ≠ []) :
    ∃ out, mergeLoop (strcmpBy key) split prevtag prevkey
        (records.map (·.line separator)) = some out ∧
      line.text ++ out = joinLines (mergeFrom key line prevtag prevkey records) := by
  induction records generalizing line prevtag prevkey with
  | nil => exact ⟨[], rfl, by simp [mergeFrom, joinLines, List.intercalate]⟩
  | cons r rest ih =>
    have hword := hwords r (by simp)
    have hcmp := strcmpBy_eq_zero hk hword.nulFree hprev.nulFree
    have hih := ih (fun r hr => hsplit r (by simp [hr])) fun r hr => hwords r (by simp [hr])
    simp only [List.map_cons, mergeLoop, hsplit r (by simp), mergeFrom, Option.bind_eq_bind,
      Option.bind_some]
    by_cases htag : rank key r.tag = rank key prevtag
    · rw [if_neg (not_not.mpr (hcmp.mpr htag)), if_pos htag]
      by_cases hkey : prevkey = r.text
      · obtain ⟨out, hloop, hout⟩ := hih line r.tag r.text hword hkeys
        exact ⟨out, by simp [hkey, hloop], by simp [hkey, hout]⟩
      · obtain ⟨out, hloop, hout⟩ :=
          hih { line with keys := line.keys ++ [r.text] } r.tag r.text hword (by simp)
        rw [text_append_key _ _ hkeys] at hout
        exact ⟨32 :: r.text ++ out, by simp [hkey, hloop], by simpa [hkey] using hout⟩
    · obtain ⟨out, hloop, hout⟩ := hih ⟨r.tag, [r.text]⟩ r.tag r.text hword (by simp)
      rw [if_pos (mt hcmp.mp htag), if_neg htag, joinLines_cons (mergeFrom_ne_nil _ _ _ _),
        ← hout]
      refine ⟨10 :: r.tag ++ 32 :: r.text ++ out, by simp [hprev.1, hloop], ?_⟩
      simp [IndexLine.text, joinKeys, List.intercalate]

/-- The loop on all the records writes the merged lines. -/
theorem mergeLoop_mergeLines (hk : SeparatesNul key) {split : Bytes → Option (Bytes × Bytes)}
    {separator : Byte} {records : List IndexRecord}
    (hsplit : ∀ r ∈ records, split (r.line separator) = some (r.tag, r.text))
    (hwords : ∀ r ∈ records, IsWord r.tag) (prevkey : Bytes) :
    mergeLoop (strcmpBy key) split [] prevkey (records.map (·.line separator)) =
      some (joinLines (mergeLines key records)) := by
  cases records with
  | nil => rfl
  | cons r rest =>
    have hword := hwords r (by simp)
    have hcmp := strcmpBy_eq_zero hk hword.nulFree nulFree_nil
    have htag : strcmpBy key r.tag [] ≠ 0 := by
      intro h
      exact hword.1 (List.map_eq_nil_iff.mp (hcmp.mp h))
    have hrest : ∀ q ∈ rest, split (q.line separator) = some (q.tag, q.text) :=
      fun q hq => hsplit q (by simp [hq])
    obtain ⟨out, hloop, hout⟩ := mergeLoop_eq hk hrest (fun q hq => hwords q (by simp [hq]))
      ⟨r.tag, [r.text]⟩ r.tag r.text hword (by simp)
    simp only [List.map_cons, mergeLoop, hsplit r (by simp), Option.bind_eq_bind,
      Option.bind_some, hloop, mergeLines, ← hout]
    simp [htag, IndexLine.text, joinKeys, List.intercalate]

private theorem destutter'_eq_cons (a : Bytes) (l : List Bytes) :
    List.destutter' (· ≠ ·) a l = a :: (List.destutter' (· ≠ ·) a l).tail := by
  induction l with
  | nil => rfl
  | cons b l ih =>
    by_cases h : a = b
    · rwa [List.destutter'_cons_neg _ (not_not.mpr h)]
    · rw [List.destutter'_cons_pos _ h]
      rfl

/-- A line takes the keys of the records that go on with its tag. -/
theorem mergeFrom_eq (line : IndexLine) (prevtag prevkey : Bytes) (records : List IndexRecord) :
    mergeFrom key line prevtag prevkey records =
      ⟨line.tag, line.keys ++ (List.destutter' (· ≠ ·) prevkey
        ((records.takeWhile (hasTag key prevtag)).map (·.text))).tail⟩ ::
        mergeLines key (records.dropWhile (hasTag key prevtag)) := by
  induction records generalizing line prevtag prevkey with
  | nil => simp [mergeFrom, mergeLines]
  | cons r rest ih =>
    simp only [mergeFrom]
    by_cases htag : rank key r.tag = rank key prevtag
    · have hhas : hasTag key prevtag r = true := hasTag_iff.mpr htag
      have hsame := hasTag_congr htag
      by_cases hkey : prevkey = r.text
      · simp [htag, hkey, ih, hhas, hsame]
      · simp only [htag, if_true, hkey, ne_eq, not_false_eq_true, ih, List.takeWhile_cons,
          List.dropWhile_cons, hhas, hsame, List.map_cons, List.append_assoc,
          List.singleton_append]
        rw [List.destutter'_cons_pos _ hkey, List.tail_cons, ← destutter'_eq_cons]
    · simp [htag, hasTag, mergeLines]

/-- The keys of a line: those of the records that go on with the tag of the first. -/
theorem mergeLines_cons (r : IndexRecord) (rest : List IndexRecord) :
    mergeLines key (r :: rest) =
      ⟨r.tag, (((r :: rest).takeWhile (hasTag key r.tag)).map (·.text)).destutter (· ≠ ·)⟩ ::
        mergeLines key (rest.dropWhile (hasTag key r.tag)) := by
  have hhas : hasTag key r.tag r = true := hasTag_iff.mpr rfl
  rw [mergeLines, mergeFrom_eq, List.takeWhile_cons, if_pos hhas, List.map_cons,
    List.destutter_cons', List.singleton_append, ← destutter'_eq_cons]

/-- Induction along the lines: the records after those of the first line. -/
theorem mergeLines_induction (key : Byte → Byte) {motive : List IndexRecord → Prop} (hnil : motive [])
    (hcons : ∀ r rest, motive (rest.dropWhile (hasTag key r.tag)) →
      motive (r :: rest)) (records : List IndexRecord) : motive records := by
  induction hn : records.length using Nat.strong_induction_on generalizing records with
  | _ n ih =>
    cases records with
    | nil => exact hnil
    | cons r rest =>
      apply hcons
      have hlen := List.length_dropWhile_le (hasTag key r.tag) rest
      exact ih _ (by simp at hn; omega) _ rfl

/-- Records in the order of their tags. -/
def TagsAscend (key : Byte → Byte) (records : List IndexRecord) : Prop :=
  records.Pairwise fun r q => rank key r.tag ≤ rank key q.tag

theorem TagsAscend.dropWhile {records : List IndexRecord} (h : TagsAscend key records)
    (p : IndexRecord → Bool) : TagsAscend key (records.dropWhile p) :=
  h.sublist (List.dropWhile_sublist p)

/-- The records left after the first line come after its tag. -/
theorem TagsAscend.lt_of_mem_dropWhile {r q : IndexRecord} {rest : List IndexRecord}
    (h : TagsAscend key (r :: rest))
    (hq : q ∈ rest.dropWhile (hasTag key r.tag)) :
    rank key r.tag < rank key q.tag := by
  obtain ⟨hr, hrest⟩ := List.pairwise_cons.mp h
  induction rest with
  | nil => simp at hq
  | cons p rest ih =>
    by_cases hp : rank key p.tag = rank key r.tag
    · simp only [List.dropWhile_cons, hasTag, hp, decide_true, if_true] at hq
      have hr' := fun q hq => hr q (List.mem_cons_of_mem p hq)
      have hrest' := (List.pairwise_cons.mp hrest).2
      exact ih (List.pairwise_cons.mpr ⟨hr', hrest'⟩) hq hr' hrest'
    · simp only [List.dropWhile_cons, hasTag, hp, decide_false, Bool.false_eq_true,
        if_false] at hq
      have hrp := lt_of_le_of_ne (hr p (by simp)) (Ne.symm hp)
      rcases List.mem_cons.mp hq with rfl | hq
      · exact hrp
      · exact hrp.trans_le ((List.pairwise_cons.mp hrest).1 q hq)

/-- In order, the records that go on with a tag are all the records of the tag. -/
theorem TagsAscend.takeWhile_eq_filter {r : IndexRecord} {rest : List IndexRecord}
    (h : TagsAscend key (r :: rest)) :
    ((r :: rest).takeWhile (hasTag key r.tag)) =
      (r :: rest).filter (hasTag key r.tag) := by
  have hdrop : ((r :: rest).dropWhile (hasTag key r.tag)) =
      rest.dropWhile (hasTag key r.tag) := by simp [hasTag]
  conv_rhs => rw [← List.takeWhile_append_dropWhile (p := hasTag key r.tag) (l := r :: rest)]
  rw [List.filter_append, List.filter_eq_self.mpr fun q hq => List.mem_takeWhile_imp hq,
    List.filter_eq_nil_iff.mpr, List.append_nil]
  intro q hq
  rw [hdrop] at hq
  simpa using (h.lt_of_mem_dropWhile hq).ne'

theorem mergeLines_length_le (records : List IndexRecord) :
    (mergeLines key records).length ≤ records.length := by
  induction records using mergeLines_induction key with
  | hnil => simp [mergeLines]
  | hcons r rest ih =>
    have hdrop := List.length_dropWhile_le (hasTag key r.tag) rest
    rw [mergeLines_cons, List.length_cons, List.length_cons]
    omega

/-- Every line is the line of a record's tag. -/
theorem exists_record_of_mem_mergeLines (records : List IndexRecord) :
    ∀ line ∈ mergeLines key records, ∃ r ∈ records, r.tag = line.tag := by
  induction records using mergeLines_induction key with
  | hnil => simp [mergeLines]
  | hcons r rest ih =>
    intro line hline
    rw [mergeLines_cons] at hline
    rcases List.mem_cons.mp hline with rfl | hline
    · exact ⟨r, by simp, rfl⟩
    · obtain ⟨q, hq, htag⟩ := ih line hline
      exact ⟨q, List.mem_cons_of_mem r ((List.dropWhile_sublist _).subset hq), htag⟩

/-- Every record has a line for its tag. -/
theorem exists_line_of_mem (key : Byte → Byte) (records : List IndexRecord) :
    ∀ r ∈ records, ∃ line ∈ mergeLines key records, rank key line.tag = rank key r.tag := by
  induction records using mergeLines_induction key with
  | hnil => simp
  | hcons r rest ih =>
    intro q hq
    rw [mergeLines_cons]
    by_cases htag : rank key q.tag = rank key r.tag
    · exact ⟨_, List.mem_cons_self, htag.symm⟩
    · have hrest : q ∈ rest := by
        rcases List.mem_cons.mp hq with rfl | hq
        · exact absurd rfl htag
        · exact hq
      rw [← List.takeWhile_append_dropWhile (p := hasTag key r.tag) (l := rest),
        List.mem_append] at hrest
      rcases hrest with hrest | hrest
      · exact absurd (hasTag_iff.mp (List.mem_takeWhile_imp hrest)) htag
      · obtain ⟨line, hline, hrank⟩ := ih q hrest
        exact ⟨line, List.mem_cons_of_mem _ hline, hrank⟩

/-- The tags of the lines ascend strictly. -/
theorem mergeLines_ascend {records : List IndexRecord} (h : TagsAscend key records) :
    (mergeLines key records).Pairwise fun l m => rank key l.tag < rank key m.tag := by
  induction records using mergeLines_induction key with
  | hnil => simp [mergeLines]
  | hcons r rest ih =>
    rw [mergeLines_cons, List.pairwise_cons]
    constructor
    · intro line hline
      obtain ⟨q, hq, htag⟩ := exists_record_of_mem_mergeLines _ line hline
      rw [← htag]
      exact h.lt_of_mem_dropWhile hq
    · exact ih ((List.pairwise_cons.mp h).2.sublist (List.dropWhile_sublist _))

/-- A line has the merged keys of its tag. -/
theorem mergeLines_keys {records : List IndexRecord} (h : TagsAscend key records) :
    ∀ line ∈ mergeLines key records, line.keys = mergedKeys key line.tag records := by
  induction records using mergeLines_induction key with
  | hnil => simp [mergeLines]
  | hcons r rest ih =>
    intro line hline
    rw [mergeLines_cons] at hline
    rcases List.mem_cons.mp hline with rfl | hline
    · simp only [mergedKeys, h.takeWhile_eq_filter]
    · have hkeys := ih ((List.pairwise_cons.mp h).2.sublist (List.dropWhile_sublist _)) line hline
      obtain ⟨q, hq, htag⟩ := exists_record_of_mem_mergeLines _ line hline
      have hlt := h.lt_of_mem_dropWhile hq
      rw [htag] at hlt
      rw [hkeys, mergedKeys, mergedKeys]
      have hne : ¬hasTag key line.tag r = true := fun he => hlt.ne (hasTag_iff.mp he)
      have htake : (rest.takeWhile (hasTag key r.tag)).filter (hasTag key line.tag) = [] := by
        apply List.filter_eq_nil_iff.mpr
        intro p hp he
        have hpr := hasTag_iff.mp (List.mem_takeWhile_imp hp)
        exact hlt.ne (hpr.symm.trans (hasTag_iff.mp he))
      rw [List.filter_cons_of_neg hne]
      conv_rhs => rw [← List.takeWhile_append_dropWhile (p := hasTag key r.tag) (l := rest)]
      rw [List.filter_append, htake, List.nil_append]

/-- The keys of a tag are the texts of its records. -/
theorem mem_mergedKeys {tag k : Bytes} {records : List IndexRecord} :
    k ∈ mergedKeys key tag records ↔
      ∃ r ∈ records, rank key r.tag = rank key tag ∧ r.text = k := by
  rw [mergedKeys, mem_destutter]
  simp [and_assoc]

/-- A word's letters rank above a blank. -/
theorem NoBlanks.lt_rank (hk : BlankBelow key) {s : Bytes} (h : NoBlanks s) :
    ∀ n ∈ rank key s, 32 < n := by
  intro n hn
  obtain ⟨c, hc, rfl⟩ := List.mem_map.mp hn
  exact hk.above c (h c hc)

theorem IsWord.lt_rank (hk : BlankBelow key) {s : Bytes} (h : IsWord s) :
    ∀ n ∈ rank key s, 32 < n := h.2.lt_rank hk

/-- Two strings of a tag, a separator and a text are compared by their tags first. -/
theorem strcmpBy_line_le (hk : BlankBelow key) {separator : Byte} (h0 : separator ≠ 0)
    (hsep : separator ≤ 32) {r q : IndexRecord} (hr : IsWord r.tag) (hq : IsWord q.tag)
    (hrt : NulFree r.text) (hqt : NulFree q.text) :
    strcmpBy key (r.line separator) (q.line separator) ≤ 0 ↔
      rank key r.tag < rank key q.tag ∨
        rank key r.tag = rank key q.tag ∧ rank key r.text ≤ rank key q.text := by
  have hrn : NulFree (r.line separator) := by
    simp [IndexRecord.line, hr.nulFree, hrt, h0]
  have hqn : NulFree (q.line separator) := by
    simp [IndexRecord.line, hq.nulFree, hqt, h0]
  have hs : separator.toNat ≤ 32 := hsep
  rw [← not_lt, strcmpBy_pos hk.separatesNul hrn hqn, not_lt, IndexRecord.line, IndexRecord.line,
    rank_append, rank_append, rank_cons, rank_cons, hk.low separator hsep]
  exact Lexicographic.separated_le (fun n hn => hs.trans_lt (hr.lt_rank hk n hn))
    (fun n hn => hs.trans_lt (hq.lt_rank hk n hn))

/-- Records in the order of their strings, as `qsort` leaves them. -/
def LinesAscend (key : Byte → Byte) (separator : Byte) (records : List IndexRecord) : Prop :=
  records.Pairwise fun r q => strcmpBy key (r.line separator) (q.line separator) ≤ 0

instance (key : Byte → Byte) (separator : Byte) (records : List IndexRecord) :
    Decidable (LinesAscend key separator records) :=
  inferInstanceAs (Decidable (List.Pairwise _ _))

/-- What the records of an index are made of. -/
def IndexRecord.WellFormed (r : IndexRecord) : Prop :=
  IsWord r.tag ∧ NulFree r.text ∧ 10 ∉ r.text ∧ ∃ c s, r.text = c :: s ∧ isSpace c = false

/-- A record is split at its separator. -/
theorem IndexRecord.WellFormed.split {r : IndexRecord} (h : r.WellFormed) {separator : Byte}
    (hsep : isSpace separator = true) :
    (r.line separator).dropWhile isSpace = r.line separator ∧
      ((r.line separator).takeWhile fun c => !isSpace c) = r.tag ∧
      ((r.line separator).dropWhile fun c => !isSpace c).dropWhile isSpace = r.text := by
  obtain ⟨hword, -, -, c, s, htext, hc⟩ := h
  have htag : ∀ d ∈ r.tag, (!isSpace d) = true := by
    intro d hd
    simp [not_isSpace_of_lt (hword.2 d hd)]
  obtain ⟨d, tag, hd⟩ := List.exists_cons_of_ne_nil hword.1
  have hns := htag d (by simp [hd])
  refine ⟨?_, ?_, ?_⟩
  · rw [IndexRecord.line, hd, List.cons_append, List.dropWhile_cons_of_neg (by simpa using hns)]
  · rw [IndexRecord.line, List.takeWhile_append_of_pos htag]
    simp [hsep]
  · rw [IndexRecord.line, List.dropWhile_append_of_pos htag, List.dropWhile_cons_of_neg
      (by simp [hsep]), List.dropWhile_cons_of_pos hsep, htext,
      List.dropWhile_cons_of_neg (by simp [hc])]

theorem LinesAscend.tagsAscend (hk : BlankBelow key) {separator : Byte} (h0 : separator ≠ 0)
    (hsep : separator ≤ 32) {records : List IndexRecord}
    (hwf : ∀ r ∈ records, r.WellFormed) (h : LinesAscend key separator records) :
    TagsAscend key records := by
  apply List.Pairwise.imp_of_mem _ h
  intro r q hr hq hle
  have hr := hwf r hr
  have hq := hwf q hq
  rcases (strcmpBy_line_le hk h0 hsep hr.1 hq.1 hr.2.1 hq.2.1).mp hle with hlt | ⟨heq, -⟩
  · exact hlt.le
  · exact heq.le

/-- A line with a word for a tag and keys that do not begin with a space. -/
structure IndexLine.WellFormed (line : IndexLine) : Prop where
  word : IsWord line.tag
  nulFree : NulFree (joinKeys line.keys)
  noNewline : 10 ∉ joinKeys line.keys
  begins : ∃ c s, joinKeys line.keys = c :: s ∧ isSpace c = false

/-- A record is not longer than the line of its tag. -/
theorem length_le_of_mem {records : List IndexRecord} (h : TagsAscend key records)
    {r : IndexRecord} (hr : r ∈ records) :
    ∃ line ∈ mergeLines key records, r.tag.length + r.text.length + 1 ≤ line.text.length := by
  obtain ⟨line, hline, hrank⟩ := exists_line_of_mem key records r hr
  have hlen := congrArg List.length hrank
  have htext : r.text ∈ line.keys := by
    rw [mergeLines_keys h line hline]
    exact mem_mergedKeys.mpr ⟨r, hr, hrank.symm, rfl⟩
  have hle := length_le_joinKeys htext
  rw [rank_length, rank_length] at hlen
  refine ⟨line, hline, ?_⟩
  rw [IndexLine.text, List.length_append, List.length_cons]
  omega

/-- The text of a line has no newline. -/
theorem IndexLine.WellFormed.no_newline {line : IndexLine} (h : line.WellFormed) :
    10 ∉ line.text := by
  intro h10
  rw [IndexLine.text, List.mem_append, List.mem_cons] at h10
  rcases h10 with h10 | h10 | h10
  · exact absurd (h.word.2 10 h10) (by decide)
  · exact absurd h10 (by decide)
  · exact h.noNewline h10

/-- The lines of well-formed records are well formed. -/
theorem mergeLines_wellFormed {records : List IndexRecord} (hwf : ∀ r ∈ records, r.WellFormed)
    (h : TagsAscend key records) : ∀ line ∈ mergeLines key records, line.WellFormed := by
  intro line hline
  obtain ⟨r, hr, htag⟩ := exists_record_of_mem_mergeLines records line hline
  have htexts : ∀ k ∈ line.keys, ∃ q ∈ records, q.text = k := by
    intro k hk
    rw [mergeLines_keys h line hline] at hk
    obtain ⟨q, hq, -, htext⟩ := mem_mergedKeys.mp hk
    exact ⟨q, hq, htext⟩
  have hmem : r.text ∈ line.keys := by
    rw [mergeLines_keys h line hline]
    exact mem_mergedKeys.mpr ⟨r, hr, by rw [htag], rfl⟩
  constructor
  · rw [← htag]
    exact (hwf r hr).1
  · intro h0
    rcases mem_joinKeys h0 with h0 | ⟨k, hk, h0⟩
    · exact absurd h0 (by decide)
    · obtain ⟨q, hq, rfl⟩ := htexts k hk
      exact (hwf q hq).2.1 h0
  · intro h10
    rcases mem_joinKeys h10 with h10 | ⟨k, hk, h10⟩
    · exact absurd h10 (by decide)
    · obtain ⟨q, hq, rfl⟩ := htexts k hk
      exact (hwf q hq).2.2.1 h10
  · obtain ⟨k, keys, hkeys⟩ := List.exists_cons_of_ne_nil (List.ne_nil_of_mem hmem)
    obtain ⟨q, hq, htext⟩ := htexts k (by simp [hkeys])
    obtain ⟨-, -, -, c, s, hcs, hc⟩ := hwf q hq
    obtain ⟨rest, hrest⟩ := joinKeys_begins k keys
    exact ⟨c, s ++ rest, by rw [hkeys, hrest, ← htext, hcs, List.cons_append], hc⟩

end

end Morpheus
