import Morpheus.GenerIndexRoundTrip
import Morpheus.GenerIndexScriptParse

/-!
# The two builders write the same file

The script builder measures the tables of the index builder and moves the same cursors
through the same payload, so the files are equal wherever both builders write one. They
differ in their limits alone.
-/
namespace Morpheus.GenerScript
open Checked GenerIndex

/-- The text of a record is the same text for both builders. -/
def AsciiRecord (record : SourceRecord) : Prop := Ascii record.stem ∧ Ascii record.keys

def AsciiBlock (block : SourceBlock) : Prop :=
  Ascii block.key ∧ ∀ record ∈ block.records, AsciiRecord record

def ofGroup (group : Bytes × List SourceBlock) : ScriptString × List ScriptBlock :=
  (units group.1, group.2.map ofBlock)

theorem Ascii.sublist {s t : Bytes} (h : Ascii t) (hs : s.Sublist t) : Ascii s :=
  fun c hc => h c (hs.subset hc)

theorem encodedSize_units {s : Bytes} (h : Ascii s) : encodedSize (units s) = s.length + 1 := by
  rw [encodedSize, encodeString_units h]

theorem measureRecords_agrees {records : List SourceRecord}
    (h : ∀ record ∈ records, AsciiRecord record) (size : ℕ) :
    (records.map ofRecord).foldl measureRecord size = size + recordStrings records := by
  induction records generalizing size with
  | nil => simp [recordStrings]
  | cons record records ih =>
    obtain ⟨hstem, hkeys⟩ := h record (by simp)
    rw [List.map_cons, List.foldl_cons, ih fun r hr => h r (by simp [hr])]
    simp only [measureRecord, ofRecord, encodedSize_units hstem, encodedSize_units hkeys,
      recordStrings, List.map_cons, List.sum_cons]
    omega

theorem measureLemma_agrees {previous : Option Bytes} (hp : ∀ key ∈ previous, NulFree key)
    (sizes : Sizes) {block : SourceBlock} (h : Ascii block.key) :
    measureLemma (previous.map units) sizes (ofBlock block) =
      GenerIndex.addLemma previous sizes block := by
  have hnew : (previous.all fun key => decide (strcmp key block.key ≠ 0)) = true ↔
      previous.map units ≠ some (units block.key) := by
    cases previous with
    | none => simp
    | some key =>
      simp only [Option.all_some, decide_eq_true_eq, Option.map_some, ne_eq, Option.some.injEq,
        units_inj, strcmp_eq_zero (hp key rfl) block.key_ok.2]
  simp only [measureLemma, GenerIndex.addLemma, ofBlock, encodedSize_units h]
  by_cases heq : previous.map units = some (units block.key)
  · rw [if_pos heq, if_neg fun hall => hnew.mp hall heq]
  · rw [if_neg heq, if_pos (hnew.mpr heq)]

/-- The counting loop of the script builder counts the tables of the index builder. -/
theorem measureBlocks_agrees {blocks : List SourceBlock} (h : ∀ b ∈ blocks, AsciiBlock b)
    {previous : Option Bytes} (hp : ∀ key ∈ previous, NulFree key) (sizes : Sizes) :
    measureBlocks (previous.map units) sizes (blocks.map ofBlock) =
      measured previous sizes blocks := by
  induction blocks generalizing previous sizes with
  | nil => simp [measureBlocks, measured, newLemmas, keyStrings, recordStrings, blockRecordsOf]
  | cons block blocks ih =>
    obtain ⟨hkey, hrecords⟩ := h block (by simp)
    have hnul : ∀ key ∈ some block.key, NulFree key := fun key hk =>
      Option.some.inj hk ▸ block.key_ok.2
    rw [measured_cons, ← ih (fun b hb => h b (by simp [hb])) hnul, List.map_cons, measureBlocks]
    simp only [measureLemma_agrees hp sizes hkey]
    have hsize := measureRecords_agrees hrecords (GenerIndex.addLemma previous sizes block).stringSize
    simp only [ofBlock, hsize, List.length_map]
    rfl

/-- What the store of a C string does, the stores of the script do. -/
theorem writeString_agrees {output output' : Bytes} {offset : ℕ} {s : Bytes} (hs : Ascii s)
    (h : putString output offset s = .ok output') :
    writeString output offset (units s) = .ok (output', offset + s.length + 1) := by
  unfold putString write at h
  split at h
  case isFalse => cases h
  rename_i hfit
  rw [List.length_append, List.length_singleton] at hfit
  cases h
  have hdrop : output.drop (offset + s.length) =
      (output.get ⟨offset + s.length, by omega⟩) :: output.drop (offset + s.length + 1) := by
    exact List.drop_eq_getElem_cons (by omega)
  have hlen : (output.take offset ++ s).length = offset + s.length := by
    rw [List.length_append, List.length_take]
    omega
  rw [writeString, encodeString_units hs]
  refine step_eq (if_pos (by omega)) (congrArg Except.ok ?_)
  rw [Prod.mk.injEq, hdrop, List.set_append_right _ _ (by omega), hlen, Nat.sub_self,
    List.set_cons_zero]
  simp [Nat.add_assoc]

section
variable {layout : Layout} {c c' : Cursors}

theorem sub_ok {a b d : ℕ} (h : sub a b = .ok d) : d = a - b := by
  unfold Checked.sub at h
  split at h
  · exact (Except.ok.inj h).symm
  · cases h

theorem add_ok {max a b d : ℕ} (h : add max a b = .ok d) : d = a + b := by
  unfold Checked.add at h
  split at h
  · exact (Except.ok.inj h).symm
  · cases h

theorem writeRecord_agrees {item : SourceRecord} (ha : AsciiRecord item)
    (h : GenerIndex.writeRecord layout c item = .ok c') :
    writeRecord layout c (ofRecord item) = .ok c' := by
  unfold GenerIndex.writeRecord at h
  obtain ⟨_, h1, h⟩ := bind_eq_ok.mp h
  obtain ⟨_, h2, h⟩ := bind_eq_ok.mp h
  obtain ⟨_, h3, h⟩ := bind_eq_ok.mp h
  obtain ⟨_, h4, h⟩ := bind_eq_ok.mp h
  obtain ⟨_, h5, h⟩ := bind_eq_ok.mp h
  obtain ⟨_, h6, h⟩ := bind_eq_ok.mp h
  obtain ⟨_, h7, h⟩ := bind_eq_ok.mp h
  obtain ⟨_, h8, h⟩ := bind_eq_ok.mp h
  obtain ⟨_, h9, h⟩ := bind_eq_ok.mp h
  obtain ⟨_, h10, h⟩ := bind_eq_ok.mp h
  obtain ⟨_, h11, h⟩ := bind_eq_ok.mp h
  obtain rfl := sub_ok h1
  obtain rfl := add_ok h3
  obtain rfl := sub_ok h4
  obtain rfl := add_ok h6
  obtain rfl := add_ok h10
  obtain rfl := add_ok h11
  refine step_eq (writeString_agrees ha.1 h2) ?_
  refine step_eq (writeString_agrees ha.2 h5) ?_
  exact step_eq h7 (step_eq h8 (step_eq h9 h))

/-- A loop of the script builder does what the loop of the index builder does. -/
theorem foldlM_agrees {α β : Type} {put : Cursors → α → Checked Cursors}
    {put' : Cursors → β → Checked Cursors} {f : α → β} {l : List α}
    (hput : ∀ c, ∀ a ∈ l, ∀ c', put c a = .ok c' → put' c (f a) = .ok c')
    (h : l.foldlM put c = .ok c') : (l.map f).foldlM put' c = .ok c' := by
  induction l generalizing c with
  | nil => exact h
  | cons a l ih =>
    rw [List.foldlM_cons] at h
    obtain ⟨c1, h1, h⟩ := bind_eq_ok.mp h
    rw [List.map_cons, List.foldlM_cons]
    exact step_eq (hput c a (by simp) c1 h1) (ih (fun c b hb => hput c b (by simp [hb])) h)

theorem writeBlock_agrees {block : SourceBlock} (ha : AsciiBlock block)
    (hne : block.records ≠ []) (h : GenerIndex.writeBlock layout c block = .ok c') :
    writeBlock layout c (ofBlock block) = .ok c' := by
  rw [GenerIndex.writeBlock, if_neg hne] at h
  obtain ⟨_, h1, h⟩ := bind_eq_ok.mp h
  obtain ⟨_, h2, h⟩ := bind_eq_ok.mp h
  obtain ⟨_, h3, h⟩ := bind_eq_ok.mp h
  obtain rfl := add_ok h3
  unfold writeBlock
  simp only [ofBlock, List.length_map]
  refine step_eq h1 (step_eq h2 ?_)
  exact foldlM_agrees (fun c r hr c' => writeRecord_agrees (ha.2 r hr)) h

/-- One turn of the writing loop, at a cursor between two rows of the block table. -/
theorem writeGroup_agrees {group : Bytes × List SourceBlock} (hkey : Ascii group.1)
    (ha : ∀ b ∈ group.2, AsciiBlock b) (hne : ∀ b ∈ group.2, b.records ≠ []) (hpos : group.2 ≠ [])
    (halign : blockEntrySize ∣ c.blockCursor - layout.lemmaSize)
    (h : GenerIndex.writeGroup layout c group = .ok c') :
    writeGroup layout c (ofGroup group) = .ok c' := by
  have hcountP : group.2.countP (fun block => block.records ≠ []) = group.2.length :=
    List.countP_eq_length.mpr fun b hb => by simpa using hne b hb
  have hlen : group.2.length ≠ 0 := by simpa using hpos
  unfold GenerIndex.writeGroup at h
  simp only [hcountP, if_neg hlen] at h
  obtain ⟨_, -, h⟩ := bind_eq_ok.mp h
  obtain ⟨_, h2, h⟩ := bind_eq_ok.mp h
  obtain ⟨_, h3, h⟩ := bind_eq_ok.mp h
  obtain ⟨_, h4, h⟩ := bind_eq_ok.mp h
  obtain ⟨_, h5, h⟩ := bind_eq_ok.mp h
  obtain ⟨_, h6, h⟩ := bind_eq_ok.mp h
  obtain ⟨_, h7, h⟩ := bind_eq_ok.mp h
  obtain ⟨_, h8, h⟩ := bind_eq_ok.mp h
  obtain ⟨_, h9, h⟩ := bind_eq_ok.mp h
  obtain rfl := sub_ok h2
  obtain rfl := add_ok h4
  obtain rfl := sub_ok h6
  obtain rfl := add_ok h9
  unfold writeGroup
  simp only [ofGroup, List.length_map]
  refine step_eq (writeString_agrees hkey h3) ?_
  refine step_eq h5 (step_eq ((require_eq_ok (u := ())).mpr halign) (step_eq h7 (step_eq h8 ?_)))
  exact foldlM_agrees (fun c b hb c' => writeBlock_agrees (ha b hb) (hne b hb)) h

end

theorem groupBlocks_agrees (blocks : List SourceBlock) :
    groupBlocks (blocks.map ofBlock) = (GenerIndex.groupBlocks blocks).map ofGroup := by
  fun_induction GenerIndex.groupBlocks blocks with
  | case1 => simp [groupBlocks]
  | case2 block blocks ih =>
    have hsame : (fun b : ScriptBlock => decide (b.lemmaText = (ofBlock block).lemmaText)) ∘ ofBlock =
        fun b => decide (strcmp block.key b.key = 0) := by
      funext b
      simp only [Function.comp, ofBlock, units_inj, strcmp_key]
      exact decide_eq_decide.mpr eq_comm
    rw [List.map_cons, groupBlocks, List.takeWhile_map, List.dropWhile_map, hsame, ih]
    rfl

theorem payloadHash_agrees (payload : Bytes) :
    payloadHash payload = (GenerIndex.payloadHash payload).toNat := by
  have hrun : ∀ (payload : Bytes) (hash : UInt64),
      payload.foldl (fun hash byte => (hash ^^^ byte.toNat) * 1099511628211 % 2 ^ 64) hash.toNat =
        (payload.foldl (fun hash byte => (hash ^^^ byte.toUInt64) * 1099511628211) hash).toNat := by
    intro payload
    induction payload with
    | nil => intro hash; rfl
    | cons byte payload ih =>
      intro hash
      rw [List.foldl_cons, List.foldl_cons, ← ih]
      simp
  exact hrun payload 14695981039346656037

theorem writeHeader_agrees (t : Tables) {sizes : Sizes} {payload : Bytes}
    (hs : sizes = ⟨t.lemmas.length, t.records.length, t.strings.length⟩)
    (hp : payload = t.payload) :
    writeHeader sizes t.blocks.length payload = .ok (headerOf t) := by
  subst hs hp
  have hstart : write (List.replicate GenerIndex.headerSize 0) 0 (encodeString (text "MORPHGEN")) =
      .ok (ascii "MORPHGEN" ++ List.replicate (GenerIndex.headerSize - 8) 0) := by
    have hmagic : Ascii (ascii "MORPHGEN") := List.forall_iff_forall_mem.mp (by decide)
    rw [text, encodeString_units hmagic]
    exact if_pos (by decide)
  have hrest := writeHeader_eq t
  unfold GenerIndex.writeHeader at hrest
  rw [writeHeader, payloadHash_agrees, hstart, ok_bind]
  exact hrest

/-- The sizes of the tables, as either builder adds them up. -/
def tableSizes (t : Tables) : Sizes := ⟨t.lemmas.length, t.records.length, t.strings.length⟩

theorem payloadSize_tables (t : Tables) :
    payloadSize (tableSizes t) t.blocks.length = t.payload.length := by
  simp only [payloadSize, tableSizes, Tables.payload_length, Tables.lemmaBytes_length,
    Tables.blockBytes_length, Tables.recordBytes_length]

section
variable {blocks : List SourceBlock}

theorem writeGroups_agrees (ha : ∀ b ∈ blocks, AsciiBlock b) (hne : ∀ b ∈ blocks, b.records ≠ [])
    (hg : ∀ group ∈ GenerIndex.groupBlocks blocks, group.2.length ≤ uint32Max)
    (hfit : (tablesOf blocks).payload.length ≤ sizeMax) :
    ((GenerIndex.groupBlocks blocks).map ofGroup).foldlM (writeGroup (layoutOf (tablesOf blocks)))
        (cursorsAt (tablesOf blocks) Tables.empty) =
      .ok (cursorsAt (tablesOf blocks) (tablesOf blocks)) := by
  have hmem : ∀ group ∈ GenerIndex.groupBlocks blocks, ∀ b ∈ group.2, b ∈ blocks :=
    fun group hgroup b hb => by
      rw [← groupBlocks_flatMap blocks]
      exact List.mem_flatMap_of_mem hgroup hb
  rw [List.foldlM_map]
  refine foldlM_eq Tables.extends_addGroup (fun t group hgroup hext => ?_)
    (Tables.Extends.refl (tablesOf blocks))
  obtain ⟨hpos, hkey⟩ := mem_groupBlocks hgroup
  have hrecords : ∀ b ∈ group.2, b.records ≠ [] := fun b hb => hne b (hmem group hgroup b hb)
  have hstep := writeGroup_eq hrecords hpos (hg group hgroup) hext hfit
  refine writeGroup_agrees ?_ (fun b hb => ha b (hmem group hgroup b hb)) hrecords hpos ?_ hstep
  · obtain ⟨b, hb⟩ := List.exists_mem_of_ne_nil _ hpos
    exact hkey b hb ▸ (ha b (hmem group hgroup b hb)).1
  · simp only [cursorsAt, layoutOf, Nat.add_sub_cancel_left, Tables.blockBytes_length]
    exact Nat.dvd_mul_left ..

theorem writeFile_agrees (ha : ∀ b ∈ blocks, AsciiBlock b) (hne : ∀ b ∈ blocks, b.records ≠ [])
    (hg : ∀ group ∈ GenerIndex.groupBlocks blocks, group.2.length ≤ uint32Max)
    (hfit : (tablesOf blocks).payload.length ≤ sizeMax) :
    writeFile (tableSizes (tablesOf blocks)) (blocks.map ofBlock) =
      .ok (fileOf (tablesOf blocks)) := by
  have hcount := (tablesOf_lengths blocks).2.1
  have hrun := writeGroups_agrees ha hne hg hfit
  have hlayout : layoutOf (tablesOf blocks) = ⟨(tablesOf blocks).lemmas.length * lemmaEntrySize,
      (tablesOf blocks).lemmas.length * lemmaEntrySize +
        (tablesOf blocks).blocks.length * blockEntrySize +
        (tablesOf blocks).records.length * recordEntrySize⟩ := by
    simp [layoutOf, Tables.lemmaBytes_length, Tables.blockBytes_length, Tables.recordBytes_length]
  rw [hlayout, cursorsAt_start] at hrun
  unfold writeFile
  rw [groupBlocks_agrees, List.length_map, ← hcount]
  refine step_eq hrun ?_
  rw [cursorsAt_end]
  exact step_eq (writeHeader_agrees (tablesOf blocks) rfl rfl) rfl

end

/-- The bytes of a line that `fgets` returns are bytes of the file. -/
theorem mem_fgetsFrom {capacity room : ℕ} {line file l : Bytes}
    (hl : l ∈ fgetsFrom capacity room line file) {c : Byte} (hc : c ∈ l) :
    c ∈ line ∨ c ∈ file := by
  induction file generalizing room line with
  | nil =>
    cases line with
    | nil => simp [fgetsFrom] at hl
    | cons d line => exact .inl (List.mem_singleton.mp hl ▸ hc)
  | cons d file ih =>
    have hstep : fgetsFrom capacity room line (d :: file) =
        if d = 10 ∨ room ≤ 1 then (line ++ [d]) :: fgetsFrom capacity capacity [] file
        else fgetsFrom capacity (room - 1) (line ++ [d]) file := by
      cases line <;> rfl
    have hnext : c ∈ line ++ [d] → c ∈ line ∨ c ∈ d :: file := fun h => by
      rcases List.mem_append.mp h with h | h
      · exact .inl h
      · exact .inr (List.mem_singleton.mp h ▸ List.mem_cons_self)
    rw [hstep] at hl
    split at hl
    · rcases List.mem_cons.mp hl with rfl | hl
      · exact hnext hc
      · rcases ih hl with h | h
        · cases h
        · exact .inr (List.mem_cons_of_mem _ h)
    · rcases ih hl with h | h
      · exact hnext h
      · exact .inr (List.mem_cons_of_mem _ h)

/-- A byte of a text stands in one of its parts, or between two of them. -/
theorem mem_splitOn {sep c : Byte} {file : Bytes} (h : c ∈ file) :
    c = sep ∨ ∃ line ∈ file.splitOn sep, c ∈ line := by
  induction hn : file.length using Nat.strong_induction_on generalizing file with
  | _ n ih =>
    by_cases hmem : sep ∈ file
    · obtain ⟨line, rest, rfl, hline⟩ := List.eq_append_cons_of_mem hmem
      rw [List.splitOn_append_cons_self_of_not_mem hline]
      rcases List.mem_append.mp h with h | h
      · exact .inr ⟨line, by simp, h⟩
      · rcases List.mem_cons.mp h with rfl | h
        · exact .inl rfl
        · refine (ih _ (by simp at hn; omega) h rfl).imp_right ?_
          rintro ⟨l, hl, hc⟩
          exact ⟨l, by simp [hl], hc⟩
    · exact .inr ⟨file, by simp [List.splitOn_eq_singleton hmem], h⟩

theorem plainSource_ascii {file : Bytes} (h : PlainSource file) : Ascii file := by
  intro c hc
  rcases @mem_splitOn 10 c file hc with rfl | ⟨line, hline, hmem⟩
  · decide
  · exact line_ascii (h line hline) c hmem

def AsciiState (state : ParseState) : Prop := ∀ b ∈ state.index.blocks, AsciiBlock b

theorem mem_modify {α : Type} {l : List α} {i : ℕ} {f : α → α} {b : α} (h : b ∈ l.modify i f) :
    b ∈ l ∨ ∃ a ∈ l, b = f a := by
  obtain ⟨j, hj, rfl⟩ := List.getElem_of_mem h
  rw [List.getElem_modify]
  split
  · exact .inr ⟨_, List.getElem_mem _, rfl⟩
  · exact .inl (List.getElem_mem _)

theorem canonicalLemma_sublist (s : Bytes) : (GenerIndex.canonicalLemma s).Sublist s := by
  refine List.filter_sublist.trans ?_
  have ht := List.takeWhile_sublist (l := s) fun c => !isBreak c
  split
  · exact (List.tail_sublist _).trans ht
  · exact ht

theorem trim_sublist (s : Bytes) : (trim s).Sublist s :=
  (List.rdropWhile_prefix _ _).sublist.trans (List.dropWhile_suffix _).sublist

theorem recordFields_sublist (s : Bytes) :
    (recordFields s).1.Sublist s ∧ (recordFields s).2.Sublist s :=
  ⟨(List.takeWhile_sublist _).trans (List.drop_sublist 4 s),
    (trim_sublist _).trans ((List.drop_sublist _ _).trans
      ((List.dropWhile_suffix _).sublist.trans (List.drop_sublist 4 s)))⟩

theorem parseContent_ascii {state state' : ParseState} {content : Bytes} {hc : NulFree content}
    (ha : Ascii content) (hs : AsciiState state)
    (h : GenerIndex.parseContent state content hc = .ok state') : AsciiState state' := by
  unfold GenerIndex.parseContent at h
  split at h
  · exact Except.ok.inj h ▸ hs
  split at h
  · dsimp only at h
    split at h
    · cases h
    · obtain rfl := Except.ok.inj h
      intro b hb
      rcases List.mem_append.mp hb with hb | hb
      · exact hs b hb
      · obtain rfl := List.mem_singleton.mp hb
        refine ⟨Ascii.sublist ha ?_, by simp⟩
        exact (canonicalLemma_sublist _).trans ((trim_sublist _).trans (List.drop_sublist 4 _))
  split at h
  · cases h
  unfold GenerIndex.parseRecord at h
  split at h
  · exact Except.ok.inj h ▸ hs
  split at h
  · cases h
  split at h
  · cases h
  obtain rfl := Except.ok.inj h
  intro b hb
  rcases mem_modify hb with hb | ⟨a, hmem, rfl⟩
  · exact hs b hb
  · refine ⟨(hs a hmem).1, fun record hr => ?_⟩
    rcases List.mem_append.mp hr with hr | hr
    · exact (hs a hmem).2 record hr
    · obtain rfl := List.mem_singleton.mp hr
      exact ⟨Ascii.sublist ha (recordFields_sublist content).1,
        Ascii.sublist ha (recordFields_sublist content).2⟩

theorem parseLines_ascii {lines : List Bytes} {state state' : ParseState} {lineNumber : ℕ}
    (ha : ∀ line ∈ lines, Ascii line) (hs : AsciiState state)
    (h : parseLines lineNumber state lines = .ok state') : AsciiState state' := by
  induction lines generalizing state lineNumber with
  | nil => exact Except.ok.inj h ▸ hs
  | cons line lines ih =>
    rw [parseLines] at h
    cases hline : GenerIndex.parseLine state line with
    | error problem => simp [hline] at h
    | ok next =>
      simp only [hline] at h
      refine ih (fun l hl => ha l (by simp [hl])) ?_ h
      unfold GenerIndex.parseLine at hline
      simp only at hline
      split at hline
      · cases hline
      · refine parseContent_ascii (Ascii.sublist (ha line (by simp)) ?_) hs hline
        exact (trim_sublist _).trans (List.takeWhile_sublist _)

theorem parseSources_ascii {files : List Bytes} {index index' : SourceIndex}
    (ha : ∀ file ∈ files, Ascii file) (hs : ∀ b ∈ index.blocks, AsciiBlock b)
    (h : GenerIndex.parseSources index files = .ok index') :
    ∀ b ∈ index'.blocks, AsciiBlock b := by
  induction files generalizing index with
  | nil => exact Except.ok.inj h ▸ hs
  | cons file files ih =>
    rw [GenerIndex.parseSources] at h
    cases hfile : GenerIndex.parseSource index file with
    | error error => simp [hfile] at h
    | ok next =>
      simp only [hfile] at h
      refine ih (fun f hf => ha f (by simp [hf])) ?_ h
      unfold GenerIndex.parseSource at hfile
      cases hlines : parseLines 0 ⟨index, none⟩ (fgetsLines lineCapacity file) with
      | error error => simp [hlines, Except.map] at hfile
      | ok state =>
        rw [hlines] at hfile
        obtain rfl := Except.ok.inj hfile
        refine @parseLines_ascii _ ⟨index, none⟩ state 0 (fun line hl c hc => ?_) hs hlines
        rcases mem_fgetsFrom hl hc with h0 | hmem
        · cases h0
        · exact ha file (by simp) c hmem

/-- The limits of the script builder; the index builder has wider ones. -/
structure ScriptLimits (blocks : List SourceBlock) : Prop where
  count : blocks.length ≤ uint32Max
  size : (tablesOf blocks).payload.length ≤ maxSafeInteger

instance (blocks : List SourceBlock) : Decidable (ScriptLimits blocks) :=
  decidable_of_iff (_ ∧ _) ⟨fun h => ⟨h.1, h.2⟩, fun h => ⟨h.1, h.2⟩⟩

theorem length_groupBlocks_le {blocks : List SourceBlock} :
    ∀ group ∈ GenerIndex.groupBlocks blocks, group.2.length ≤ blocks.length := by
  intro group hg
  conv_rhs => rw [← groupBlocks_flatMap blocks, List.flatMap_def]
  exact (List.sublist_flatten_of_mem (List.mem_map_of_mem hg)).length_le

theorem length_le_flatMap {α β : Type} {groups : List (α × List β)}
    (h : ∀ group ∈ groups, group.2 ≠ []) : groups.length ≤ (groups.flatMap (·.2)).length := by
  induction groups with
  | nil => simp
  | cons group groups ih =>
    have hpos := List.length_pos_iff.mpr (h group (by simp))
    have := ih fun g hg => h g (by simp [hg])
    rw [List.flatMap_cons, List.length_cons, List.length_append]
    omega

theorem lemmas_le_blocks (blocks : List SourceBlock) :
    (tablesOf blocks).lemmas.length ≤ blocks.length := by
  have hlen := congrArg List.length (groupBlocks_keys blocks)
  rw [List.length_map] at hlen
  rw [(tablesOf_lengths blocks).1, ← hlen]
  conv_rhs => rw [← groupBlocks_flatMap blocks]
  exact length_le_flatMap fun group hg => (mem_groupBlocks hg).1

/-- The script builder behind the reading of its sources. -/
theorem buildGenerIndex_of_parse {files : List Bytes} (h : ∀ file ∈ files, PlainSource file)
    {index : SourceIndex} (hparse : GenerIndex.parseSources emptyIndex files = .ok index) :
    buildGenerIndex (files.map units) =
      if ScriptLimits (preparedBlocks index) then .ok (fileOf (tablesOf (preparedBlocks index)))
      else .error .limits := by
  have hblocks : ∀ b ∈ preparedBlocks index, b ∈ index.blocks ∧ b.records ≠ [] :=
    fun b hb => mem_preparedBlocks hb
  have hascii := parseSources_ascii (fun file hf => plainSource_ascii (h file hf))
    (by simp [emptyIndex]) hparse
  have hparsed : parseSources (files.map units) = .ok ((preparedBlocks index).map ofBlock) := by
    rw [parseSources_agrees h, hparse]
    rfl
  generalize preparedBlocks index = blocks at hblocks hparsed ⊢
  have ha : ∀ b ∈ blocks, AsciiBlock b := fun b hb => hascii b (hblocks b hb).1
  have hsizes : measureBlocks none ⟨0, 0, 0⟩ (blocks.map ofBlock) =
      tableSizes (tablesOf blocks) := by
    obtain ⟨h1, h2, h3, h4⟩ := tablesOf_lengths blocks
    refine (@measureBlocks_agrees blocks ha none (by simp) ⟨0, 0, 0⟩).trans ?_
    simp [measured, tableSizes, h1, h3, h4]
  have hcount := (tablesOf_lengths blocks).2.1
  have hpayload := payloadSize_tables (tablesOf blocks)
  rw [hcount] at hpayload
  have hrecords : (tablesOf blocks).records.length ≤ (tablesOf blocks).payload.length := by
    rw [Tables.payload_length, Tables.recordBytes_length, recordEntrySize]
    omega
  have hlemmas := lemmas_le_blocks blocks
  unfold buildGenerIndex
  simp only [hparsed, hsizes, List.length_map, hpayload]
  have hcounts : (tableSizes (tablesOf blocks)).lemmaCount = (tablesOf blocks).lemmas.length ∧
      (tableSizes (tablesOf blocks)).recordCount = (tablesOf blocks).records.length := ⟨rfl, rfl⟩
  rw [hcounts.1, hcounts.2]
  by_cases hlim : ScriptLimits blocks
  · obtain ⟨hb, hp⟩ := hlim
    rw [if_neg (by omega), if_neg (by omega), if_pos ⟨hb, hp⟩,
      writeFile_agrees ha (fun b hb => (hblocks b hb).2)
        (fun group hg => (length_groupBlocks_le group hg).trans hb)
        (hp.trans (by simp [maxSafeInteger, sizeMax]))]
  · rw [if_neg hlim]
    split
    · rfl
    · rename_i hsmall
      rw [if_pos]
      by_contra hfit
      exact hlim ⟨by omega, by omega⟩

/-- What the script builder writes, the index builder writes; the lengths of its arrays are
beyond no limit of the index builder. -/
theorem writeIndex_of_limits {index : SourceIndex}
    (hrec : ∀ b ∈ preparedBlocks index, b.records.length ≤ uint32Max)
    (hlim : ScriptLimits (preparedBlocks index)) :
    writeIndex index = .ok (fileOf (tablesOf (preparedBlocks index))) := by
  have hgroups : ∀ group ∈ GenerIndex.groupBlocks (preparedBlocks index),
      group.2.length ≤ uint32Max := fun group hg =>
    (length_groupBlocks_le group hg).trans hlim.count
  have hpayload := hlim.size.trans (show maxSafeInteger ≤ ptrdiffMax by
    simp [maxSafeInteger, ptrdiffMax])
  exact ((writeIndex_decides index).2 _).mpr ⟨⟨hrec, hgroups, hpayload⟩, rfl⟩

/-- On plain sources the two builders agree: the script builder meets the problems of the
index builder and no other, no store of it leaves the payload, and within its limits it
writes the file of the index builder byte for byte. -/
theorem buildGenerIndex_agrees (files : List Bytes) (h : ∀ file ∈ files, PlainSource file) :
    (∀ p, buildGenerIndex (files.map units) = .error (.problem p) ↔
      ∃ error, GenerIndex.parseSources emptyIndex files = .error error ∧ error.problem = p) ∧
    buildGenerIndex (files.map units) ≠ .error .view ∧
    ∀ index, GenerIndex.parseSources emptyIndex files = .ok index →
      (∀ b ∈ preparedBlocks index, b.records.length ≤ uint32Max) →
      ∀ file, buildGenerIndex (files.map units) = .ok file ↔
        writeIndex index = .ok file ∧ ScriptLimits (preparedBlocks index) := by
  cases hparse : GenerIndex.parseSources emptyIndex files with
  | error error =>
    have hread := parseSources_agrees h
    rw [hparse] at hread
    have hbuild : buildGenerIndex (files.map units) = .error (.problem error.problem) := by
      unfold buildGenerIndex
      rw [hread]
      rfl
    rw [hbuild]
    refine ⟨fun p => ?_, by simp, fun index hindex => by cases hindex⟩
    simp
  | ok index =>
    have hbuild := buildGenerIndex_of_parse h hparse
    rw [hbuild]
    refine ⟨fun p => ?_, ?_, fun index' hindex hrec file => ?_⟩
    · split <;> simp
    · split <;> simp
    · obtain rfl := Except.ok.inj hindex
      split
      · rename_i hlim
        rw [writeIndex_of_limits hrec hlim]
        simp [hlim]
      · rename_i hlim
        simp [hlim]

theorem sampleIndex_scriptLimits : ScriptLimits (preparedBlocks sampleIndex) := by
  rw [preparedBlocks_sampleIndex]
  refine ⟨?_, ?_⟩ <;> decide +kernel

theorem sampleSource_build :
    PlainSource sampleSource ∧ buildGenerIndex [units sampleSource] =
      .ok (fileOf (tablesOf (preparedBlocks sampleIndex))) := by
  have hplain : PlainSource sampleSource := by decide +kernel
  have hbuild := buildGenerIndex_of_parse (List.forall_mem_singleton.mpr hplain)
    parseSources_sampleSource
  rw [if_pos sampleIndex_scriptLimits] at hbuild
  exact ⟨hplain, hbuild⟩

/-- Both builders write the same file of a source that repeats a lemma. -/
theorem buildGenerIndex_agrees_sample :
    buildGenerIndex [units sampleSource] = .ok (fileOf (tablesOf (preparedBlocks sampleIndex))) ∧
      writeIndex sampleIndex = .ok (fileOf (tablesOf (preparedBlocks sampleIndex))) := by
  obtain ⟨hplain, hbuild⟩ := sampleSource_build
  obtain ⟨-, -, hfile⟩ := buildGenerIndex_agrees [sampleSource]
    (List.forall_mem_singleton.mpr hplain)
  exact ⟨hbuild,
    ((hfile sampleIndex parseSources_sampleSource sampleIndex_limits.records _).mp hbuild).1⟩

/-- The reader accepts what the script builder writes of plain sources and finds in it
exactly the nonempty blocks of each lemma, each distinct one once and in input order. -/
theorem scriptIndex_roundTrip (files : List Bytes) (h : ∀ file ∈ files, PlainSource file)
    (index : SourceIndex) (file : Bytes)
    (hparse : GenerIndex.parseSources emptyIndex files = .ok index)
    (hrec : ∀ b ∈ preparedBlocks index, b.records.length ≤ uint32Max)
    (hbuild : buildGenerIndex (files.map units) = .ok file) :
    ∃ (hfit : file.length ≤ sizeMax) (read : Index),
      validLayout ⟨file, hfit⟩ = .ok read ∧
      (∀ key, (∃ records, (key, records) ∈ sourceBlocks files ∧ records ≠ []) →
        serviceRecords read key = .ok (.ok ((blocksFor (sourceBlocks files) key).map
          fun records => records.map SourceRecord.view))) ∧
      ∀ key, key ≠ [] → NulFree key →
        (∀ records, (key, records) ∈ sourceBlocks files → records = []) →
        morpheusGenerIndexLookup read key = .ok (.error .notFound) := by
  rw [buildGenerIndex_of_parse h hparse] at hbuild
  split at hbuild
  case isFalse => cases hbuild
  rename_i hlim
  obtain rfl := Except.ok.inj hbuild
  have hwrite := writeIndex_of_limits hrec hlim
  have hpairs : index.pairs = sourceBlocks files := parseSources_pairs hparse
  obtain ⟨hfit, hread⟩ := validLayout_of_writeIndex hwrite
  refine ⟨hfit, _, hread, fun key hkey => (lookup_of_source hparse hwrite hkey).2,
    fun key hne hfree hkey => ?_⟩
  refine lookup_of_not_mem (writable_of_writeIndex hwrite).1 hne hfree fun b hb hbkey => ?_
  obtain ⟨records, hmem, hrecords⟩ := mem_prepared_iff.mp ⟨b, hb, hbkey⟩
  exact hrecords (hkey records (hpairs ▸ hmem))

/-- The file of the sample source is read back with the distinct blocks of a lemma in
input order, and without the lemma that has no records. -/
theorem scriptIndex_roundTrip_sample :
    ∃ (file : Bytes) (hfit : file.length ≤ sizeMax) (read : Index),
      buildGenerIndex [units sampleSource] = .ok file ∧ validLayout ⟨file, hfit⟩ = .ok read ∧
      serviceRecords read (ascii "lo/gos") = .ok (.ok
        [[⟨1, some (ascii "log"), some (ascii "os_ou masc")⟩],
          [⟨1, some (ascii "log"), some (ascii "os_ou neut")⟩,
            ⟨3, some (ascii "leg"), some (ascii "w_stem")⟩]]) ∧
      morpheusGenerIndexLookup read (ascii "e)gw/") = .ok (.error .notFound) := by
  obtain ⟨hplain, hbuild⟩ := sampleSource_build
  obtain ⟨hfit, read, hread, hfound, habsent⟩ := scriptIndex_roundTrip [sampleSource]
    (List.forall_mem_singleton.mpr hplain) sampleIndex _ parseSources_sampleSource
    sampleIndex_limits.records hbuild
  rw [sourceBlocks_sampleSource] at hfound
  have hrecords := hfound (ascii "lo/gos") ⟨[mascRecord], List.mem_cons_self, by decide⟩
  exact ⟨_, hfit, read, hbuild, hread, hrecords.trans (by decide +kernel),
    habsent _ (by decide) (by decide) fun records hmem => sampleSource_bare _ hmem rfl⟩

end Morpheus.GenerScript
