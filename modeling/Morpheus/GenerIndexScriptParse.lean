import Morpheus.GenerIndexPrepared
import Morpheus.GenerIndexScript
import Morpheus.Syllables

/-!
# The two builders read the same blocks

On ASCII sources without stray control characters the script builder and the index
builder accept the same lines, report the same problems, and prepare the same blocks.
-/
namespace Morpheus.GenerScript
open GenerIndex

/-- Text that both builders cut at the same places. -/
def Plain (s : Bytes) : Prop := ∀ c ∈ s, c < 128 ∧ c ∉ ([0, 10, 11, 12, 13] : Bytes)

instance (s : Bytes) : Decidable (Plain s) := List.decidableBAll _ s

/-- A source of plain lines; only carriage returns may stand between one and its newline. -/
def PlainSource (file : Bytes) : Prop :=
  ∀ line ∈ file.splitOn 10, Plain (line.rdropWhile isBreak)

instance (file : Bytes) : Decidable (PlainSource file) :=
  List.decidableBAll _ (file.splitOn 10)

theorem Plain.sublist {s t : Bytes} (h : Plain t) (hs : s.Sublist t) : Plain s :=
  fun c hc => h c (hs.subset hc)

theorem Plain.ascii {s : Bytes} (h : Plain s) : Ascii s := fun c hc => (h c hc).1

theorem Plain.nulFree {s : Bytes} (h : Plain s) : NulFree s := fun h0 => (h 0 h0).2 (by simp)

theorem Plain.trim {s : Bytes} (h : Plain s) : Plain (trim s) :=
  h.sublist ((List.rdropWhile_prefix _ _).sublist.trans (List.dropWhile_suffix _).sublist)

theorem isSeparator_byte (c : Byte) : isSeparator c.toUInt16 = isBreak c := by
  revert c
  refine @forall_byte _ ?_
  decide +kernel

theorem isMark_byte (c : Byte) : isMark c.toUInt16 = isLemmaMark c := by
  revert c
  refine @forall_byte _ ?_
  decide +kernel

/-- In plain text only blanks and tabs are white space. -/
theorem Plain.spaces {s : Bytes} (h : Plain s) :
    ReadsAs isScriptSpace (fun c => c == 32 || c == 9) s ∧ ReadsAs isScriptSpace isBreak s := by
  have key : ∀ n : Fin 128, UInt8.ofNat n ∉ ([0, 10, 11, 12, 13] : Bytes) →
      isSpace (UInt8.ofNat n) = (UInt8.ofNat n == 32 || UInt8.ofNat n == 9) ∧
      isSpace (UInt8.ofNat n) = isBreak (UInt8.ofNat n) := by decide +kernel
  have hbyte : ∀ c ∈ s, isSpace c = (c == 32 || c == 9) ∧ isSpace c = isBreak c := by
    intro c hc
    obtain ⟨hlow, hnot⟩ := h c hc
    have := key ⟨c.toNat, UInt8.lt_iff_toNat_lt.mp hlow⟩
    simp only [UInt8.ofNat_toNat] at this
    exact this hnot
  exact ⟨fun c hc => (isScriptSpace_byte (h c hc).1).trans (hbyte c hc).1,
    fun c hc => (isScriptSpace_byte (h c hc).1).trans (hbyte c hc).2⟩

theorem scriptTrim_units {s : Bytes} (h : Plain s) : scriptTrim (units s) = units (trim s) := by
  rw [scriptTrim, units_dropWhile h.spaces.1, units_rdropWhile, trim]
  exact h.spaces.2.sublist (List.dropWhile_suffix _).sublist

/-- Trimming the end first changes nothing when it takes all that the start can. -/
theorem rdropWhile_dropWhile {α : Type} {p q : α → Bool} (hpq : ∀ c, p c → q c) (l : List α) :
    (l.dropWhile p).rdropWhile q = (l.rdropWhile q).dropWhile p := by
  induction l using List.reverseRecOn with
  | nil => simp
  | append_singleton l x ih =>
    by_cases hq : q x
    · rw [List.rdropWhile_concat_pos _ _ _ hq, ← ih, List.dropWhile_append]
      split
      · rename_i he
        rw [List.isEmpty_iff.mp he]
        cases hp : p x <;> simp [hp, List.rdropWhile_singleton, hq]
      · exact List.rdropWhile_concat_pos _ _ _ hq
    · have hp : ¬ p x := fun h => hq (hpq x h)
      rw [List.rdropWhile_concat_neg _ _ _ hq, List.dropWhile_append]
      split
      · simp [hp, List.rdropWhile_singleton, hq]
      · exact List.rdropWhile_concat_neg _ _ _ hq

theorem trim_eq (s : Bytes) :
    trim s = (s.rdropWhile isBreak).dropWhile fun c => c == 32 || c == 9 :=
  rdropWhile_dropWhile (fun c h => by simp only [isBreak, Bool.or_eq_true] at h ⊢; tauto) s

theorem scriptTrim_eq (s : ScriptString) :
    scriptTrim s = (s.rdropWhile isScriptSpace).dropWhile isScriptSpace :=
  rdropWhile_dropWhile (fun _ h => h) s

theorem isBreak_scriptSpace {c : Byte} (h : isBreak c) : isScriptSpace c.toUInt16 := by
  revert c
  refine @forall_byte _ ?_
  decide +kernel

/-- The end of a line is cut alike by both builders. -/
theorem rdropWhile_units {line : Bytes} (h : Plain (line.rdropWhile isBreak)) :
    (units line).rdropWhile isScriptSpace = units (line.rdropWhile isBreak) := by
  induction line using List.reverseRecOn with
  | nil => simp
  | append_singleton line c ih =>
    rw [units_append]
    by_cases hc : isBreak c
    · rw [List.rdropWhile_concat_pos _ _ _ hc] at h ⊢
      have hs := isBreak_scriptSpace hc
      exact (List.rdropWhile_concat_pos _ _ _ hs).trans (ih h)
    · rw [List.rdropWhile_concat_neg _ _ _ hc] at h ⊢
      have hs : ¬ isScriptSpace c.toUInt16 := by
        rw [h.spaces.2 c (by simp)]
        exact hc
      exact (List.rdropWhile_concat_neg _ _ _ hs).trans (units_append line [c]).symm

/-- Both builders see the same content in a line. -/
theorem scriptTrim_line {line : Bytes} (h : Plain (line.rdropWhile isBreak)) :
    scriptTrim (units line) = units (trim line) := by
  rw [scriptTrim_eq, rdropWhile_units h, units_dropWhile h.spaces.1, trim_eq]

theorem plain_trim_line {line : Bytes} (h : Plain (line.rdropWhile isBreak)) :
    Plain (trim line) := by
  rw [trim_eq]
  exact h.sublist (List.dropWhile_suffix _).sublist

def ofRecord (record : SourceRecord) : ScriptRecord :=
  ⟨record.kind.code, units record.stem, units record.keys⟩

def ofBlock (block : SourceBlock) : ScriptBlock :=
  ⟨units block.key, block.ordinal, block.records.map ofRecord⟩

def ofState (state : ParseState) : ScriptState :=
  ⟨state.index.blocks.map ofBlock, state.index.nextOrdinal, state.block⟩

theorem isPrefixOf_units (tag : String) (s : Bytes) :
    (text tag).isPrefixOf (units s) = startsWith (ascii tag) s := by
  rw [startsWith, Bool.eq_iff_iff, List.isPrefixOf_iff_prefix, List.isPrefixOf_iff_prefix, text,
    List.prefix_iff_eq_take, List.prefix_iff_eq_take, units_length, ← units_take, units_inj]

theorem isPrefixOf_byte (c : Byte) (s : Bytes) :
    ([c.toUInt16] : ScriptString).isPrefixOf (units s) = decide (s.head? = some c) := by
  cases s with
  | nil => simp
  | cons d s =>
    rw [units_cons, List.isPrefixOf_cons_cons, Bool.eq_iff_iff]
    simp only [List.head?_cons, Option.some.injEq, decide_eq_true_eq, List.isPrefixOf_nil_left,
      Bool.and_true, beq_iff_eq, toUInt16_inj]
    exact eq_comm

theorem not_isBreak_byte (s : Bytes) :
    ReadsAs (fun c => !isSeparator c) (fun c => !isBreak c) s :=
  fun c _ => congrArg (! ·) (isSeparator_byte c)

theorem trim_trim (s : Bytes) : trim (trim s) = trim s := by
  have hpq : ∀ c : Byte, (c == 32 || c == 9) = true → isBreak c := fun c h => by
    simp only [isBreak, Bool.or_eq_true] at h ⊢
    tauto
  rw [trim, trim, ← rdropWhile_dropWhile hpq, List.dropWhile_idempotent,
    List.rdropWhile_idempotent]

theorem canonicalLemma_units {s : Bytes} (h : Plain s) :
    canonicalLemma (units (trim s)) = units (GenerIndex.canonicalLemma (trim s)) := by
  have hmark : ∀ t, ReadsAs (fun c => !isMark c) (fun c => !isLemmaMark c) t :=
    fun t c _ => congrArg (! ·) (isMark_byte c)
  have hbang : text "!" = [(33 : Byte).toUInt16] := rfl
  unfold canonicalLemma GenerIndex.canonicalLemma
  simp only [scriptTrim_units h.trim, trim_trim, units_takeWhile (not_isBreak_byte _), hbang,
    isPrefixOf_byte, decide_eq_true_eq]
  split
  · rw [← units_drop, List.drop_one, units_filter (hmark _)]
  · rw [units_filter (hmark _)]

theorem lookup_recordKinds (s : Bytes) :
    recordKinds.lookup ((units s).take 4) = (recordPrefix s).map RecordKind.code := by
  have htag : ∀ tag : String, (ascii tag).length = 4 →
      ((units s).take 4 == text tag) = startsWith (ascii tag) s := fun tag hlen => by
    rw [← isPrefixOf_units, Bool.eq_iff_iff, beq_iff_eq, List.isPrefixOf_iff_prefix,
      List.prefix_iff_eq_take, text, units_length, hlen, eq_comm]
  simp only [recordKinds, List.lookup_cons, List.lookup_nil, recordPrefix, recordPrefixes,
    List.find?_cons, List.find?_nil]
  rw [htag ":no:" rfl, htag ":aj:" rfl, htag ":vs:" rfl, htag ":wd:" rfl, htag ":vb:" rfl]
  cases startsWith (ascii ":no:") s <;> cases startsWith (ascii ":aj:") s <;>
    cases startsWith (ascii ":vs:") s <;> cases startsWith (ascii ":wd:") s <;>
    cases startsWith (ascii ":vb:") s <;> rfl

/-- What both builders make of the record part of a line. -/
theorem record_fields {rest : Bytes} (h : Plain rest) :
    (units rest).findIdx? isSeparator = none ∧ rest.dropWhile (fun c => !isBreak c) = [] ∨
    ∃ separator, (units rest).findIdx? isSeparator = some separator ∧
      rest.takeWhile (fun c => !isBreak c) = rest.take separator ∧
      (rest.takeWhile fun c => !isBreak c).length = separator ∧
      trim (rest.drop separator) = trim ((rest.dropWhile fun c => !isBreak c).drop 1) := by
  induction rest with
  | nil => exact .inl ⟨rfl, rfl⟩
  | cons c rest ih =>
    have ih := ih (h.sublist (List.sublist_cons_self c rest))
    rw [units_cons, List.findIdx?_cons, isSeparator_byte]
    cases hc : isBreak c with
    | true =>
      refine .inr ⟨0, by simp, by simp [hc], by simp [hc], ?_⟩
      have hblank : (c == 32 || c == 9) = true :=
        (h.spaces.1 c (by simp)).symm.trans ((h.spaces.2 c (by simp)).trans hc)
      have hskip : trim (c :: rest) = trim rest := by
        simp only [GenerIndex.trim, List.dropWhile_cons, hblank, if_true]
      simpa [hc] using hskip
    | false =>
      rcases ih with ⟨hnone, hdrop⟩ | ⟨separator, hfind, htake, hlen, htrim⟩
      · exact .inl ⟨by simp [hnone], by simp [hc, hdrop]⟩
      · exact .inr ⟨separator + 1, by simp [hfind], by simp [hc, htake], by simp [hc, hlen],
          by simpa [hc] using htrim⟩

theorem map_modify {α β : Type} {f : α → β} {g : α → α} {g' : β → β}
    (h : ∀ a, f (g a) = g' (f a)) (l : List α) (i : ℕ) :
    (l.modify i g).map f = (l.map f).modify i g' := by
  refine List.ext_getElem (by simp) fun j h1 h2 => ?_
  simp only [List.getElem_map, List.getElem_modify]
  split
  · exact h _
  · rfl

theorem parseRecord_agrees {state : ParseState} {content : Bytes} (h : Plain content)
    {kind : RecordKind} (hkind : recordPrefix content = some kind) :
    parseRecord (ofState state) kind.code (units content) =
      (GenerIndex.parseRecord state.index state.block content h.nulFree).map
        fun index => ofState { state with index } := by
  unfold parseRecord GenerIndex.parseRecord
  rw [hkind]
  cases hblock : state.block with
  | none => simp [ofState, hblock, Except.map]
  | some block =>
    simp only [ofState, hblock, ← units_drop]
    have hrest : Plain (content.drop 4) := h.sublist (List.drop_sublist 4 content)
    rcases record_fields hrest with ⟨hnone, hdrop⟩ | ⟨separator, hfind, htake, hlen, htrim⟩
    · have hkeys : (recordFields content).2 = [] := by
        simp [recordFields, hdrop, GenerIndex.trim]
      simp [hnone, hkeys, Except.map]
    · have hdrop : content.drop (separator + 4) = (content.drop 4).drop separator := by
        rw [List.drop_drop, Nat.add_comm]
      have hkeys : scriptTrim (units (content.drop (separator + 4))) =
          units (recordFields content).2 := by
        rw [hdrop, scriptTrim_units (hrest.sublist (List.drop_sublist _ _)), htrim]
        rfl
      have hstem : (units (content.drop 4)).take separator = units (recordFields content).1 := by
        rw [← units_take, ← htake]
        rfl
      have hzero : separator = 0 ↔ (recordFields content).1 = [] := by
        rw [← hlen]
        exact List.length_eq_zero_iff
      simp only [hfind, hkeys, hstem, hzero, units_eq_nil]
      split
      · rfl
      · simp only [Except.map, appendRecord]
        rw [map_modify]
        intro b
        simp [ofBlock, ofRecord]

theorem parseContent_agrees (state : ParseState) {content : Bytes} (h : Plain content) :
    parseContent (ofState state) (units content) =
      (GenerIndex.parseContent state content h.nulFree).map ofState := by
  have hsharp : text "#" = [(35 : Byte).toUInt16] := rfl
  have hquery : text "?" = [(63 : Byte).toUInt16] := rfl
  have hsemi : text ";" = [(59 : Byte).toUInt16] := rfl
  have hat : text "@" = [(64 : Byte).toUInt16] := rfl
  have hrest : Plain (content.drop 4) := h.sublist (List.drop_sublist 4 content)
  unfold parseContent GenerIndex.parseContent
  simp only [hsharp, hquery, hsemi, hat, isPrefixOf_units, isPrefixOf_byte, decide_eq_true_eq,
    units_eq_nil, ← units_drop, scriptTrim_units hrest, canonicalLemma_units hrest,
    lookup_recordKinds]
  split
  · rfl
  split
  · split
    · rfl
    · simp [Except.map, ofState, appendBlock, ofBlock]
  split
  · rfl
  cases hkind : recordPrefix content with
  | none => simp [GenerIndex.parseRecord, hkind, Except.map]
  | some kind =>
    simp only [Option.map_some]
    rw [parseRecord_agrees h hkind]
    cases GenerIndex.parseRecord state.index state.block content h.nulFree <;> rfl

section
variable {line : Bytes}

theorem mem_line {c : Byte} (hc : c ∈ line) : c ∈ line.rdropWhile isBreak ∨ isBreak c := by
  rw [← @List.rdropWhile_append_rtakeWhile _ isBreak line, List.mem_append] at hc
  exact hc.imp_right List.mem_rtakeWhile_imp

theorem line_ascii (h : Plain (line.rdropWhile isBreak)) : Ascii line := by
  have key : ∀ c, isBreak c → c < 128 := @forall_byte _ (by decide +kernel)
  intro c hc
  exact (mem_line hc).elim (fun hmem => (h c hmem).1) (key c)

theorem line_nulFree (h : Plain (line.rdropWhile isBreak)) : NulFree line := fun h0 =>
  (mem_line h0).elim (fun hmem => h.nulFree hmem) (by decide)

/-- A line that `fgets` returns whole, with its newline or at the end of the file. -/
theorem parseLine_agrees (state : ParseState) (h : Plain (line.rdropWhile isBreak))
    (hlen : line.length < lineCapacity - 1) {newline : Bytes}
    (hnl : newline = [] ∨ newline = [10]) :
    parseLine (ofState state) (units line) =
      (GenerIndex.parseLine state (line ++ newline)).map ofState := by
  have hcstr : cstr (line ++ newline) = line ++ newline := by
    refine cstr_of_nulFree fun h0 => ?_
    rcases List.mem_append.mp h0 with h0 | h0
    · exact line_nulFree h h0
    · rcases hnl with rfl | rfl <;> simp at h0
  have hfits : ¬((line ++ newline).length = lineCapacity - 1 ∧
      (line ++ newline).getLast? ≠ some 10) := by
    rcases hnl with rfl | rfl
    · rw [List.append_nil]
      omega
    · simp
  have htrim : trim (line ++ newline) = trim line := by
    rcases hnl with rfl | rfl
    · rw [List.append_nil]
    · rw [trim_eq, List.rdropWhile_concat_pos _ _ _ (by decide), ← trim_eq]
  rw [parseLine, encodeString_units (line_ascii h), if_neg (by omega), scriptTrim_line h,
    parseContent_agrees state (plain_trim_line h)]
  unfold GenerIndex.parseLine
  simp only [hcstr, if_neg hfits, htrim]

/-- A line that does not fit the buffer of `fgets`. -/
theorem parseLine_long (state : ParseState) (h : Plain (line.rdropWhile isBreak))
    (hn : 10 ∉ line) (hlen : lineCapacity - 1 ≤ line.length) :
    parseLine (ofState state) (units line) = .error .lineTooLong ∧
      GenerIndex.parseLine state (line.take (lineCapacity - 1)) = .error .lineTooLong := by
  have hcstr := cstr_of_nulFree ((line_nulFree h).take (lineCapacity - 1))
  have hfull : (line.take (lineCapacity - 1)).length = lineCapacity - 1 := by simpa using hlen
  have hlast : (line.take (lineCapacity - 1)).getLast? ≠ some 10 := fun hl =>
    hn (List.mem_of_mem_take (List.mem_of_getLast? hl))
  constructor
  · rw [parseLine, encodeString_units (line_ascii h), if_pos hlen]
  · rw [GenerIndex.parseLine]
    simp only [hcstr, hfull, hlast, ne_eq, not_false_eq_true, and_self, if_true]

end

/-- A result of the index builder without the place of its problem. -/
def problemOf {α : Type} (result : Except SourceError α) : Except SourceProblem α :=
  result.mapError (·.problem)

theorem parseLines_agrees {file : Bytes} (h : PlainSource file) (lineNumber : ℕ)
    (state : ParseState) :
    ((units file).splitOn 10).foldlM parseLine (ofState state) =
      (problemOf (parseLines lineNumber state (fgetsLines lineCapacity file))).map ofState := by
  induction hn : file.length using Nat.strong_induction_on generalizing file lineNumber state with
  | _ n ih =>
    have hten : (10 : UInt16) = (10 : Byte).toUInt16 := rfl
    have hunits : ∀ {line : Bytes}, 10 ∉ line → (10 : UInt16) ∉ units line := by
      intro line hline hmem
      obtain ⟨c, hc, he⟩ := List.mem_map.mp hmem
      exact hline (toUInt16_inj.mp (he.trans hten) ▸ hc)
    by_cases hmem : 10 ∈ file
    · obtain ⟨line, rest, rfl, hline⟩ := List.eq_append_cons_of_mem hmem
      rw [PlainSource, List.splitOn_append_cons_self_of_not_mem hline] at h
      obtain ⟨hplain, hrest⟩ := List.forall_mem_cons.mp h
      rw [units_append, units_cons, ← hten,
        List.splitOn_append_cons_self_of_not_mem (hunits hline), List.foldlM_cons]
      by_cases hlen : line.length < lineCapacity - 1
      · rw [fgetsLines, fgetsFrom_line hline hlen, List.nil_append, parseLines,
          parseLine_agrees state hplain hlen (.inr rfl)]
        cases GenerIndex.parseLine state (line ++ [10]) with
        | error problem => rfl
        | ok state =>
          exact ih _ (by simp at hn; omega) hrest (lineNumber + 1) state rfl
      · obtain ⟨hscript, hsource⟩ := parseLine_long state hplain hline (by omega)
        obtain ⟨lines, hlines⟩ := @fgetsFrom_long (lineCapacity - 1) (lineCapacity - 1) [] line
          (10 :: rest) hline (by decide) (by omega)
        rw [hscript, fgetsLines, hlines, List.nil_append, parseLines, hsource]
        rfl
    · rw [PlainSource, List.splitOn_eq_singleton hmem] at h
      have hplain := h file (by simp)
      rw [List.splitOn_eq_singleton (hunits hmem), List.foldlM_cons]
      by_cases hlen : file.length < lineCapacity - 1
      · have hagree := parseLine_agrees state hplain hlen (.inl rfl)
        rw [List.append_nil] at hagree
        rw [hagree]
        by_cases hne : file = []
        · subst hne
          rfl
        · rw [fgetsLines, fgetsFrom_last hmem hne (by omega), List.nil_append, parseLines]
          cases GenerIndex.parseLine state file <;> rfl
      · obtain ⟨hscript, hsource⟩ := parseLine_long state hplain hmem (by omega)
        obtain ⟨lines, hlines⟩ := @fgetsFrom_long (lineCapacity - 1) (lineCapacity - 1) [] file []
          hmem (by decide) (by omega)
        rw [List.append_nil] at hlines
        rw [hscript, fgetsLines, hlines, List.nil_append, parseLines, hsource]
        rfl

/-- What an index holds for the script builder, with the source's block closed. -/
def ofIndex (index : SourceIndex) : ScriptState := ofState ⟨index, none⟩

theorem parseSource_agrees {state : ScriptState} {index : SourceIndex}
    (hs : { state with block := none } = ofIndex index) {file : Bytes} (h : PlainSource file) :
    (parseSource state (units file)).map (fun s => { s with block := none }) =
      (problemOf (GenerIndex.parseSource index file)).map ofIndex := by
  rw [parseSource, hs, ofIndex, parseLines_agrees h 0 ⟨index, none⟩, GenerIndex.parseSource]
  cases parseLines 0 ⟨index, none⟩ (fgetsLines lineCapacity file) <;> rfl

/-- Both builders read the same blocks of all sources, or meet the same problem. -/
theorem parseAll_agrees {files : List Bytes} (h : ∀ file ∈ files, PlainSource file)
    {state : ScriptState} {index : SourceIndex} (hs : { state with block := none } = ofIndex index) :
    ((files.map units).foldlM parseSource state).map (·.blocks) =
      (problemOf (GenerIndex.parseSources index files)).map fun index =>
        index.blocks.map ofBlock := by
  induction files generalizing state index with
  | nil =>
    have := congrArg ScriptState.blocks hs
    exact congrArg Except.ok this
  | cons file files ih =>
    have hstep := parseSource_agrees hs (h file (by simp))
    rw [List.map_cons, List.foldlM_cons, GenerIndex.parseSources]
    cases hsource : GenerIndex.parseSource index file with
    | error error =>
      rw [hsource] at hstep
      cases hscript : parseSource state (units file) with
      | error problem =>
        rw [hscript] at hstep
        exact congrArg Except.error (Except.error.inj hstep)
      | ok state' => simp [hscript, problemOf, Except.mapError, Except.map] at hstep
    | ok index' =>
      rw [hsource] at hstep
      cases hscript : parseSource state (units file) with
      | error problem => simp [hscript, problemOf, Except.mapError, Except.map] at hstep
      | ok state' =>
        rw [hscript] at hstep
        exact ih (fun f hf => h f (by simp [hf])) (Except.ok.inj hstep)

theorem compareBlocks_agrees (left right : SourceBlock) :
    compareBlocks (ofBlock left) (ofBlock right) ≤ 0 ↔ GenerIndex.compareBlocks left right ≤ 0 := by
  rw [compareBlocks_le, Prod.Lex.toLex_le_toLex]
  simp only [compareBlocks, ofBlock, units_lt]
  rcases lt_trichotomy (rank id left.key) (rank id right.key) with hlt | heq | hgt
  · simp [hlt]
  · simp [heq]
  · simp [hgt, hgt.not_gt, hgt.ne']

theorem sortBlocks_agrees (blocks : List SourceBlock) :
    sortBlocks (blocks.map ofBlock) =
      (GenerIndex.sortBlocks (discardEmptyBlocks blocks)).map ofBlock := by
  have hfilter : (blocks.map ofBlock).filter (fun block => block.records.length ≠ 0) =
      (discardEmptyBlocks blocks).map ofBlock := by
    rw [List.filter_map, discardEmptyBlocks]
    refine congrArg _ (List.filter_congr fun b _ => ?_)
    simp [ofBlock]
  rw [sortBlocks, hfilter, GenerIndex.sortBlocks]
  exact (List.map_insertionSort _ _ _ _ fun a _ b _ => (compareBlocks_agrees a b).symm).symm

theorem ofRecord_inj {left right : SourceRecord} : ofRecord left = ofRecord right ↔ left = right := by
  refine ⟨fun h => ?_, congrArg _⟩
  obtain ⟨hkind, hstem, hkeys⟩ := ScriptRecord.mk.inj h
  have hcode : left.kind = right.kind := by
    cases hl : left.kind <;> cases hr : right.kind <;> simp [hl, hr, RecordKind.code] at hkind ⊢
  cases left
  cases right
  simp_all [units_inj]

theorem sameRecords_script {left right : List ScriptRecord} (h : left.length = right.length) :
    (left.zip right).all (fun p =>
      p.1.kind = p.2.kind && p.1.stem = p.2.stem && p.1.keys = p.2.keys) ↔ left = right := by
  induction left generalizing right with
  | nil => cases right <;> simp at h ⊢
  | cons l left ih =>
    cases right with
    | nil => simp at h
    | cons r right =>
      have hlen : left.length = right.length := by simpa using h
      cases l
      cases r
      simp only [List.zip_cons_cons, List.all_cons, Bool.and_eq_true, ih hlen, List.cons.injEq]
      simp [and_assoc]

theorem sameBlock_agrees (left right : SourceBlock) :
    sameBlock (ofBlock left) (ofBlock right) = GenerIndex.sameBlock left right := by
  have hinj := List.map_injective_iff.mpr fun a b => (@ofRecord_inj a b).mp
  rw [Bool.eq_iff_iff, sameBlock_iff]
  simp only [sameBlock, Bool.and_eq_true, decide_eq_true_eq, and_assoc, ofBlock, units_inj]
  refine and_congr_right fun _ => ⟨fun h => ?_, fun h => ?_⟩
  · exact hinj ((sameRecords_script (of_decide_eq_true h.1)).mp h.2)
  · have hrec := congrArg (List.map ofRecord) h
    have hlen := congrArg List.length hrec
    exact ⟨decide_eq_true hlen, (sameRecords_script hlen).mpr hrec⟩

theorem isRepeated_agrees (block : SourceBlock) (before : List SourceBlock) :
    isRepeated (ofBlock block) (before.map ofBlock) = isDuplicate block before := by
  induction before with
  | nil => rfl
  | cons previous before ih =>
    have hkey : (ofBlock previous).lemmaText ≠ (ofBlock block).lemmaText ↔
        strcmp previous.key block.key ≠ 0 := by
      rw [ne_eq, ne_eq, strcmp_key, ofBlock, ofBlock, units_inj]
    rw [List.map_cons, isRepeated, isDuplicate, sameBlock_agrees, ih]
    simp only [hkey]

/-- The blocks of `before` are those of `kept`, as far as repetitions go. -/
def Covers (before kept : List SourceBlock) : Prop :=
  kept ⊆ before ∧
    ∀ b ∈ before, ∃ previous ∈ kept, previous.key = b.key ∧ previous.records = b.records

/-- Comparing with all earlier blocks drops the same blocks as comparing with the kept ones. -/
theorem dropRepeated_agrees {before kept blocks : List SourceBlock} (hc : Covers before kept)
    (hs : (before.reverse ++ blocks).Pairwise fun a b => rank id a.key ≤ rank id b.key)
    (hk : kept.Sublist before) :
    kept.reverse.map ofBlock ++ dropRepeated (before.map ofBlock) (blocks.map ofBlock) =
      (discardDuplicates kept blocks).map ofBlock := by
  induction blocks generalizing before kept with
  | nil => simp [dropRepeated, discardDuplicates]
  | cons block blocks ih =>
    have hnext : before.reverse ++ block :: blocks = (block :: before).reverse ++ blocks := by simp
    have hdesc : (block :: before).Pairwise fun a b => rank id b.key ≤ rank id a.key := by
      refine List.pairwise_reverse.mp (hs.sublist ?_)
      rw [List.reverse_cons]
      exact List.Sublist.append_left (by simp) _
    have hdup : isDuplicate block before = isDuplicate block kept := by
      rw [Bool.eq_iff_iff, isDuplicate_iff hdesc,
        isDuplicate_iff (hdesc.sublist (hk.cons_cons block))]
      constructor
      · rintro ⟨previous, hp, hkey, hrec⟩
        obtain ⟨k, hmem, hkkey, hkrec⟩ := hc.2 previous hp
        exact ⟨k, hmem, hkkey.trans hkey, hkrec.trans hrec⟩
      · rintro ⟨previous, hp, h⟩
        exact ⟨previous, hc.1 hp, h⟩
    rw [hnext] at hs
    rw [List.map_cons, dropRepeated, discardDuplicates, isRepeated_agrees, hdup, ← List.map_cons]
    split
    · rename_i h
      obtain ⟨previous, hp, hkey, hrec⟩ :=
        (isDuplicate_iff (hdesc.sublist (hk.cons_cons block))).mp h
      refine ih ⟨fun k hmem => List.mem_cons_of_mem _ (hc.1 hmem), fun b hb => ?_⟩ hs (hk.cons block)
      rcases List.mem_cons.mp hb with rfl | hb
      · exact ⟨previous, hp, hkey, hrec⟩
      · exact hc.2 b hb
    · have := @ih (block :: before) (block :: kept)
        ⟨List.cons_subset_cons _ hc.1, fun b hb => ?_⟩ hs (hk.cons_cons block)
      · simpa using this
      · rcases List.mem_cons.mp hb with rfl | hb
        · exact ⟨b, by simp, rfl, rfl⟩
        · obtain ⟨k, hmem, h⟩ := hc.2 b hb
          exact ⟨k, by simp [hmem], h⟩

/-- Both builders prepare the same blocks, or meet the same problem. -/
theorem parseSources_agrees {files : List Bytes} (h : ∀ file ∈ files, PlainSource file) :
    parseSources (files.map units) =
      (problemOf (GenerIndex.parseSources emptyIndex files)).map fun index =>
        (preparedBlocks index).map ofBlock := by
  have hread := @parseAll_agrees files h ⟨[], 0, none⟩ emptyIndex rfl
  rw [parseSources]
  cases hsource : GenerIndex.parseSources emptyIndex files with
  | error error =>
    rw [hsource] at hread
    cases hscript : (files.map units).foldlM parseSource ⟨[], 0, none⟩ with
    | error problem =>
      rw [hscript] at hread
      exact congrArg Except.error (Except.error.inj hread)
    | ok state => simp [hscript, problemOf, Except.mapError, Except.map] at hread
  | ok index =>
    rw [hsource] at hread
    cases hscript : (files.map units).foldlM parseSource ⟨[], 0, none⟩ with
    | error problem => simp [hscript, problemOf, Except.mapError, Except.map] at hread
    | ok state =>
      rw [hscript] at hread
      have hblocks : state.blocks = index.blocks.map ofBlock := Except.ok.inj hread
      have hdrop := @dropRepeated_agrees [] [] (GenerIndex.sortBlocks (discardEmptyBlocks index.blocks))
        ⟨List.Subset.refl _, by simp⟩ (sortBlocks_sorted _) (List.Sublist.refl _)
      refine congrArg Except.ok ?_
      rw [hblocks, sortBlocks_agrees]
      exact hdrop

end Morpheus.GenerScript
