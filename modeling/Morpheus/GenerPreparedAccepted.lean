import Morpheus.GenerPreparedText

/-!
# When the index builder accepts what the preparer wrote

Every line of the prepared text is a lemma line or a record line, since the preparer writes
nothing in front of the first lemma of a file and expands all else. What remains is whether
each line is one that the builder takes, and that is read off the source.
-/
namespace Morpheus.GenerSource

open GenerIndex

/-- A trimmed line of a file that was read without an overrun. -/
structure LineContent (content : Bytes) : Prop where
  newline : (10 : Byte) ∉ content
  nul : NulFree content
  trimmed : trim content = content
  short : content.length < lineCapacity - 1

theorem trim_sublist (s : Bytes) : (trim s).Sublist s :=
  (List.rdropWhile_prefix _ _).sublist.trans (List.dropWhile_suffix _).sublist

/-- What `fgets` returned holds a newline at its end only. -/
theorem trim_cstr_newline {line : Bytes} (h : (10 : Byte) ∉ line.dropLast) :
    (10 : Byte) ∉ trim (cstr line) ∧
      ((cstr line).getLast? = some 10 → (trim (cstr line)).length < (cstr line).length) := by
  rcases List.eq_nil_or_concat' (cstr line) with hnil | ⟨u, x, hux⟩
  · rw [hnil]
    exact ⟨by decide, by simp⟩
  · have hu : (10 : Byte) ∉ u := by
      obtain ⟨rest, hrest⟩ : cstr line <+: line := List.takeWhile_prefix _
      rw [hux, List.append_assoc] at hrest
      rw [← hrest, List.dropLast_append_of_ne_nil (by simp)] at h
      exact fun hmem => h (List.mem_append_left _ hmem)
    rw [hux]
    by_cases hx : x = 10
    · subst hx
      rw [trim_newline]
      refine ⟨fun hmem => hu ((trim_sublist u).subset hmem), fun _ => ?_⟩
      rw [List.length_append]
      exact Nat.lt_succ_of_le (trim_sublist u).length_le
    · refine ⟨fun hmem => ?_, fun hlast => absurd (by simpa using hlast) hx⟩
      rcases List.mem_append.mp ((trim_sublist _).subset hmem) with hmem | hmem
      · exact hu hmem
      · exact hx (List.mem_singleton.mp hmem).symm

theorem lineContent_of_read {file line : Bytes} (h : line ∈ fgetsLines lineCapacity file)
    (hlong : ¬ TooLong line) : LineContent (trim (cstr line)) := by
  obtain ⟨hnewline, hshorter⟩ := trim_cstr_newline (fgetsFrom_newline (by simp) line h)
  refine ⟨hnewline, content_nulFree line, trim_trim _, ?_⟩
  have hread : line.length < lineCapacity := fgetsLines_length (by decide) file line h
  have htext : (cstr line).length ≤ line.length := (List.takeWhile_prefix _).length_le
  have hcontent : (trim (cstr line)).length ≤ (cstr line).length := (trim_sublist _).length_le
  by_cases hfull : (cstr line).length = lineCapacity - 1
  · have hlast : (cstr line).getLast? = some 10 := by
      by_contra hno
      exact hlong ⟨hfull, hno⟩
    have := hshorter hlast
    omega
  · omega

section Records
variable {content base tag rest : Bytes}

theorem blank_isBreak {c : Byte} (h : isBlankByte c = true) : isBreak c = true := by
  unfold isBlankByte at h
  simp only [isBreak, h, Bool.true_or]

/-- A tag has no blank and no break in it. -/
theorem recordTag_plain (h : tag ∈ recordTags) :
    tag.length = 4 ∧ (∀ c ∈ tag, isBreak c = false) ∧ ∀ c ∈ tag, isBlankByte c = false := by
  simp only [recordTags, List.mem_cons, List.not_mem_nil, or_false] at h
  rcases h with rfl | rfl | rfl | rfl | rfl <;> decide +kernel

/-- Trimming takes nothing from a tag. -/
theorem trim_tag (h : tag ∈ recordTags) (rest : Bytes) :
    ∃ rest', trim (tag ++ rest) = tag ++ rest' ∧ rest' <+: rest := by
  obtain ⟨hlen, hbreak, hblank⟩ := recordTag_plain h
  have hne : tag ≠ [] := by
    rintro rfl
    cases hlen
  have hfirst (t : Bytes) (c : Byte) (hc : (tag ++ t).head? = some c) : isBlankByte c = false := by
    rw [List.head?_append_of_ne_nil _ hne] at hc
    exact hblank c (List.mem_of_mem_head? hc)
  induction rest using List.reverseRecOn with
  | nil =>
    refine ⟨[], ?_, List.prefix_rfl⟩
    rw [List.append_nil]
    refine trim_of_ends (fun c hc => hfirst [] c (by rwa [List.append_nil])) fun c hc => ?_
    exact hbreak c (List.mem_of_mem_getLast? hc)
  | append_singleton rest x ih =>
    by_cases hx : isBreak x = true
    · obtain ⟨rest', htrim, hbegin⟩ := ih
      refine ⟨rest', ?_, hbegin.trans (List.prefix_append ..)⟩
      rw [← htrim]
      unfold trim
      have hstay (t : Bytes) : (tag ++ t).dropWhile (fun c => c == 32 || c == 9) = tag ++ t := by
        obtain ⟨c, s, hcs⟩ := List.exists_cons_of_ne_nil hne
        rw [hcs, List.cons_append]
        refine List.dropWhile_cons_of_neg ?_
        have := hblank c (hcs ▸ List.mem_cons_self)
        unfold isBlankByte at this
        simp [this]
      rw [hstay, hstay, ← List.append_assoc, List.rdropWhile_concat_pos _ _ _ hx]
    · refine ⟨rest ++ [x], ?_, List.prefix_rfl⟩
      refine trim_of_ends (hfirst _) fun c hc => ?_
      rw [← List.append_assoc, List.getLast?_concat] at hc
      obtain rfl := Option.some.inj hc
      exact Bool.eq_false_of_not_eq_true hx

/-- A record that the preparer accepts lacks a stem or keys only if its stem is not directly
behind the tag. -/
theorem complete_iff (hcontent : LineContent content) (hrecord : isGenerationRecord content = true)
    (hbase : basePrefix content = some base) :
    Complete content ↔ ∀ c, content[4]? = some c → ¬ isBreak c := by
  obtain ⟨tag, htag, rest, rfl⟩ := isGenerationRecord_iff.mp hrecord
  obtain ⟨hlen, hbreak, hblank⟩ := recordTag_plain htag
  have hrest : (tag ++ rest).drop 4 = rest := by
    rw [← hlen, List.drop_left]
  have hfour : (tag ++ rest)[4]? = rest.head? := by
    rw [← hlen, List.getElem?_append_right le_rfl, Nat.sub_self, List.head?_eq_getElem?]
  have hspace : ∃ c ∈ rest, isBlankByte c = true := by
    by_contra hno
    push Not at hno
    have hall : ∀ c ∈ tag ++ rest, (!isBlankByte c) = true := by
      intro c hc
      rcases List.mem_append.mp hc with hc | hc
      · rw [hblank c hc]; rfl
      · rw [Bool.eq_false_of_not_eq_true (hno c hc)]; rfl
    unfold basePrefix at hbase
    simp [List.takeWhile_eq_self_iff.mpr hall] at hbase
  obtain ⟨blank, hmem, hisblank⟩ := hspace
  have hlast : ∀ c, rest.getLast? = some c → isBreak c = false := by
    intro c hc
    refine trim_getLast (s := tag ++ rest) ?_
    rw [hcontent.trimmed, List.getLast?_append, hc]
    rfl
  have hkeys : trim ((rest.dropWhile fun c => !isBreak c).drop 1) ≠ [] := by
    have hsplit := List.takeWhile_append_dropWhile (p := fun c => !isBreak c) (l := rest)
    cases hdrop : rest.dropWhile fun c => !isBreak c with
    | nil =>
      rw [List.dropWhile_eq_nil_iff] at hdrop
      have hnot := hdrop blank hmem
      rw [blank_isBreak hisblank] at hnot
      cases hnot
    | cons b t =>
      have hb : isBreak b = true := by
        have hhead := List.head?_dropWhile_not (fun c => !isBreak c) rest
        rw [hdrop] at hhead
        simpa using hhead
      rw [List.drop_one, List.tail_cons, Ne, trim_eq_nil_iff]
      intro hall
      rw [hdrop] at hsplit
      have hend : ∃ c ∈ b :: t, (b :: t).getLast? = some c :=
        ⟨_, List.getLast_mem (List.cons_ne_nil b t), List.getLast?_eq_some_getLast _⟩
      obtain ⟨c, hc, hget⟩ := hend
      have hclear : isBreak c = false := by
        refine hlast c ?_
        rw [← hsplit, List.getLast?_append, hget]
        rfl
      rcases List.mem_cons.mp hc with rfl | hc
      · rw [hb] at hclear
        cases hclear
      · rw [hall c hc] at hclear
        cases hclear
  unfold Complete recordFields
  dsimp only
  rw [hcontent.trimmed, hrest, hfour]
  constructor
  · rintro ⟨hstem, -⟩ c hc hbad
    obtain ⟨t, rfl⟩ := List.head?_eq_some_iff.mp hc
    rw [List.takeWhile_cons_of_neg (by simp [hbad])] at hstem
    exact hstem rfl
  · intro hno
    refine ⟨?_, hkeys⟩
    obtain ⟨c, t, rfl⟩ := List.exists_cons_of_ne_nil (List.ne_nil_of_mem hmem)
    have hc : isBreak c = false := Bool.eq_false_of_not_eq_true (hno c rfl)
    rw [List.takeWhile_cons_of_pos (by rw [hc]; rfl)]
    exact List.cons_ne_nil _ _

end Records

section Lines
variable {content base tag rest text : Bytes}

/-- The text in front of a continuation: a record tag with what follows it. -/
structure BaseText (base : Bytes) : Prop where
  newline : (10 : Byte) ∉ base
  nul : NulFree base
  record : isGenerationRecord base = true

theorem basePrefix_eq (h : basePrefix content = some base) :
    base <+: content ∧ (content.takeWhile fun c => !isBlankByte c) <+: base := by
  unfold basePrefix at h
  dsimp only at h
  split_ifs at h
  obtain rfl := Option.some.inj h
  have hbegin (p : Byte → Bool) (s t : Bytes) (hst : t <+: s.drop (s.takeWhile p).length) :
      s.takeWhile p ++ t <+: s := by
    conv_rhs => rw [← List.prefix_iff_eq_append.mp (List.takeWhile_prefix (l := s) p)]
    exact (List.prefix_append_right_inj _).mpr hst
  rw [List.append_assoc]
  exact ⟨hbegin _ _ _ (hbegin _ _ _ (List.takeWhile_prefix _)), List.prefix_append ..⟩

theorem baseText_of_record (hcontent : LineContent content)
    (hrecord : isGenerationRecord content = true) (hbase : basePrefix content = some base) :
    BaseText base := by
  obtain ⟨hbegin, hfirst⟩ := basePrefix_eq hbase
  refine ⟨fun hmem => hcontent.newline (hbegin.subset hmem), hcontent.nul.sublist hbegin.sublist, ?_⟩
  obtain ⟨tag, htag, rest, rfl⟩ := isGenerationRecord_iff.mp hrecord
  have hplain : ∀ c ∈ tag, (!isBlankByte c) = true := fun c hc => by
    rw [(recordTag_plain htag).2.2 c hc]
    rfl
  rw [List.takeWhile_append_of_pos hplain] at hfirst
  obtain ⟨rest', hrest'⟩ := (List.prefix_append tag _).trans hfirst
  exact isGenerationRecord_iff.mpr ⟨tag, htag, rest', hrest'.symm⟩

/-- A record line, whatever follows its tag. -/
theorem textLine_of_record {line : Bytes} (hnewline : (10 : Byte) ∉ line) (hnul : NulFree line)
    (hrecord : isGenerationRecord line = true) : TextLine line := by
  obtain ⟨tag, htag, rest, rfl⟩ := isGenerationRecord_iff.mp hrecord
  obtain ⟨rest', htrim, -⟩ := trim_tag htag rest
  refine ⟨hnewline, hnul, .inr ?_⟩
  rw [htrim]
  exact isGenerationRecord_iff.mpr ⟨tag, htag, rest', rfl⟩

theorem builderFits_record {line : Bytes} (hrecord : isGenerationRecord line = true) :
    BuilderFits line ↔ line.length < lineCapacity - 1 ∧ Complete line := by
  obtain ⟨tag, htag, rest, rfl⟩ := isGenerationRecord_iff.mp hrecord
  obtain ⟨rest', htrim, -⟩ := trim_tag htag rest
  unfold BuilderFits
  rw [htrim, (recordTag_branches htag).2.1]
  rfl

theorem textLine_of_lemma (hcontent : LineContent content)
    (hlemma : startsWith (ascii ":le:") content = true) : TextLine content :=
  ⟨hcontent.newline, hcontent.nul, .inl (by rw [hcontent.trimmed, hlemma])⟩

theorem builderFits_lemma (hcontent : LineContent content)
    (hlemma : startsWith (ascii ":le:") content = true) :
    BuilderFits content ↔ canonicalLemma (trim (content.drop 4)) ≠ [] := by
  unfold BuilderFits
  rw [hcontent.trimmed, if_pos hlemma]
  exact and_iff_right hcontent.short

theorem textLine_append (hbase : BaseText base) (hnewline : (10 : Byte) ∉ text)
    (hnul : NulFree text) :
    TextLine (base ++ text) ∧ isGenerationRecord (base ++ text) = true := by
  have hrecord : isGenerationRecord (base ++ text) = true := by
    obtain ⟨tag, htag, rest, hrest⟩ := isGenerationRecord_iff.mp hbase.record
    exact isGenerationRecord_iff.mpr ⟨tag, htag, rest ++ text, by rw [hrest, List.append_assoc]⟩
  refine ⟨textLine_of_record ?_ (nulFree_append.mpr ⟨hbase.nul, hnul⟩) hrecord, hrecord⟩
  rw [List.mem_append, not_or]
  exact ⟨hbase.newline, hnewline⟩

theorem recordTag_nulFree (h : tag ∈ recordTags) : NulFree tag := by
  simp only [recordTags, List.mem_cons, List.not_mem_nil, or_false] at h
  rcases h with rfl | rfl | rfl | rfl | rfl <;> decide +kernel

/-- The record of an expansion without its newline. -/
theorem RecordLine.textLine {record : Bytes} (h : RecordLine record) :
    ∃ line, record = line ++ [10] ∧ TextLine line ∧ (BuilderFits line ↔ Complete record) := by
  obtain ⟨⟨tag, htag, rest, hrecord, hnewline, hnul⟩, hfits⟩ := h
  have htag' : tag ∈ recordTags := by
    simp only [List.mem_cons, List.not_mem_nil, or_false] at htag
    rcases htag with rfl | rfl | rfl <;> decide
  have hgeneration := isGenerationRecord_iff.mpr ⟨tag, htag', rest, rfl⟩
  have hline : TextLine (tag ++ rest) := by
    refine textLine_of_record ?_ (nulFree_append.mpr ⟨recordTag_nulFree htag', hnul⟩) hgeneration
    rw [List.mem_append, not_or]
    exact ⟨fun hmem => absurd ((recordTag_plain htag').2.1 10 hmem) (by decide), hnewline⟩
  have hshort : (tag ++ rest).length < lineCapacity - 1 := by
    rw [hrecord, List.length_append, List.length_singleton] at hfits
    omega
  refine ⟨tag ++ rest, hrecord, hline, ?_⟩
  rw [builderFits_record hgeneration, and_iff_right hshort, hrecord]
  unfold Complete
  rw [trim_newline]

end Lines

section Copied
variable {content base text : Bytes} {past lines : List SourceLine} {line : SourceLine}

/-- What the bytes of a line say about its meaning. -/
def SourceLine.Read : SourceLine → Prop
  | .lemmaLine content => LineContent content
  | .record content _ => LineContent content
  | .continuation text => (10 : Byte) ∉ text ∧ NulFree text
  | _ => True

theorem classify_read (h : LineContent content) : (classify content).Read := by
  have htail : (10 : Byte) ∉ content.drop 1 ∧ NulFree (content.drop 1) :=
    ⟨fun hmem => h.newline (List.drop_subset _ _ hmem), h.nul.sublist (List.drop_sublist _ _)⟩
  unfold classify
  split_ifs
  · exact h
  · exact h
  · exact htail
  · cases derivationOf content <;> trivial
  · trivial
  · trivial

theorem meaning_read {exceptions : List SourceException} {path file : Bytes}
    (hlong : ∀ l ∈ fgetsLines lineCapacity file, ¬ TooLong l) :
    ∀ line ∈ meaning exceptions path file, line.Read := by
  have hlines (lineNumber : ℕ) (skip : Bool) (ls : List Bytes)
      (hls : ∀ l ∈ ls, LineContent (trim (cstr l))) :
      ∀ line ∈ meaningFrom exceptions path lineNumber skip ls, line.Read := by
    induction ls generalizing lineNumber skip with
    | nil => simp [meaningFrom]
    | cons l ls ih =>
      obtain ⟨hl, hls⟩ := List.forall_mem_cons.mp hls
      unfold meaningFrom
      refine List.forall_mem_cons.mpr ⟨?_, ih _ _ hls⟩
      unfold lineMeaning
      dsimp only
      split_ifs
      · trivial
      · cases exceptionOf exceptions path (lineNumber + 1) with
        | none => exact classify_read hl
        | some kind => cases kind <;> trivial
  exact hlines 0 false _ fun l hl => lineContent_of_read hl (hlong l hl)

/-- The base of a continuation comes from a record. -/
def PastBase (past : List SourceLine) : Prop :=
  lastBase past = .direct → BaseText (lastPrefix past)

theorem PastBase.cons (h : PastBase past) (hread : line.Read) (hadmissible : Admissible past line) :
    PastBase (line :: past) := by
  cases line with
  | record content base =>
    exact fun _ => baseText_of_record hread hadmissible.1 hadmissible.2.1
  | continuation text => exact h
  | other => exact h
  | lemmaLine content => exact fun hdirect => absurd hdirect (by simp [lastBase])
  | derivation d => exact fun hdirect => absurd hdirect (by simp [lastBase])
  | request part text => exact fun hdirect => absurd hdirect (by simp [lastBase])
  | zeroRequest part => exact fun hdirect => absurd hdirect (by simp [lastBase])
  | invalidDerivation => exact fun hdirect => absurd hdirect (by simp [lastBase])

/-- The lines copied to the output are lines of a lemma or a record, and the builder takes
them exactly under `fits`. -/
structure CopiedWhen (items : List Written) (fits : Prop) : Prop where
  text : ∀ l, .copied l ∈ items → TextLine l
  accepted : (∀ l, .copied l ∈ items → BuilderFits l) ↔ fits

theorem copied_not_mem_flushed (l : Bytes) : .copied l ∉ flushed past := by
  unfold flushed
  simp

theorem copiedWhen_expansions {items : List Written} (h : ∀ l, .copied l ∉ items) :
    CopiedWhen items True :=
  ⟨fun l hl => absurd hl (h l), iff_true_intro fun l hl => absurd hl (h l)⟩

theorem copiedWhen_single (htext : TextLine content) : CopiedWhen [.copied content]
    (BuilderFits content) := by
  constructor
  · intro l hl
    obtain rfl : l = content := by simpa using hl
    exact htext
  · simp

theorem CopiedWhen.append {items items' : List Written} {fits fits' : Prop}
    (h : CopiedWhen items fits) (h' : CopiedWhen items' fits') :
    CopiedWhen (items ++ items') (fits ∧ fits') := by
  constructor
  · intro l hl
    rcases List.mem_append.mp hl with hl | hl
    · exact h.text l hl
    · exact h'.text l hl
  · rw [← h.accepted, ← h'.accepted]
    simp only [List.mem_append, or_imp, forall_and]

theorem CopiedWhen.congr {items : List Written} {fits fits' : Prop} (h : CopiedWhen items fits)
    (hfits : fits ↔ fits') : CopiedWhen items fits' :=
  ⟨h.text, h.accepted.trans hfits⟩

theorem writtenAt_copied (hread : line.Read) (hadmissible : Admissible past line)
    (hpast : PastBase past) : CopiedWhen (writtenAt past line) (LineFits past line) := by
  cases line with
  | lemmaLine content =>
    have hflushed : CopiedWhen (flushed past) True := copiedWhen_expansions copied_not_mem_flushed
    have hcopied := copiedWhen_single (textLine_of_lemma hread hadmissible.1)
    refine (hflushed.append hcopied).congr ?_
    rw [builderFits_lemma hread hadmissible.1, true_and]
    rfl
  | record content base =>
    have htext := textLine_of_record hread.newline hread.nul hadmissible.1
    refine (copiedWhen_single htext).congr ?_
    rw [builderFits_record hadmissible.1, and_iff_right hread.short,
      complete_iff hread hadmissible.1 hadmissible.2.1]
    rfl
  | continuation text =>
    rw [writtenAt_continuation]
    cases hbase : lastBase past with
    | none => exact absurd hbase hadmissible.1
    | direct =>
      obtain ⟨htext, hrecord⟩ := textLine_append (hpast hbase) hread.1 hread.2
      rw [if_neg (by decide)]
      refine (copiedWhen_single htext).congr ?_
      rw [builderFits_record hrecord]
      simp [LineFits, hbase]
    | derivation =>
      rw [if_pos rfl]
      refine (copiedWhen_expansions (by simp)).congr ?_
      simp [LineFits, hbase]
  | derivation d => exact copiedWhen_expansions copied_not_mem_flushed
  | invalidDerivation => exact copiedWhen_expansions copied_not_mem_flushed
  | request part text => exact copiedWhen_expansions (by simp [writtenAt])
  | other => exact copiedWhen_expansions (by simp [writtenAt])
  | zeroRequest part => exact copiedWhen_expansions (by simp [writtenAt])

theorem writtenFrom_copied (hread : ∀ line ∈ lines, line.Read) (hadmitted : Admitted past lines)
    (hpast : PastBase past) : CopiedWhen (writtenFrom past lines) (SourceFits past lines) := by
  induction lines generalizing past with
  | nil => exact copiedWhen_expansions copied_not_mem_flushed
  | cons line lines ih =>
    obtain ⟨hline, hlines⟩ := List.forall_mem_cons.mp hread
    have hhere := writtenAt_copied hline hadmitted.1 hpast
    exact hhere.append (ih hlines hadmitted.2 (hpast.cons hline hadmitted.1))

end Copied

section Output
variable {env : PrepareEnv} {past lines : List SourceLine} {items : List Written}

/-- A written piece without its newline. -/
def Written.line (env : PrepareEnv) : Written → Bytes
  | copied line => line
  | expanded e => ((env.expand e).getD []).dropLast

/-- The expander gave a record for what was asked of it. -/
def Expanded (env : PrepareEnv) (items : List Written) : Prop :=
  ∀ e, .expanded e ∈ items → ∃ record, env.expand e = some record ∧ RecordLine record

/-- The record of an expansion has a stem and keys. -/
def ExpansionFits (env : PrepareEnv) (e : Expansion) : Prop := Complete ((env.expand e).getD [])

theorem Expanded.line (h : Expanded env items) {e : Expansion} (he : .expanded e ∈ items) :
    TextLine ((Written.expanded e).line env) ∧
      (Written.expanded e).render env = (Written.expanded e).line env ++ [10] ∧
      (BuilderFits ((Written.expanded e).line env) ↔ ExpansionFits env e) := by
  obtain ⟨record, hrecord, hline⟩ := h e he
  obtain ⟨line, rfl, htext, hfits⟩ := hline.textLine
  have hdrop : (Written.expanded e).line env = line := by
    rw [Written.line, hrecord, Option.getD_some, List.dropLast_concat]
  rw [hdrop, Written.render, ExpansionFits, hrecord, Option.getD_some]
  exact ⟨htext, rfl, hfits⟩

/-- The written pieces as lines of a text. -/
theorem flatMap_render (htext : ∀ l, .copied l ∈ items → TextLine l) (h : Expanded env items) :
    items.flatMap (Written.render env) = textOf (items.map (Written.line env)) ∧
      ∀ line ∈ items.map (Written.line env), TextLine line := by
  have hrender : ∀ w ∈ items, w.render env = w.line env ++ [10] ∧ TextLine (w.line env) := by
    intro w hw
    cases w with
    | copied l => exact ⟨rfl, htext l hw⟩
    | expanded e => exact ⟨(h.line hw).2.1, (h.line hw).1⟩
  constructor
  · rw [textOf, List.map_map, List.flatMap_def]
    congr 1
    exact List.map_congr_left fun w hw => (hrender w hw).1
  · intro line hline
    obtain ⟨w, hw, rfl⟩ := List.mem_map.mp hline
    exact (hrender w hw).2

theorem builderFits_items {fits : Prop} (hcopied : CopiedWhen items fits) (h : Expanded env items) :
    (∀ line ∈ items.map (Written.line env), BuilderFits line) ↔
      fits ∧ ∀ e, .expanded e ∈ items → ExpansionFits env e := by
  rw [← hcopied.accepted]
  constructor
  · intro hall
    refine ⟨fun l hl => hall l (List.mem_map.mpr ⟨_, hl, rfl⟩), fun e he => ?_⟩
    exact (h.line he).2.2.mp (hall _ (List.mem_map_of_mem he))
  · rintro ⟨hlines, hexpansions⟩ line hline
    obtain ⟨w, hw, rfl⟩ := List.mem_map.mp hline
    cases w with
    | copied l => exact hlines l hw
    | expanded e => exact (h.line hw).2.2.mpr (hexpansions e hw)

/-- Nothing is written in front of the first lemma of a file. -/
theorem writtenFrom_head (hread : ∀ line ∈ lines, line.Read) (hadmitted : Admitted past lines)
    (hpast : past.any SourceLine.isLemma = false) {first : Written} (hfirst : (writtenFrom past lines).head? = some first) :
    ∃ content, first = .copied content ∧ startsWith (ascii ":le:") (trim content) = true := by
  induction lines generalizing past with
  | nil =>
    have hflushed : flushed past = [] := by
      refine hadmitted.resolve_right ?_
      rw [hpast]
      decide
    rw [writtenFrom, hflushed] at hfirst
    cases hfirst
  | cons line lines ih =>
    obtain ⟨hline, hlines⟩ := hadmitted
    obtain ⟨hline', hlines'⟩ := List.forall_mem_cons.mp hread
    have hno {p : Prop} (hany : past.any SourceLine.isLemma = true) : p := by
      rw [hpast] at hany
      cases hany
    have hflushed (hor : flushed past = [] ∨ past.any SourceLine.isLemma = true) :
        flushed past = [] := hor.resolve_right hno
    have hrest (hnot : line.isLemma = false) (hnothing : writtenAt past line = []) :
        ∃ content, first = .copied content ∧
          startsWith (ascii ":le:") (trim content) = true := by
      refine ih hlines' hlines ?_ ?_
      · rw [List.any_cons, hnot, hpast]
        rfl
      · rwa [writtenFrom, hnothing, List.nil_append] at hfirst
    cases line with
    | lemmaLine content =>
      rw [writtenFrom, writtenAt, hflushed hline.2] at hfirst
      obtain rfl := Option.some.inj hfirst
      exact ⟨content, rfl, by rw [LineContent.trimmed hline', hline.1]⟩
    | record content base => exact hno hline.2.2
    | continuation text => exact hno hline.2
    | derivation d => exact hno hline
    | request part text => exact hno hline
    | invalidDerivation => exact hrest rfl (hflushed hline)
    | other => exact hrest rfl rfl
    | zeroRequest part => exact hrest rfl rfl

end Output

section Files
variable {env : PrepareEnv} {exceptions exceptions' : List SourceException} {paths : List Bytes}
  {state state' : PrepareState} {items : List Written}

/-- The pieces written for the sources of a run. -/
def writtenFiles (sources : List (List SourceLine)) : List Written :=
  sources.flatMap (writtenFrom [])

/-- A source that the preparer accepts. -/
structure Prepares (source : List SourceLine) : Prop where
  read : ∀ line ∈ source, line.Read
  admitted : Admitted [] source

theorem sources_congr (h : exceptions'.map SourceException.key = exceptions.map SourceException.key)
    (paths : List Bytes) : sources env exceptions' paths = sources env exceptions paths := by
  unfold sources meaning
  exact List.map_congr_left fun path _ => meaningFrom_congr h 0 false _

theorem prepareFiles_wrote (hok : prepareFiles env (exceptions, state) paths = .ok (exceptions', state')) :
    Wrote env state state' (writtenFiles (sources env exceptions paths)) ∧
      ∀ source ∈ sources env exceptions paths, Prepares source := by
  induction paths generalizing exceptions state with
  | nil =>
    cases hok
    exact ⟨.nothing rfl rfl, by simp [sources]⟩
  | cons path paths ih =>
    obtain ⟨next, hfile, hrest⟩ := bind_eq_prepared.mp hok
    obtain ⟨exceptions₁, state₁⟩ := next
    obtain ⟨file, hread, hkeys, hwrote, hadmitted, -, hlong⟩ := prepareFile_wrote hfile
    obtain ⟨hwrote', hprepares⟩ := ih hrest
    rw [sources_congr hkeys] at hwrote' hprepares
    have hsources : sources env exceptions (path :: paths) =
        meaning exceptions path file :: sources env exceptions paths := by
      rw [sources, List.map_cons, hread, Option.getD_some]
      rfl
    rw [hsources]
    refine ⟨hwrote.trans hwrote', List.forall_mem_cons.mpr ⟨?_, hprepares⟩⟩
    exact ⟨meaning_read hlong, hadmitted⟩

/-- What the builder asks of a source: lines that fit, and expansions with a stem and keys. -/
def Accepts (env : PrepareEnv) (source : List SourceLine) : Prop :=
  SourceFits [] source ∧ ∀ e ∈ requested source, ExpansionFits env e

theorem mem_requested {source : List SourceLine} {e : Expansion} :
    e ∈ requested source ↔ .expanded e ∈ writtenFrom [] source := by
  unfold requested
  rw [List.mem_filterMap]
  constructor
  · rintro ⟨w, hw, hexpansion⟩
    cases w with
    | copied l => cases hexpansion
    | expanded e' =>
      cases hexpansion
      exact hw
  · intro h
    exact ⟨_, h, rfl⟩

theorem writtenFiles_copied {sources : List (List SourceLine)}
    (h : ∀ source ∈ sources, Prepares source) :
    CopiedWhen (writtenFiles sources) (∀ source ∈ sources, SourceFits [] source) := by
  induction sources with
  | nil => exact (copiedWhen_expansions (by simp [writtenFiles])).congr (by simp)
  | cons source sources ih =>
    obtain ⟨hsource, hsources⟩ := List.forall_mem_cons.mp h
    have hfirst : CopiedWhen (writtenFrom [] source) (SourceFits [] source) :=
      writtenFrom_copied hsource.read hsource.admitted fun hdirect => absurd hdirect (by decide)
    refine (hfirst.append (ih hsources)).congr ?_
    rw [List.forall_mem_cons]

theorem writtenFiles_head {sources : List (List SourceLine)}
    (h : ∀ source ∈ sources, Prepares source) {first : Written}
    (hfirst : (writtenFiles sources).head? = some first) :
    ∃ content, first = .copied content ∧ startsWith (ascii ":le:") (trim content) = true := by
  induction sources with
  | nil => cases hfirst
  | cons source sources ih =>
    obtain ⟨hsource, hsources⟩ := List.forall_mem_cons.mp h
    rw [writtenFiles, List.flatMap_cons] at hfirst
    cases hitems : writtenFrom [] source with
    | nil =>
      rw [hitems, List.nil_append] at hfirst
      exact ih hsources hfirst
    | cons w items =>
      rw [hitems] at hfirst
      obtain rfl := Option.some.inj hfirst
      exact writtenFrom_head hsource.read hsource.admitted rfl (by rw [hitems]; rfl)

theorem unexpanded_head {content : Bytes} (h : Unexpanded content) :
    content.head? ≠ some 35 ∧ content.head? ≠ some 63 ∧ content ≠ [] ∧
      startsWith (ascii ":le:") content = false := by
  have hlemma (hhead : content.head? ≠ some 58) : startsWith (ascii ":le:") content = false := by
    by_contra hno
    exact hhead (tag_of_startsWith (Bool.eq_true_of_not_eq_false hno))
  have hempty {c : Byte} (hhead : content.head? = some c) : content ≠ [] := by
    rintro rfl
    cases hhead
  rcases h with hderivation | hrequest | hcontinuation
  · have hhead := tag_of_startsWith hderivation
    refine ⟨by rw [hhead]; decide, by rw [hhead]; decide, hempty hhead, ?_⟩
    obtain ⟨rest, rfl⟩ := List.isPrefixOf_iff_prefix.mp hderivation
    rfl
  · exact ⟨by rw [hrequest]; decide, by rw [hrequest]; decide, hempty hrequest,
      hlemma (by rw [hrequest]; decide)⟩
  · exact ⟨by rw [hcontinuation]; decide, by rw [hcontinuation]; decide, hempty hcontinuation,
      hlemma (by rw [hcontinuation]; decide)⟩

theorem parseLine_unexpanded {pstate next : ParseState} {line : Bytes}
    (h : parseLine pstate line = .ok next) : ¬ Unexpanded (trim (cstr line)) := by
  intro hbad
  obtain ⟨hcomment, hquery, hempty, hlemma⟩ := unexpanded_head hbad
  unfold parseLine at h
  dsimp only at h
  split_ifs at h
  unfold parseContent at h
  rw [if_neg (by simp [hcomment, hquery, hempty]), if_neg (by simp [hlemma]),
    if_pos (by exact hbad)] at h
  cases h

theorem parseLines_unexpanded {pstate : ParseState} {lineNumber : ℕ} {ls : List Bytes}
    (h : (parseLines lineNumber pstate ls).isOk = true) :
    ∀ line ∈ ls, ¬ Unexpanded (trim (cstr line)) := by
  induction ls generalizing pstate lineNumber with
  | nil => simp
  | cons line ls ih =>
    rw [parseLines] at h
    cases hline : parseLine pstate line with
    | error problem =>
      rw [hline] at h
      cases h
    | ok next =>
      rw [hline] at h
      exact List.forall_mem_cons.mpr ⟨parseLine_unexpanded hline, ih h⟩

/-- Accepted by the builder's `parse_source`, with none of the lines that it refuses unread. -/
def BuilderAccepts (text : Bytes) : Prop :=
  (∀ line ∈ fgetsLines lineCapacity text, ¬ Unexpanded (trim (cstr line))) ∧
    ∀ index, ∃ next, parseSource index text = .ok next

theorem parseSource_isOk (index : SourceIndex) (text : Bytes) :
    (∃ next, parseSource index text = .ok next) ↔
      (parseLines 0 ⟨index, none⟩ (fgetsLines lineCapacity text)).isOk = true := by
  unfold parseSource
  cases parseLines 0 ⟨index, none⟩ (fgetsLines lineCapacity text) with
  | error problem => simp [Except.map, Except.isOk, Except.toBool]
  | ok final => simp [Except.map, Except.isOk, Except.toBool]

/-- The builder accepts prepared text exactly when each source fits. -/
theorem prepared_accepted_iff
    (hok : prepareFiles env (exceptions, .zero) paths = .ok (exceptions', state'))
    (hexpand : ∀ source ∈ sources env exceptions paths, ∀ e ∈ requested source,
      ∀ record, env.expand e = some record → RecordLine record) :
    BuilderAccepts state'.output ↔ ∀ source ∈ sources env exceptions paths, Accepts env source := by
  obtain ⟨hwrote, hprepares⟩ := prepareFiles_wrote hok
  have hrequested (e : Expansion) : .expanded e ∈ writtenFiles (sources env exceptions paths) ↔
      ∃ source ∈ sources env exceptions paths, e ∈ requested source := by
    simp only [writtenFiles, List.mem_flatMap, mem_requested]
  have hexpanded : Expanded env (writtenFiles (sources env exceptions paths)) := by
    intro e he
    obtain ⟨record, hrecord⟩ := hwrote.done e he
    obtain ⟨source, hsource, hreq⟩ := (hrequested e).mp he
    exact ⟨record, hrecord, hexpand source hsource e hreq record hrecord⟩
  have hcopied := writtenFiles_copied hprepares
  obtain ⟨htext, hlines⟩ := flatMap_render hcopied.text hexpanded
  have houtput : state'.output =
      textOf ((writtenFiles (sources env exceptions paths)).map (Written.line env)) :=
    hwrote.output.trans htext
  have hfirst : ∀ line, ((writtenFiles (sources env exceptions paths)).map
      (Written.line env)).head? = some line → startsWith (ascii ":le:") (trim line) = true := by
    intro line hline
    rw [List.head?_map] at hline
    obtain ⟨w, hw, rfl⟩ := Option.map_eq_some_iff.mp hline
    obtain ⟨content, rfl, hlemma⟩ := writtenFiles_head hprepares hw
    exact hlemma
  have haccepts (index : SourceIndex) :
      (parseLines 0 ⟨index, none⟩ (fgetsLines lineCapacity state'.output)).isOk = true ↔
        ∀ source ∈ sources env exceptions paths, Accepts env source := by
    rw [houtput, parseLines_text hlines (.inr hfirst), builderFits_items hcopied hexpanded]
    constructor
    · rintro ⟨hfits, hexpansions⟩ source hsource
      exact ⟨hfits source hsource, fun e he => hexpansions e ((hrequested e).mpr ⟨source, hsource, he⟩)⟩
    · intro hall
      refine ⟨fun source hsource => (hall source hsource).1, fun e he => ?_⟩
      obtain ⟨source, hsource, hreq⟩ := (hrequested e).mp he
      exact (hall source hsource).2 e hreq
  constructor
  · rintro ⟨-, hparse⟩
    exact (haccepts emptyIndex).mp ((parseSource_isOk ..).mp (hparse emptyIndex))
  · intro hall
    refine ⟨parseLines_unexpanded ((haccepts emptyIndex).mpr hall), fun index => ?_⟩
    exact (parseSource_isOk ..).mpr ((haccepts index).mpr hall)

end Files

/-- The condition on a source with a pending request, a request and its continuation. -/
theorem prepared_accepted_luw :
    ∃ exceptions' state', prepareFiles (echoExpander luwSource) ([], .zero) [[]] =
        .ok (exceptions', state') ∧
      (BuilderAccepts state'.output ↔
        ∀ source ∈ sources (echoExpander luwSource) [] [[]], Accepts (echoExpander luwSource) source) := by
  have hsources : sources (echoExpander luwSource) [] [[]] = [sourceLines luwSource] := by
    rw [sources, List.map_singleton]
    exact congrArg (fun source => [source]) (meaning_noExceptions (fun _ => rfl) luwSource)
  have hrequested : requested (sourceLines luwSource) =
      [⟨ascii "lu", ascii "reg_conj", [], ascii "pr"⟩,
        ⟨ascii "tim", ascii "aw_denom", [], ascii "fu,mid"⟩,
        ⟨ascii "tim", ascii "aw_denom", [], ascii "fu,mid ionic"⟩] := by
    decide +kernel
  have hexpand : ∀ source ∈ sources (echoExpander luwSource) [] [[]], ∀ e ∈ requested source,
      ∀ record, (echoExpander luwSource).expand e = some record → RecordLine record := by
    rw [hsources]
    intro source hsource e he record hrecord
    obtain rfl := List.mem_singleton.mp hsource
    rw [hrequested] at he
    obtain rfl := Option.some.inj hrecord
    have hline (stem request : Bytes) (hnewline : (10 : Byte) ∉ stem ++ ascii " " ++ request)
        (hnul : NulFree (stem ++ ascii " " ++ request))
        (hshort : (ascii ":vs:" ++ stem ++ ascii " " ++ request ++ [10]).length < lineCapacity) :
        RecordLine (ascii ":vs:" ++ stem ++ ascii " " ++ request ++ [10]) :=
      ⟨⟨ascii ":vs:", by simp, stem ++ ascii " " ++ request, by simp, hnewline, hnul⟩, hshort⟩
    simp only [List.mem_cons, List.not_mem_nil, or_false] at he
    rcases he with rfl | rfl | rfl
    · exact hline _ _ (by decide +kernel) (by decide +kernel) (by decide +kernel)
    · exact hline _ _ (by decide +kernel) (by decide +kernel) (by decide +kernel)
    · exact hline _ _ (by decide +kernel) (by decide +kernel) (by decide +kernel)
  cases hok : prepareFiles (echoExpander luwSource) ([], .zero) [[]] with
  | error problem =>
    have haccepts : (prepareFiles (echoExpander luwSource) ([], .zero) [[]]).isOk = true := by
      decide +kernel
    rw [hok] at haccepts
    cases haccepts
  | ok next =>
    obtain ⟨exceptions', state'⟩ := next
    exact ⟨exceptions', state', rfl, prepared_accepted_iff hok hexpand⟩

/-- A record with a blank behind its tag: the first field of `base_prefix` is the tag alone. -/
def blankSource : Bytes := ascii ":le:lo/gos\n:no: lo/gos masc\n"

theorem prepared_blank_stem :
    ∃ state', prepareFiles (echoExpander blankSource) ([], .zero) [[]] = .ok ([], state') ∧
      ¬ BuilderAccepts state'.output := by
  have hwritten : prepareFiles (echoExpander blankSource) ([], .zero) [[]] =
      .ok ([], { PrepareState.zero with
        output := blankSource
        basePrefix := some (ascii ":no: lo/gos")
        base := .direct
        haveLemma := true }) := by
    decide +kernel
  refine ⟨_, hwritten, fun haccepts => ?_⟩
  obtain ⟨next, hnext⟩ := haccepts.2 emptyIndex
  have hrefused : (parseSource emptyIndex blankSource).isOk = false := by decide +kernel
  rw [hnext] at hrefused
  cases hrefused

end Morpheus.GenerSource
