import Morpheus.GenerIndexText
import Morpheus.GenerPreparerLaw

/-!
# Prepared text in front of the index builder

The grammar that the builder reads against the text that the preparer writes. The
preparer tests less than the builder: what is left over is a condition on the source.
-/
namespace Morpheus.GenerSource

open GenerIndex

/-- A record line with a stem and keys. -/
def Complete (line : Bytes) : Prop :=
  (recordFields (trim line)).1 ≠ [] ∧ (recordFields (trim line)).2 ≠ []

/-- What the builder asks of a line beyond the tests of the preparer: a lemma that is not
all marks, a stem directly behind the tag, and a continuation that fits a line with its base
in front and still has a stem and keys. -/
def LineFits (past : List SourceLine) : SourceLine → Prop
  | .lemmaLine content => canonicalLemma (trim (content.drop 4)) ≠ []
  | .record content _ => ∀ c, content[4]? = some c → ¬ isBreak c
  | .continuation text =>
    lastBase past = .direct →
      (lastPrefix past ++ text).length < lineCapacity - 1 ∧ Complete (lastPrefix past ++ text)
  | _ => True

def SourceFits : List SourceLine → List SourceLine → Prop
  | _, [] => True
  | past, line :: lines => LineFits past line ∧ SourceFits (line :: past) lines

/-- The sources of a run, with their meanings. -/
def sources (env : PrepareEnv) (exceptions : List SourceException) (paths : List Bytes) :
    List (List SourceLine) :=
  paths.map fun path => meaning exceptions path ((env.file path).getD [])

/-- A record as `write_rule` leaves it: one line behind its tag that fits the buffer. -/
structure RecordLine (record : Bytes) : Prop where
  tagged : ∃ tag ∈ [ascii ":no:", ascii ":aj:", ascii ":vs:"], ∃ rest,
    record = tag ++ rest ++ [10] ∧ (10 : Byte) ∉ rest ∧ NulFree rest
  fits : record.length < lineCapacity

/-- The lines that the builder refuses unread. -/
def Unexpanded (content : Bytes) : Prop :=
  startsWith (ascii ":de:") content = true ∨ content.head? = some 59 ∨ content.head? = some 64

/-- A newline stands only at the end of a line read. -/
theorem fgetsFrom_newline {capacity room : ℕ} {line file : Bytes} (hn : (10 : Byte) ∉ line) :
    ∀ l ∈ fgetsFrom capacity room line file, (10 : Byte) ∉ l.dropLast := by
  induction file generalizing room line with
  | nil =>
    intro l hl
    cases line with
    | nil => simp [fgetsFrom] at hl
    | cons c line =>
      obtain rfl : l = c :: line := by simpa [fgetsFrom] using hl
      exact fun hmem => hn (List.dropLast_subset _ hmem)
  | cons c file ih =>
    intro l hl
    have hstep : fgetsFrom capacity room line (c :: file) =
        if c = 10 ∨ room ≤ 1 then (line ++ [c]) :: fgetsFrom capacity capacity [] file
        else fgetsFrom capacity (room - 1) (line ++ [c]) file := by
      cases line <;> rfl
    rw [hstep] at hl
    split_ifs at hl with hcut
    · rcases List.mem_cons.mp hl with rfl | hl
      · simpa using hn
      · exact ih (by simp) l hl
    · apply ih _ l hl
      simp only [List.mem_append, List.mem_singleton, not_or]
      exact ⟨hn, fun heq => hcut (.inl heq.symm)⟩

theorem trim_eq_nil_iff {s : Bytes} : trim s = [] ↔ ∀ c ∈ s, isBreak c = true := by
  have hblank : ∀ c : Byte, (c == 32 || c == 9) = true → isBreak c = true := by
    intro c hc
    simp only [isBreak, hc, Bool.true_or]
  unfold trim
  rw [List.rdropWhile_eq_nil_iff]
  constructor
  · intro h c hc
    rw [← List.takeWhile_append_dropWhile (p := fun c => c == 32 || c == 9) (l := s)] at hc
    rcases List.mem_append.mp hc with hc | hc
    · have hpos := List.mem_takeWhile_imp hc
      exact hblank c hpos
    · exact h c hc
  · intro h c hc
    exact h c ((List.dropWhile_suffix _).subset hc)

/-- What is left by `trim` ends in a printing byte. -/
theorem trim_getLast {s : Bytes} {c : Byte} (h : (trim s).getLast? = some c) :
    isBreak c = false := by
  have hne : trim s ≠ [] := by
    intro hnil
    rw [hnil] at h
    cases h
  have hlast := List.rdropWhile_last_not isBreak (s.dropWhile fun c => c == 32 || c == 9) hne
  rw [List.getLast?_eq_some_getLast hne] at h
  obtain rfl := Option.some.inj h
  exact Bool.eq_false_iff.mpr hlast

theorem trim_newline (s : Bytes) : trim (s ++ [10]) = trim s := by
  unfold trim
  rw [List.dropWhile_append]
  split_ifs with hempty
  · rw [List.isEmpty_iff.mp hempty]
    rfl
  · exact List.rdropWhile_concat_pos _ _ _ rfl

/-- A text whose first byte is no blank and whose last is no break is trimmed. -/
theorem trim_of_ends {s : Bytes} (hfirst : ∀ c, s.head? = some c → isBlankByte c = false)
    (hlast : ∀ c, s.getLast? = some c → isBreak c = false) : trim s = s := by
  have hdrop : s.dropWhile (fun c => c == 32 || c == 9) = s := by
    cases s with
    | nil => rfl
    | cons c s =>
      have hc := hfirst c rfl
      unfold isBlankByte at hc
      rw [List.dropWhile_cons_of_neg (by simp [hc])]
  unfold trim
  rw [hdrop, List.rdropWhile_eq_self_iff]
  intro hne
  rw [hlast _ (List.getLast?_eq_some_getLast hne)]
  decide

theorem trim_trim (s : Bytes) : trim (trim s) = trim s := by
  apply trim_of_ends
  · intro c hc
    obtain ⟨rest, hrest⟩ := List.rdropWhile_prefix isBreak (s.dropWhile fun c => c == 32 || c == 9)
    have hhead : (s.dropWhile fun c => c == 32 || c == 9).head? = some c := by
      rw [← hrest]
      change (trim s ++ rest).head? = some c
      rw [List.head?_append, hc]
      rfl
    have hnot := List.head?_dropWhile_not (fun c : Byte => c == 32 || c == 9) s
    rw [hhead] at hnot
    simpa [isBlankByte] using hnot
  · intro c hc
    exact trim_getLast hc

/-- The tags of record lines. -/
def recordTags : List Bytes :=
  [ascii ":no:", ascii ":aj:", ascii ":vs:", ascii ":wd:", ascii ":vb:"]

theorem isGenerationRecord_iff {content : Bytes} :
    isGenerationRecord content = true ↔ ∃ tag ∈ recordTags, ∃ rest, content = tag ++ rest := by
  unfold isGenerationRecord recordPrefix
  rw [Option.isSome_map, List.find?_isSome]
  constructor
  · intro h
    obtain ⟨p, hp, hstarts⟩ := h
    obtain ⟨rest, hrest⟩ := List.isPrefixOf_iff_prefix.mp hstarts
    refine ⟨p.1, ?_, rest, hrest.symm⟩
    have htags : recordPrefixes.map (·.1) = recordTags := rfl
    rw [← htags]
    exact List.mem_map_of_mem hp
  · intro h
    obtain ⟨tag, htag, rest, rfl⟩ := h
    have htags : recordPrefixes.map (·.1) = recordTags := rfl
    rw [← htags] at htag
    obtain ⟨p, hp, rfl⟩ := List.mem_map.mp htag
    exact ⟨p, hp, startsWith_append _ _⟩

/-- A tag is four bytes, the first and the last a colon, and no lemma or derivation tag. -/
theorem recordTag_shape {tag : Bytes} (h : tag ∈ recordTags) :
    ∃ a b, tag = [58, a, b, 58] ∧ ¬ (a = 108 ∧ b = 101) ∧ ¬ (a = 100 ∧ b = 101) ∧
      isBreak a = false ∧ isBreak b = false := by
  simp only [recordTags, List.mem_cons, List.not_mem_nil, or_false] at h
  rcases h with rfl | rfl | rfl | rfl | rfl
  · exact ⟨110, 111, by decide +kernel⟩
  · exact ⟨97, 106, by decide +kernel⟩
  · exact ⟨118, 115, by decide +kernel⟩
  · exact ⟨119, 100, by decide +kernel⟩
  · exact ⟨118, 98, by decide +kernel⟩

/-- The branches of the parser that a record line does not take. -/
theorem recordTag_branches {tag rest : Bytes} (h : tag ∈ recordTags) :
    ¬ (tag ++ rest = [] ∨ (tag ++ rest).head? = some 35 ∨ (tag ++ rest).head? = some 63) ∧
      startsWith (ascii ":le:") (tag ++ rest) = false ∧
      ¬ (startsWith (ascii ":de:") (tag ++ rest) ∨ (tag ++ rest).head? = some 59 ∨
        (tag ++ rest).head? = some 64) := by
  obtain ⟨a, b, rfl, hle, hde, -, -⟩ := recordTag_shape h
  have hlemma : startsWith (ascii ":le:") ([58, a, b, 58] ++ rest) = false := by
    have htag : ascii ":le:" = [58, 108, 101, 58] := by decide +kernel
    rw [htag]
    simp only [startsWith, List.cons_append, List.isPrefixOf]
    by_contra hnot
    simp only [Bool.not_eq_false, Bool.and_eq_true, beq_iff_eq] at hnot
    exact hle ⟨hnot.2.1.symm, hnot.2.2.1.symm⟩
  have hderivation : startsWith (ascii ":de:") ([58, a, b, 58] ++ rest) = false := by
    have htag : ascii ":de:" = [58, 100, 101, 58] := by decide +kernel
    rw [htag]
    simp only [startsWith, List.cons_append, List.isPrefixOf]
    by_contra hnot
    simp only [Bool.not_eq_false, Bool.and_eq_true, beq_iff_eq] at hnot
    exact hde ⟨hnot.2.1.symm, hnot.2.2.1.symm⟩
  refine ⟨by simp, hlemma, ?_⟩
  rw [hderivation]
  simp

/-- Whether the builder accepts a line of a lemma or of a record. -/
def BuilderFits (line : Bytes) : Prop :=
  line.length < lineCapacity - 1 ∧
    if startsWith (ascii ":le:") (trim line) = true then
      canonicalLemma (trim ((trim line).drop 4)) ≠ []
    else Complete line

/-- A line of a lemma or of a record. -/
structure TextLine (line : Bytes) : Prop where
  newline : (10 : Byte) ∉ line
  nul : NulFree line
  tagged : startsWith (ascii ":le:") (trim line) = true ∨ isGenerationRecord (trim line) = true

section
variable {state : ParseState} {line : Bytes}

/-- The parser accepts the content exactly under `fits`, and has a block behind it. -/
structure AcceptedWhen (result : Except SourceProblem ParseState) (fits : Prop) : Prop where
  accepts : fits → ∃ next, result = .ok next ∧ next.block ≠ none
  refuses : ¬ fits → ∀ next, result ≠ .ok next

theorem parseContent_lemma {content : Bytes} {hc : NulFree content}
    (h : startsWith (ascii ":le:") content = true) :
    AcceptedWhen (parseContent state content hc) (canonicalLemma (trim (content.drop 4)) ≠ []) := by
  have hhead : content.head? = some 58 := tag_of_startsWith h
  have hignored : ¬ (content = [] ∨ content.head? = some 35 ∨ content.head? = some 63) := by
    rw [hhead]
    intro hor
    rcases hor with hnil | hor | hor
    · rw [hnil] at hhead
      cases hhead
    · exact absurd hor (by decide)
    · exact absurd hor (by decide)
  unfold parseContent
  rw [if_neg hignored, if_pos h]
  dsimp only
  by_cases hempty : canonicalLemma (trim (content.drop 4)) = []
  · rw [dif_pos hempty]
    exact ⟨fun hne => absurd hempty hne, fun _ next hnext => by cases hnext⟩
  · rw [dif_neg hempty]
    exact ⟨fun _ => ⟨_, rfl, by simp⟩, fun hnot => absurd hempty hnot⟩

theorem parseContent_record {content : Bytes} {hc : NulFree content}
    (h : isGenerationRecord content = true) (hblock : state.block ≠ none) :
    AcceptedWhen (parseContent state content hc)
      ((recordFields content).1 ≠ [] ∧ (recordFields content).2 ≠ []) := by
  obtain ⟨tag, htag, rest, hcontent⟩ := isGenerationRecord_iff.mp h
  obtain ⟨hignored, hlemma, hunexpanded⟩ := @recordTag_branches tag rest htag
  rw [← hcontent] at hignored hlemma hunexpanded
  obtain ⟨kind, hkind⟩ := Option.isSome_iff_exists.mp h
  obtain ⟨block, hsome⟩ := Option.ne_none_iff_exists'.mp hblock
  unfold parseContent
  rw [if_neg hignored, if_neg (by simp [hlemma]), if_neg hunexpanded]
  unfold parseRecord
  simp only [hkind, hsome]
  by_cases hfields : (recordFields content).1 = [] ∨ (recordFields content).2 = []
  · rw [dif_pos hfields]
    refine ⟨?_, fun _ next hnext => by cases hnext⟩
    intro hboth
    rcases hfields with hfield | hfield
    · exact absurd hfield hboth.1
    · exact absurd hfield hboth.2
  · rw [dif_neg hfields]
    obtain ⟨hstem, hkeys⟩ := not_or.mp hfields
    exact ⟨fun _ => ⟨_, rfl, by simp⟩, fun hnot => absurd ⟨hstem, hkeys⟩ hnot⟩

theorem parseContent_congr {content content' : Bytes} {hc : NulFree content}
    {hc' : NulFree content'} (h : content = content') :
    parseContent state content hc = parseContent state content' hc' := by
  subst h
  rfl

/-- The parser on a line that fits its buffer. -/
theorem parseLine_text (hline : TextLine line) (hlen : line.length < lineCapacity - 1)
    (hopen : startsWith (ascii ":le:") (trim line) = true ∨ state.block ≠ none) :
    AcceptedWhen (parseLine state (line ++ [10])) (BuilderFits line) := by
  have hnul : NulFree (line ++ [10]) := by
    have hnot := hline.nul
    unfold NulFree at hnot ⊢
    simp [hnot]
  have htext : cstr (line ++ [10]) = line ++ [10] := cstr_of_nulFree hnul
  have hshort : ¬ ((cstr (line ++ [10])).length = lineCapacity - 1 ∧
      (cstr (line ++ [10])).getLast? ≠ some 10) := by
    intro hlong
    rw [htext] at hlong
    exact hlong.2 (by simp)
  have htrim : trim (cstr (line ++ [10])) = trim line := by
    rw [htext, trim_newline]
  have hcontent : parseLine state (line ++ [10]) =
      parseContent state (trim line) (trim_nulFree hline.nul) := by
    unfold parseLine
    dsimp only
    rw [if_neg hshort]
    exact parseContent_congr htrim
  rw [hcontent]
  unfold BuilderFits
  by_cases hlemma : startsWith (ascii ":le:") (trim line) = true
  · rw [if_pos hlemma]
    obtain ⟨haccepts, hrefuses⟩ := @parseContent_lemma state _ (trim_nulFree hline.nul) hlemma
    exact ⟨fun hfits => haccepts hfits.2, fun hnot => hrefuses fun hfits => hnot ⟨hlen, hfits⟩⟩
  · rw [if_neg hlemma]
    have hrecord := hline.tagged.resolve_left hlemma
    have hblock := hopen.resolve_left hlemma
    obtain ⟨haccepts, hrefuses⟩ :=
      @parseContent_record state _ (trim_nulFree hline.nul) hrecord hblock
    exact ⟨fun hfits => haccepts hfits.2, fun hnot => hrefuses fun hfits => hnot ⟨hlen, hfits⟩⟩

end

/-- The lines as a text. -/
def textOf (lines : List Bytes) : Bytes := (lines.map (· ++ [10])).flatten

theorem parseLines_long {state : ParseState} {line rest : Bytes} {lineNumber : ℕ}
    (hline : TextLine line) (hlen : lineCapacity - 1 ≤ line.length) :
    (parseLines lineNumber state (fgetsLines lineCapacity (line ++ 10 :: rest))).isOk = false := by
  obtain ⟨more, hmore⟩ := @fgetsFrom_long (lineCapacity - 1) (lineCapacity - 1) [] line (10 :: rest)
    hline.newline (by decide) hlen
  unfold fgetsLines
  rw [hmore, List.nil_append]
  have hnul : NulFree (line.take (lineCapacity - 1)) := hline.nul.take _
  have htext : cstr (line.take (lineCapacity - 1)) = line.take (lineCapacity - 1) :=
    cstr_of_nulFree hnul
  have hlong : (cstr (line.take (lineCapacity - 1))).length = lineCapacity - 1 ∧
      (cstr (line.take (lineCapacity - 1))).getLast? ≠ some 10 := by
    rw [htext, List.length_take_of_le hlen]
    refine ⟨rfl, ?_⟩
    intro hlast
    exact hline.newline (List.mem_of_mem_take (List.mem_of_getLast? hlast))
  have hline' : parseLine state (line.take (lineCapacity - 1)) = .error .lineTooLong := by
    unfold parseLine
    dsimp only
    rw [if_pos hlong]
  unfold parseLines
  rw [hline']
  rfl

/-- The builder accepts a text of lemma and record lines that starts with a lemma exactly
when each of its lines fits. -/
theorem parseLines_text {lines : List Bytes} {state : ParseState} {lineNumber : ℕ}
    (hlines : ∀ line ∈ lines, TextLine line)
    (hopen : state.block ≠ none ∨
      ∀ line, lines.head? = some line → startsWith (ascii ":le:") (trim line) = true) :
    (parseLines lineNumber state (fgetsLines lineCapacity (textOf lines))).isOk = true ↔
      ∀ line ∈ lines, BuilderFits line := by
  induction lines generalizing state lineNumber with
  | nil => simp [textOf, fgetsLines, fgetsFrom, parseLines, Except.isOk, Except.toBool]
  | cons line lines ih =>
    obtain ⟨hline, hrest⟩ := List.forall_mem_cons.mp hlines
    have htext : textOf (line :: lines) = line ++ 10 :: textOf lines := by
      simp [textOf]
    rw [htext, List.forall_mem_cons]
    by_cases hlen : line.length < lineCapacity - 1
    · have hread : fgetsLines lineCapacity (line ++ 10 :: textOf lines) =
          (line ++ [10]) :: fgetsLines lineCapacity (textOf lines) := by
        unfold fgetsLines
        rw [fgetsFrom_line hline.newline hlen, List.nil_append]
      have haccepted := @parseLine_text state line hline hlen
        (hopen.symm.imp_left fun hlemma => hlemma line rfl)
      rw [hread]
      by_cases hfits : BuilderFits line
      · obtain ⟨next, hnext, hblock⟩ := haccepted.accepts hfits
        unfold parseLines
        rw [hnext]
        dsimp only
        rw [ih hrest (.inl hblock)]
        simp [hfits]
      · have hrefused := haccepted.refuses hfits
        unfold parseLines
        cases hresult : parseLine state (line ++ [10]) with
        | error problem => simp [hfits, Except.isOk, Except.toBool]
        | ok next => exact absurd hresult (hrefused next)
    · rw [parseLines_long hline (not_lt.mp hlen)]
      simp [BuilderFits, hlen]

end Morpheus.GenerSource
