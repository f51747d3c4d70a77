import Morpheus.KeyNames

/-!
# The text of the names

`SprintGkFlags` writes the names of the rows that it finds for a record; read with blanks for the
delimiters the text has these names for its words.
-/
namespace Morpheus

section Names
variable {tables : KeyTables} {gstr : GkString} {capacity : ℕ} {pretty : Bool}

/-- The names of a list with delimiters between them, from the first one on that is not empty. -/
def joinedNames : Bytes → List Bytes → Bytes
  | res, [] => res
  | res, name :: names => joinedNames (if res = [] then name else res ++ 58 :: name) names

theorem appendName_eq {res name out : Bytes} (h : appendName [58] capacity res name = some out) :
    out = if res = [] then name else res ++ 58 :: name := by
  unfold appendName at h
  obtain ⟨mid, hmid, hout⟩ := Option.bind_eq_some_iff.mp h
  rw [appendText_eq hout]
  split_ifs at hmid ⊢ with hres
  · obtain rfl := Option.some.inj hmid
    rw [hres, List.nil_append]
  · rw [appendText_eq hmid, List.append_assoc, List.singleton_append]

theorem foldlM_appendName {α : Type*} {name : α → Bytes} {items : List α} {res out : Bytes}
    (h : items.foldlM (fun res item => appendName [58] capacity res (name item)) res = some out) :
    out = joinedNames res (items.map name) := by
  induction items generalizing res with
  | nil => exact (Option.some.inj h).symm
  | cons item items ih =>
    rw [List.foldlM_cons] at h
    obtain ⟨mid, hmid, hout⟩ := Option.bind_eq_some_iff.mp h
    rw [ih hout, appendName_eq hmid]
    rfl

theorem joinedNames_of_ne_nil {res : Bytes} (h : res ≠ []) (names : List Bytes) :
    joinedNames res names = res ++ names.flatMap fun name => 58 :: name := by
  induction names generalizing res with
  | nil => rw [List.flatMap_nil, List.append_nil, joinedNames]
  | cons name names ih =>
    rw [joinedNames, if_neg h, ih (List.append_ne_nil_of_left_ne_nil h _), List.flatMap_cons,
      List.append_assoc]

/-- The text that a value adds to the keys. -/
def fieldText (value : Bytes) : Bytes := if value = [] then [] else 58 :: value

/-- A list of names adds each of its names behind a delimiter. -/
theorem fieldText_joinedNames (names : List Bytes) : ∃ pieces : List Bytes,
    fieldText (joinedNames [] names) = pieces.flatMap (fun piece => 58 :: piece) ∧
      pieces.filter (· ≠ []) = names.filter (· ≠ []) := by
  induction names with
  | nil => exact ⟨[], rfl, rfl⟩
  | cons name names ih =>
    by_cases hname : name = []
    · obtain ⟨pieces, htext, hpieces⟩ := ih
      refine ⟨pieces, ?_, ?_⟩
      · rw [joinedNames, if_pos rfl, hname, htext]
      · rw [hpieces, hname, List.filter_cons_of_neg (by simp)]
    · refine ⟨name :: names, ?_, rfl⟩
      rw [joinedNames, if_pos rfl, joinedNames_of_ne_nil hname, List.flatMap_cons, fieldText,
        if_neg (List.append_ne_nil_of_left_ne_nil hname _), List.cons_append]

theorem appendFlagField_eq {buf value out : Bytes}
    (h : appendFlagField [58] capacity buf value = some out) : out = buf ++ fieldText value := by
  have hcolon : ([58] : Bytes).head? ≠ some 9 := by decide
  unfold appendFlagField at h
  obtain ⟨mid, hmid, hout⟩ := Option.bind_eq_some_iff.mp h
  unfold fieldText
  simp only [hcolon, or_false] at hmid
  by_cases hvalue : value = []
  · rw [if_neg (not_not.mpr hvalue)] at hmid
    rw [if_pos hvalue] at hout ⊢
    rw [List.append_nil, ← Option.some.inj hout, Option.some.inj hmid]
  · rw [if_pos hvalue] at hmid
    rw [if_neg hvalue] at hout ⊢
    rw [appendText_eq hout, appendText_eq hmid, List.append_assoc, List.singleton_append]

theorem foldlM_appendFlagField {values : List Bytes} {buf out : Bytes}
    (h : values.foldlM (appendFlagField [58] capacity) buf = some out) :
    out = buf ++ values.flatMap fieldText := by
  induction values generalizing buf with
  | nil => rw [List.flatMap_nil, List.append_nil, Option.some.inj h]
  | cons value values ih =>
    rw [List.foldlM_cons] at h
    obtain ⟨mid, hmid, hout⟩ := Option.bind_eq_some_iff.mp h
    rw [ih hout, appendFlagField_eq hmid, List.flatMap_cons, List.append_assoc]

end Names

theorem headerArgs_key {mp : MorphArgs} (h : mp ∈ headerArgs) :
    IsKeyWord mp.morphKey ∧ NulFree mp.morphKey := by
  have hall : (headerArgs.all fun mp => mp.morphKey != [] &&
      mp.morphKey.all fun c => !isSpace c && c != 0) = true := by decide +kernel
  have hkey := List.all_eq_true.mp hall mp h
  rw [Bool.and_eq_true, List.all_eq_true] at hkey
  have hbytes : ∀ c ∈ mp.morphKey, isSpace c = false ∧ c ≠ 0 := fun c hc => by
    simpa using hkey.2 c hc
  exact ⟨⟨by simpa using hkey.1, fun c hc => (hbytes c hc).1⟩, fun hzero => (hbytes 0 hzero).2 rfl⟩

/-- The keys of the tables are words. -/
theorem definitions_key {tables : KeyTables} {mp : MorphArgs} (h : mp ∈ tables.definitions) :
    IsKeyWord mp.morphKey ∧ NulFree mp.morphKey := by
  have hloaded {addVal : KeyField} {rows : List (Bytes × UInt32)}
      (hrows : ∀ row ∈ rows, row ∈ tables.stemtypes ++ tables.derivtypes ++ tables.domains)
      (hmp : mp ∈ keyArgs addVal rows) : IsKeyWord mp.morphKey ∧ NulFree mp.morphKey := by
    obtain ⟨row, hrow, rfl⟩ := List.mem_map.mp hmp
    exact tables.isKey row (hrows row hrow)
  unfold KeyTables.definitions at h
  rcases List.mem_append.mp h with h | h
  · rcases List.mem_append.mp h with h | h
    · rcases List.mem_append.mp h with h | h
      · exact hloaded (fun row hrow => by simp [hrow]) h
      · exact hloaded (fun row hrow => by simp [hrow]) h
    · exact hloaded (fun row hrow => by simp [hrow]) h
  · exact headerArgs_key h

theorem firstRow_mem {flag : UInt32} {args : List MorphArgs} {mp : MorphArgs}
    (h : firstRow flag args = some mp) : mp ∈ args ∧ mp.morphFlags = flag := by
  unfold firstRow at h
  split_ifs at h
  exact ⟨List.mem_of_find?_eq_some h, by simpa using List.find?_some h⟩

section Rows
variable (tables : KeyTables) (gstr : GkString)

/-- The rows of the single values, in the order in which their names are written. -/
def singleRows : List (Option MorphArgs) :=
  let wf := gstr.forminfo
  [firstRow gstr.stemtype tables.argStemtype, firstRow gstr.derivtype tables.argDerivtype,
    firstRow (fieldValue wf.tense) argTense, firstRow (fieldValue wf.mood) argMood,
    firstRow (fieldValue wf.voice) argVoice, firstRow (fieldValue wf.gender) argGender,
    firstRow (fieldValue wf.case_) argCase, firstRow (fieldValue wf.degree) argDegree,
    firstRow (fieldValue wf.person) argPerson, firstRow (fieldValue wf.number) argNumber]

def domainRows : List MorphArgs :=
  gstr.domains.filterMap fun p => firstRow (domainNumber p) tables.argDomain

def flagRows : List MorphArgs :=
  (List.range (8 * morphflagBytes)).filterMap fun k =>
    if flagAt gstr.morphflags k then firstRow (UInt32.ofNat (k + 1)) argMorphflags else none

/-- The rows whose names `SprintGkFlags` writes. -/
def keyRows : List MorphArgs :=
  (singleRows tables gstr).reduceOption ++ maskRows argDialect gstr.dialect.toUInt32 ++
    maskRows argGeogregion gstr.geogregion ++ domainRows tables gstr ++ flagRows gstr

end Rows

section Text
variable {tables : KeyTables} {gstr : GkString}

/-- A text of delimiters with names behind them. -/
def Pieces (text : Bytes) (names : List Bytes) : Prop :=
  ∃ pieces : List Bytes, text = pieces.flatMap (fun piece => 58 :: piece) ∧
    pieces.filter (· ≠ []) = names

theorem Pieces.append {text text' : Bytes} {names names' : List Bytes} (h : Pieces text names)
    (h' : Pieces text' names') : Pieces (text ++ text') (names ++ names') := by
  obtain ⟨pieces, rfl, rfl⟩ := h
  obtain ⟨pieces', rfl, rfl⟩ := h'
  exact ⟨pieces ++ pieces', List.flatMap_append.symm, List.filter_append ..⟩

theorem pieces_fieldText (value : Bytes) : Pieces (fieldText value) ([value].filter (· ≠ [])) := by
  by_cases hvalue : value = []
  · subst hvalue
    exact ⟨[], rfl, rfl⟩
  · refine ⟨[value], ?_, rfl⟩
    rw [fieldText, if_neg hvalue, List.flatMap_singleton]

theorem pieces_fieldTexts (values : List Bytes) :
    Pieces (values.flatMap fieldText) (values.filter (· ≠ [])) := by
  induction values with
  | nil => exact ⟨[], rfl, rfl⟩
  | cons value values ih =>
    have hsplit : (value :: values).filter (· ≠ []) =
        [value].filter (· ≠ []) ++ values.filter (· ≠ []) := by
      rw [← List.filter_append, List.singleton_append]
    rw [List.flatMap_cons, hsplit]
    exact (pieces_fieldText value).append ih

/-- The names of rows that are there. -/
theorem filter_names {α : Type*} {row : α → Option MorphArgs} {items : List α}
    (h : ∀ item ∈ items, ∀ mp ∈ row item, mp.morphKey ≠ []) :
    (items.map fun item => ((row item).map MorphArgs.morphKey).getD []).filter (· ≠ []) =
      (items.filterMap row).map MorphArgs.morphKey := by
  induction items with
  | nil => rfl
  | cons item items ih =>
    have hitems := ih fun item hitem => h item (List.mem_cons_of_mem _ hitem)
    have hkey := h item List.mem_cons_self
    rw [List.map_cons]
    cases hrow : row item with
    | none =>
      rw [List.filterMap_cons_none hrow, List.filter_cons_of_neg (by simp), hitems]
    | some mp =>
      have hne : mp.morphKey ≠ [] := hkey mp hrow
      rw [List.filterMap_cons_some hrow, List.filter_cons_of_pos (by simpa using hne), hitems]
      rfl

theorem maskRows_subset {args : List MorphArgs} {mf : UInt32} {mp : MorphArgs}
    (h : mp ∈ maskRows args mf) : mp ∈ args := by
  induction args generalizing mf with
  | nil => cases h
  | cons arg args ih =>
    unfold maskRows at h
    split_ifs at h
    · exact (List.mem_cons.mp h).elim (fun heq => heq ▸ List.mem_cons_self)
        fun hmem => List.mem_cons_of_mem _ (ih hmem)
    · exact List.mem_cons_of_mem _ (ih h)

theorem maskRows_zero (args : List MorphArgs) : maskRows args 0 = [] := by
  induction args with
  | nil => rfl
  | cons arg args ih =>
    have hnot : ¬ (arg.morphFlags ≠ 0 ∧ 0 &&& arg.morphFlags = arg.morphFlags) := fun h =>
      h.1 (by rw [← h.2, UInt32.zero_and])
    rw [maskRows, if_neg hnot, ih]

theorem subset_headerArgs {args : List MorphArgs} (hargs : args ∈ [argDegree, argPerson, argGender,
    argCase, argNumber, argTense, argVoice, argMood, argDialect, argGeogregion, argMorphflags]) :
    args ⊆ headerArgs := by
  intro mp hmp
  unfold headerArgs
  simp only [List.mem_cons, List.not_mem_nil, or_false] at hargs
  rcases hargs with rfl | rfl | rfl | rfl | rfl | rfl | rfl | rfl | rfl | rfl | rfl <;>
    simp only [List.mem_append, hmp, true_or, or_true]

theorem headerArgs_subset {args : List MorphArgs} (hargs : args ∈ [argDegree, argPerson, argGender,
    argCase, argNumber, argTense, argVoice, argMood, argDialect, argGeogregion, argMorphflags]) :
    args ⊆ tables.definitions :=
  fun _ hmp => List.mem_append_right _ (subset_headerArgs hargs hmp)

theorem singleRows_subset {mp : MorphArgs} (h : some mp ∈ singleRows tables gstr) :
    mp ∈ tables.definitions := by
  have hstem : tables.argStemtype ⊆ tables.definitions := fun mp hmp => by
    simp [KeyTables.definitions, hmp]
  have hderiv : tables.argDerivtype ⊆ tables.definitions := fun mp hmp => by
    simp [KeyTables.definitions, hmp]
  unfold singleRows at h
  simp only [List.mem_cons, List.not_mem_nil, or_false] at h
  rcases h with h | h | h | h | h | h | h | h | h | h
  · exact hstem (firstRow_mem h.symm).1
  · exact hderiv (firstRow_mem h.symm).1
  all_goals exact headerArgs_subset (by simp) (firstRow_mem h.symm).1

/-- The written rows are rows of the tables. -/
theorem keyRows_subset {mp : MorphArgs} (h : mp ∈ keyRows tables gstr) :
    mp ∈ tables.definitions := by
  unfold keyRows at h
  rcases List.mem_append.mp h with h | h
  · rcases List.mem_append.mp h with h | h
    · rcases List.mem_append.mp h with h | h
      · rcases List.mem_append.mp h with h | h
        · exact singleRows_subset (List.reduceOption_mem_iff.mp h)
        · exact headerArgs_subset (by simp) (maskRows_subset h)
      · exact headerArgs_subset (by simp) (maskRows_subset h)
    · obtain ⟨p, -, hp⟩ := List.mem_filterMap.mp h
      have hmp := (firstRow_mem hp).1
      simp [KeyTables.definitions, hmp]
  · obtain ⟨k, -, hk⟩ := List.mem_filterMap.mp h
    split_ifs at hk
    exact headerArgs_subset (by simp) (firstRow_mem hk).1

theorem pieces_singleNames : Pieces ((singleNames tables gstr).flatMap fieldText)
    ((singleRows tables gstr).reduceOption.map MorphArgs.morphKey) := by
  have hnames : (singleNames tables gstr).filter (· ≠ []) =
      (singleRows tables gstr).reduceOption.map MorphArgs.morphKey :=
    @filter_names _ (fun row => row) (singleRows tables gstr) fun row hrow mp hmp => by
      have hsome : row = some mp := hmp
      exact (definitions_key (singleRows_subset (hsome ▸ hrow))).1.1
  rw [← hnames]
  exact pieces_fieldTexts _

theorem pieces_joinedNames (names : List Bytes) :
    Pieces (fieldText (joinedNames [] names)) (names.filter (· ≠ [])) := fieldText_joinedNames names

theorem pieces_maskNames {args : List MorphArgs} {mf : UInt32} {capacity : ℕ} {out : Bytes}
    (hargs : args ⊆ headerArgs) (h : maskNames args mf [58] capacity = some out) :
    Pieces (fieldText out) ((maskRows args mf).map MorphArgs.morphKey) := by
  unfold maskNames at h
  split_ifs at h with hzero
  · rw [← Option.some.inj h, hzero, maskRows_zero]
    exact ⟨[], rfl, rfl⟩
  · have hfilter : ((maskRows args mf).map MorphArgs.morphKey).filter (· ≠ []) =
        (maskRows args mf).map MorphArgs.morphKey := by
      refine List.filter_eq_self.mpr fun key hkey => ?_
      obtain ⟨mp, hmp, rfl⟩ := List.mem_map.mp hkey
      simpa using (headerArgs_key (hargs (maskRows_subset hmp))).1.1
    have hpieces := pieces_joinedNames ((maskRows args mf).map MorphArgs.morphKey)
    rw [hfilter] at hpieces
    rw [foldlM_appendName h]
    exact hpieces

theorem pieces_domainNames {capacity : ℕ} {out : Bytes}
    (h : domainNames tables gstr.domains [58] capacity = some out) :
    Pieces (fieldText out) ((domainRows tables gstr).map MorphArgs.morphKey) := by
  unfold domainNames at h
  have hfilter := @filter_names _ (fun p => firstRow (domainNumber p) tables.argDomain)
    gstr.domains fun p _ mp hmp => by
      have hmem : mp ∈ tables.argDomain := (firstRow_mem hmp).1
      have hdefined : mp ∈ tables.definitions := by simp [KeyTables.definitions, hmem]
      exact (definitions_key hdefined).1.1
  rw [foldlM_appendName h, domainRows, ← hfilter]
  exact pieces_joinedNames _

/-- The names of the flags come from the rows of the flags. -/
theorem morphNames_eq (dels : Bytes) (capacity : ℕ) :
    morphNames gstr.morphflags dels capacity false =
      (flagRows gstr).foldlM (fun res mp => appendName dels capacity res mp.morphKey) [] := by
  unfold morphNames flagRows
  rw [List.foldlM_filterMap]
  congr 1
  funext res k
  dsimp only
  by_cases hflag : flagAt gstr.morphflags k = true
  · rw [if_pos hflag]
    unfold pEqMorphKeys
    cases hrow : firstRow (UInt32.ofNat (k + 1)) argMorphflags with
    | none => simp
    | some mp =>
      have hmem := subset_headerArgs (by simp) (firstRow_mem hrow).1
      have hkey : mp.morphKey ≠ [] := (headerArgs_key hmem).1.1
      simp [hflag, hkey]
  · rw [if_neg hflag, if_neg fun h => hflag h.1]
    rfl

theorem pieces_morphNames {capacity : ℕ} {out : Bytes}
    (h : morphNames gstr.morphflags [58] capacity false = some out) :
    Pieces (fieldText out) ((flagRows gstr).map MorphArgs.morphKey) := by
  rw [morphNames_eq] at h
  have hfilter : ((flagRows gstr).map MorphArgs.morphKey).filter (· ≠ []) =
      (flagRows gstr).map MorphArgs.morphKey := by
    refine List.filter_eq_self.mpr fun key hkey => ?_
    obtain ⟨mp, hmp, rfl⟩ := List.mem_map.mp hkey
    obtain ⟨k, -, hk⟩ := List.mem_filterMap.mp hmp
    split_ifs at hk
    simpa using (headerArgs_key (subset_headerArgs (by simp) (firstRow_mem hk).1)).1.1
  have hpieces := pieces_joinedNames ((flagRows gstr).map MorphArgs.morphKey)
  rw [hfilter] at hpieces
  rw [foldlM_appendName h]
  exact hpieces

/-- What `SprintGkFlags` writes behind its buffer are the names of the written rows. -/
theorem sprintGkFlags_pieces {buf out : Bytes} {capacity : ℕ}
    (h : sprintGkFlags tables gstr buf capacity [58] false = some out) :
    ∃ text, out = buf ++ text ∧ Pieces text ((keyRows tables gstr).map MorphArgs.morphKey) := by
  unfold sprintGkFlags at h
  split_ifs at h
  obtain ⟨buf₁, hsingle, h⟩ := Option.bind_eq_some_iff.mp h
  obtain ⟨dialects, hdialects, h⟩ := Option.bind_eq_some_iff.mp h
  obtain ⟨buf₂, hbuf₂, h⟩ := Option.bind_eq_some_iff.mp h
  obtain ⟨regions, hregions, h⟩ := Option.bind_eq_some_iff.mp h
  obtain ⟨buf₃, hbuf₃, h⟩ := Option.bind_eq_some_iff.mp h
  obtain ⟨domains, hdomains, h⟩ := Option.bind_eq_some_iff.mp h
  obtain ⟨buf₄, hbuf₄, h⟩ := Option.bind_eq_some_iff.mp h
  obtain ⟨flags, hflags, h⟩ := Option.bind_eq_some_iff.mp h
  refine ⟨(singleNames tables gstr).flatMap fieldText ++ fieldText dialects ++ fieldText regions ++
    fieldText domains ++ fieldText flags, ?_, ?_⟩
  · rw [appendFlagField_eq h, appendFlagField_eq hbuf₄, appendFlagField_eq hbuf₃,
      appendFlagField_eq hbuf₂, foldlM_appendFlagField hsingle]
    simp only [List.append_assoc]
  · unfold keyRows
    simp only [List.map_append]
    exact (((pieces_singleNames.append (pieces_maskNames (subset_headerArgs (by simp))
      hdialects)).append (pieces_maskNames (subset_headerArgs (by simp)) hregions)).append
      (pieces_domainNames hdomains)).append (pieces_morphNames hflags)

/-- Delimiters read as blanks. -/
def colonsToBlanks (text : Bytes) : Bytes := text.map fun c => if c = 58 then 32 else c

/-- A name that is read as it is written. -/
def IsPlainName (name : Bytes) : Prop := IsKeyWord name ∧ 58 ∉ name

theorem colonsToBlanks_plain {name : Bytes} (h : 58 ∉ name) : colonsToBlanks name = name := by
  unfold colonsToBlanks
  refine (List.map_congr_left fun c hc => ?_).trans (List.map_id name)
  have hne : c ≠ 58 := fun heq => h (heq ▸ hc)
  rw [if_neg hne]
  rfl

/-- The words of a text are its names. -/
theorem keyWords_pieces {text : Bytes} {names : List Bytes} (h : Pieces text names)
    (hplain : ∀ name ∈ names, IsPlainName name) : keyWords (colonsToBlanks text) = names := by
  obtain ⟨pieces, rfl, rfl⟩ := h
  induction pieces with
  | nil =>
    rw [List.flatMap_nil, colonsToBlanks, List.map_nil, keyWords]
    rfl
  | cons piece pieces ih =>
    have hsplit : colonsToBlanks ((piece :: pieces).flatMap fun piece => 58 :: piece) =
        32 :: (colonsToBlanks piece ++
          colonsToBlanks (pieces.flatMap fun piece => 58 :: piece)) := by
      rw [List.flatMap_cons]
      unfold colonsToBlanks
      rw [List.map_append, List.map_cons, if_pos rfl, List.cons_append]
    have hstart : colonsToBlanks (pieces.flatMap fun piece => 58 :: piece) = [] ∨
        (colonsToBlanks (pieces.flatMap fun piece => 58 :: piece)).head? = some 32 := by
      cases pieces with
      | nil => exact .inl rfl
      | cons next pieces => exact .inr rfl
    rw [hsplit, keyWords_blank]
    by_cases hpiece : piece = []
    · subst hpiece
      rw [List.filter_cons_of_neg (by simp)] at hplain ⊢
      exact ih hplain
    · rw [List.filter_cons_of_pos (by simpa using hpiece)] at hplain ⊢
      obtain ⟨hname, hnames⟩ := List.forall_mem_cons.mp hplain
      rw [colonsToBlanks_plain hname.2, keyWords_cons hname.1 _ hstart, ih hnames]

end Text

end Morpheus
