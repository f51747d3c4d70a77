import Morpheus.KeyText

/-!
# Reading the names back

`ScanAsciiKeys` finds the row of every name of a text, and the rows that `SprintGkFlags` has
written set the values of the record again, as far as their names were written.
-/
namespace Morpheus

section Lookup
variable {tables : KeyTables}

theorem mem_keyTable {mp : MorphArgs} : mp ∈ tables.keyTable ↔ mp ∈ tables.definitions := by
  have hfst : tables.definitions.zipIdx.map Prod.fst = tables.definitions :=
    List.zipIdx_map_fst 0 tables.definitions
  have hperm := (Comparison.sortBy_perm keycomp1 tables.definitions.zipIdx).map Prod.fst
  rw [hfst] at hperm
  exact hperm.mem_iff

/-- What orders a row: its name and its place. -/
def keyOrder (k : MorphArgs × ℕ) : List (List ℕ) := [rank id k.1.morphKey, [k.2]]

theorem keycomp1_agrees {k1 k2 : MorphArgs × ℕ} (h1 : NulFree k1.1.morphKey)
    (h2 : NulFree k2.1.morphKey) :
    Comparison.Agrees (keycomp1 k1 k2) (keyOrder k1) (keyOrder k2) := by
  have horder : Comparison.Agrees ((k1.2 : ℤ) - k2.2) [k1.2] [k2.2] := by
    refine ⟨?_, ?_⟩
    · rw [List.cons_lt_cons_iff]
      simp only [List.not_lt_nil, and_false, or_false]
      omega
    · rw [List.cons.injEq]
      simp only [and_true]
      omega
  exact (strcmp_agrees h1 h2).cons (horder.cons Comparison.agrees_nil)

/-- The key table is in the order of the names. -/
theorem keyTable_pairwise :
    tables.keyTable.Pairwise fun l r => rank id l.morphKey ≤ rank id r.morphKey := by
  unfold KeyTables.keyTable
  have hkeys : ∀ k ∈ tables.definitions.zipIdx, NulFree k.1.morphKey := fun k hk =>
    (definitions_key (List.fst_mem_of_mem_zipIdx hk)).2
  have hsorted := Comparison.sortBy_pairwise_mem fun l hl r hr =>
    @keycomp1_agrees l r (hkeys l hl) (hkeys r hr)
  rw [List.pairwise_map]
  refine hsorted.imp_of_mem fun {l r} hl hr hle => ?_
  have hperm := Comparison.sortBy_perm keycomp1 tables.definitions.zipIdx
  have hagrees := keycomp1_agrees (hkeys l (hperm.subset hl)) (hkeys r (hperm.subset hr))
  refine not_lt.mp fun hlt => (hagrees.le_iff.mp hle).not_gt ?_
  exact List.cons_lt_cons_iff.mpr (.inl hlt)

theorem keycomp2_eq {field : Bytes} {i : ℕ} (hi : i < tables.keyTable.length) :
    keycomp2 tables field i = strcmp field tables.keyTable[i].morphKey := by
  unfold keycomp2
  rw [List.getElem?_eq_getElem hi]
  rfl

theorem keycomp2_agrees {field : Bytes} (hfield : NulFree field) {i : ℕ}
    (hi : i < tables.keyTable.length) :
    Comparison.Agrees (keycomp2 tables field i) (rank id field)
      (rank id tables.keyTable[i].morphKey) := by
  rw [keycomp2_eq hi]
  exact strcmp_agrees hfield (definitions_key (mem_keyTable.mp (List.getElem_mem hi))).2

theorem keycomp2_falling {field : Bytes} (hfield : NulFree field) :
    BinarySearch.Falling (keycomp2 tables field) tables.keyTable.length := by
  intro i j hij hj
  have hi : i < tables.keyTable.length := hij.trans hj
  have hle := List.pairwise_iff_getElem.mp keyTable_pairwise i j hi hj hij
  have hat := keycomp2_agrees hfield hi
  have hbehind := keycomp2_agrees hfield hj
  refine ⟨fun hneg => hbehind.lt_iff.mpr ((hat.lt_iff.mp hneg).trans_le hle), fun hpos => ?_⟩
  have hgt := not_le.mp (mt hbehind.le_iff.mpr (not_le.mpr hpos))
  exact not_le.mp (mt hat.le_iff.mp (not_le.mpr (hle.trans_lt hgt)))

/-- Each name is registered once. -/
def KeyTables.NamesOnce (tables : KeyTables) : Prop :=
  ∀ mp ∈ tables.definitions, ∀ other ∈ tables.definitions,
    mp.morphKey = other.morphKey → mp = other

/-- The row of a name is found. -/
theorem matchMorphKey_eq (honce : tables.NamesOnce) {mp : MorphArgs}
    (h : mp ∈ tables.definitions) : matchMorphKey tables mp.morphKey = some mp := by
  have hkey := (definitions_key h).2
  obtain ⟨i, hi, hrow⟩ := List.getElem_of_mem (mem_keyTable.mpr h)
  have hzero : keycomp2 tables mp.morphKey i = 0 := by
    rw [(keycomp2_agrees hkey hi).eq_iff, hrow]
  obtain ⟨j, hfound, hj, hj0⟩ := binlook_exact_exists (keycomp2_falling hkey) hi hzero
  have hfirst : strcmp mp.morphKey tables.keyTable[j].morphKey = 0 := by
    rw [← keycomp2_eq hj, hj0]
  unfold matchMorphKey
  rw [hfound, Option.bind_some, List.drop_eq_getElem_cons hj,
    List.takeWhile_cons_of_pos (by simpa using hfirst),
    List.getLast?_eq_some_getLast (List.cons_ne_nil _ _)]
  refine congrArg some ?_
  have hall : ∀ row ∈ tables.keyTable[j] :: (tables.keyTable.drop (j + 1)).takeWhile
      (fun row => strcmp mp.morphKey row.morphKey == 0), row = mp := by
    intro row hmem
    have hrow : row ∈ tables.definitions ∧ strcmp mp.morphKey row.morphKey = 0 := by
      rcases List.mem_cons.mp hmem with rfl | htail
      · exact ⟨mem_keyTable.mp (List.getElem_mem hj), hfirst⟩
      · have hin := List.mem_of_mem_drop ((List.takeWhile_sublist _).subset htail)
        exact ⟨mem_keyTable.mp hin, by simpa using List.mem_takeWhile_imp htail⟩
    exact (honce mp h row hrow.1 ((strcmp_eq_zero hkey (definitions_key hrow.1).2).mp hrow.2)).symm
  exact hall _ (List.getLast_mem (List.cons_ne_nil _ _))

end Lookup

section Fields

/-- Records agree in the field of a key. -/
def SameField (field : KeyField) (gstr gstr' : GkString) : Prop :=
  match field with
  | .stemtype => gstr.stemtype = gstr'.stemtype
  | .derivtype => gstr.derivtype = gstr'.derivtype
  | .domain => gstr.domains = gstr'.domains
  | .degree => gstr.forminfo.degree = gstr'.forminfo.degree
  | .person => gstr.forminfo.person = gstr'.forminfo.person
  | .gender => gstr.forminfo.gender = gstr'.forminfo.gender
  | .case_ => gstr.forminfo.case_ = gstr'.forminfo.case_
  | .number => gstr.forminfo.number = gstr'.forminfo.number
  | .tense => gstr.forminfo.tense = gstr'.forminfo.tense
  | .voice => gstr.forminfo.voice = gstr'.forminfo.voice
  | .mood => gstr.forminfo.mood = gstr'.forminfo.mood
  | .dialect => gstr.dialect = gstr'.dialect
  | .region => gstr.geogregion = gstr'.geogregion
  | .morphflags => gstr.morphflags = gstr'.morphflags

theorem SameField.refl (field : KeyField) (gstr : GkString) : SameField field gstr gstr := by
  cases field <;> rfl

theorem SameField.trans {field : KeyField} {a b c : GkString} (h : SameField field a b)
    (h' : SameField field b c) : SameField field a c := by
  cases field <;> exact Eq.trans h h'

/-- A key sets its own field only. -/
theorem add_other {mp : MorphArgs} {field : KeyField} (h : mp.addVal ≠ field) (gstr : GkString) :
    SameField field (mp.add gstr) gstr := by
  obtain ⟨key, flags, addVal⟩ := mp
  cases addVal <;> cases field <;> first | rfl | exact absurd rfl h

/-- What a key makes of its field depends on this field only. -/
theorem add_same {mp : MorphArgs} {gstr gstr' : GkString}
    (h : SameField mp.addVal gstr gstr') : SameField mp.addVal (mp.add gstr) (mp.add gstr') := by
  obtain ⟨key, flags, addVal⟩ := mp
  cases addVal <;> simp_all [SameField, MorphArgs.add, newStemtype, newDerivtype, newDomain,
    newDegree, newPerson, newGender, newCase, newNumber, newTense, newVoice, newMood, newDialect,
    newRegion, newMorphflags]

/-- The rows one after the other. -/
def addRows (rows : List MorphArgs) (gstr : GkString) : GkString :=
  rows.foldl (fun gstr mp => mp.add gstr) gstr

theorem addRows_same {rows : List MorphArgs} {field : KeyField} {gstr gstr' : GkString}
    (h : SameField field gstr gstr') : SameField field (addRows rows gstr)
      (addRows (rows.filter fun mp => mp.addVal = field) gstr') := by
  induction rows generalizing gstr gstr' with
  | nil => exact h
  | cons mp rows ih =>
    by_cases hfield : mp.addVal = field
    · subst hfield
      rw [List.filter_cons_of_pos (by simp)]
      exact ih (add_same h)
    · rw [List.filter_cons_of_neg (by simpa using hfield)]
      exact ih ((add_other hfield gstr).trans h)

/-- The rows for one field among rows for several fields. -/
theorem filter_sections {sections : List (KeyField × List MorphArgs)}
    (hown : ∀ s ∈ sections, ∀ mp ∈ s.2, mp.addVal = s.1) (hnodup : (sections.map Prod.fst).Nodup)
    {s : KeyField × List MorphArgs} (hs : s ∈ sections) :
    (sections.flatMap Prod.snd).filter (fun mp => mp.addVal = s.1) = s.2 := by
  induction sections with
  | nil => cases hs
  | cons first sections ih =>
    obtain ⟨hfirst, hrest⟩ := List.forall_mem_cons.mp hown
    rw [List.map_cons, List.nodup_cons] at hnodup
    rw [List.flatMap_cons, List.filter_append]
    rcases List.mem_cons.mp hs with rfl | hmem
    · have hnone : (sections.flatMap Prod.snd).filter (fun mp => mp.addVal = s.1) = [] := by
        refine List.filter_eq_nil_iff.mpr fun mp hmp => ?_
        obtain ⟨other, hother, hin⟩ := List.mem_flatMap.mp hmp
        have hadd := hrest other hother mp hin
        have hne : mp.addVal ≠ s.1 := fun heq =>
          hnodup.1 (List.mem_map.mpr ⟨other, hother, hadd.symm.trans heq⟩)
        simpa using hne
      rw [hnone, List.append_nil]
      exact List.filter_eq_self.mpr fun mp hmp => by simpa using hfirst mp hmp
    · have hnone : first.2.filter (fun mp => mp.addVal = s.1) = [] := by
        refine List.filter_eq_nil_iff.mpr fun mp hmp => ?_
        have hne : mp.addVal ≠ s.1 := fun heq =>
          hnodup.1 (List.mem_map.mpr ⟨s, hmem, heq.symm.trans (hfirst mp hmp)⟩)
        simpa using hne
      rw [hnone, List.nil_append]
      exact ih hrest hnodup.2 hmem

end Fields

section Sections
variable (tables : KeyTables) (gstr : GkString)

/-- The written rows, field by field. -/
def keySections : List (KeyField × List MorphArgs) :=
  let wf := gstr.forminfo
  [(.stemtype, (firstRow gstr.stemtype tables.argStemtype).toList),
    (.derivtype, (firstRow gstr.derivtype tables.argDerivtype).toList),
    (.tense, (firstRow (fieldValue wf.tense) argTense).toList),
    (.mood, (firstRow (fieldValue wf.mood) argMood).toList),
    (.voice, (firstRow (fieldValue wf.voice) argVoice).toList),
    (.gender, (firstRow (fieldValue wf.gender) argGender).toList),
    (.case_, (firstRow (fieldValue wf.case_) argCase).toList),
    (.degree, (firstRow (fieldValue wf.degree) argDegree).toList),
    (.person, (firstRow (fieldValue wf.person) argPerson).toList),
    (.number, (firstRow (fieldValue wf.number) argNumber).toList),
    (.dialect, maskRows argDialect gstr.dialect.toUInt32),
    (.region, maskRows argGeogregion gstr.geogregion), (.domain, domainRows tables gstr),
    (.morphflags, flagRows gstr)]

variable {tables gstr}

theorem keyRows_eq : keyRows tables gstr = (keySections tables gstr).flatMap Prod.snd := by
  have hreduce (rows : List (Option MorphArgs)) :
      rows.reduceOption = rows.flatMap Option.toList := by
    induction rows with
    | nil => rfl
    | cons row rows ih => cases row <;> simp [ih]
  unfold keyRows
  rw [hreduce]
  simp only [singleRows, keySections, List.flatMap_cons, List.flatMap_nil, List.append_nil,
    List.append_assoc]

theorem keyArgs_addVal {field : KeyField} {rows : List (Bytes × UInt32)} {mp : MorphArgs}
    (h : mp ∈ keyArgs field rows) : mp.addVal = field := by
  obtain ⟨row, -, rfl⟩ := List.mem_map.mp h
  rfl

theorem firstRow_addVal {field : KeyField} {rows : List (Bytes × UInt32)} {flag : UInt32}
    {mp : MorphArgs} (h : mp ∈ (firstRow flag (keyArgs field rows)).toList) : mp.addVal = field :=
  keyArgs_addVal (firstRow_mem (Option.mem_toList.mp h)).1

theorem keySections_own {s : KeyField × List MorphArgs} (h : s ∈ keySections tables gstr) :
    ∀ mp ∈ s.2, mp.addVal = s.1 := by
  unfold keySections at h
  simp only [List.mem_cons, List.not_mem_nil, or_false] at h
  rcases h with rfl | rfl | rfl | rfl | rfl | rfl | rfl | rfl | rfl | rfl | rfl | rfl | rfl | rfl
  any_goals exact fun mp hmp => firstRow_addVal hmp
  · exact fun mp hmp => keyArgs_addVal (maskRows_subset hmp)
  · exact fun mp hmp => keyArgs_addVal (maskRows_subset hmp)
  · intro mp hmp
    obtain ⟨p, -, hp⟩ := List.mem_filterMap.mp hmp
    exact keyArgs_addVal (firstRow_mem hp).1
  · intro mp hmp
    obtain ⟨k, -, hk⟩ := List.mem_filterMap.mp hmp
    split_ifs at hk
    exact keyArgs_addVal (firstRow_mem hk).1

/-- The written rows set each field as the rows for it do. -/
theorem addRows_section {s : KeyField × List MorphArgs} (h : s ∈ keySections tables gstr) :
    SameField s.1 (addRows (keyRows tables gstr) .zero) (addRows s.2 .zero) := by
  have hnodup : ((keySections tables gstr).map Prod.fst).Nodup := by
    unfold keySections
    simp only [List.map_cons, List.map_nil]
    decide
  have hfilter := filter_sections (fun s hs => keySections_own hs) hnodup h
  have hsame := @addRows_same (keyRows tables gstr) s.1 _ _ (SameField.refl s.1 .zero)
  rw [keyRows_eq] at hsame ⊢
  rw [hfilter] at hsame
  exact hsame

end Sections

/-- A value is not set, or a row of a table has it. -/
def HasName (flag : UInt32) (args : List MorphArgs) : Prop :=
  flag = 0 ∨ ∃ mp ∈ args, mp.morphFlags = flag

/-- The bits of some rows. -/
def orFlags (rows : List MorphArgs) : UInt32 := rows.foldr (fun mp flags => mp.morphFlags ||| flags) 0

/-- Every value of a record has a registered name: dialects and regions are made of registered
ones. -/
structure Registered (tables : KeyTables) (gstr : GkString) : Prop where
  stemtype : HasName gstr.stemtype tables.argStemtype
  derivtype : HasName gstr.derivtype tables.argDerivtype
  tense : HasName (fieldValue gstr.forminfo.tense) argTense
  mood : HasName (fieldValue gstr.forminfo.mood) argMood
  voice : HasName (fieldValue gstr.forminfo.voice) argVoice
  gender : HasName (fieldValue gstr.forminfo.gender) argGender
  case_ : HasName (fieldValue gstr.forminfo.case_) argCase
  degree : HasName (fieldValue gstr.forminfo.degree) argDegree
  person : HasName (fieldValue gstr.forminfo.person) argPerson
  number : HasName (fieldValue gstr.forminfo.number) argNumber
  dialect : ∃ rows ⊆ argDialect, gstr.dialect.toUInt32 = orFlags rows
  region : ∃ rows ⊆ argGeogregion, gstr.geogregion = orFlags rows
  domains : ∀ domain ∈ gstr.domains, ∃ mp ∈ tables.argDomain, mp.morphFlags = domain.toUInt32
  morphflags : ∀ k, flagAt gstr.morphflags k = true →
    ∃ mp ∈ argMorphflags, mp.morphFlags = UInt32.ofNat (k + 1)

theorem exists_firstRow {flag : UInt32} {args : List MorphArgs} (hflag : flag ≠ 0)
    (h : ∃ mp ∈ args, mp.morphFlags = flag) : ∃ mp, firstRow flag args = some mp := by
  obtain ⟨mp, hmp, heq⟩ := h
  unfold firstRow
  rw [if_neg hflag]
  exact Option.isSome_iff_exists.mp (List.find?_isSome.mpr ⟨mp, hmp, by simpa using heq⟩)

section Singles
variable {tables : KeyTables} {gstr : GkString}

/-- The row of a registered value sets the field to the value. -/
theorem addRows_firstRow {field : KeyField} {rows : List (Bytes × UInt32)} {flag : UInt32}
    (h : HasName flag (keyArgs field rows)) :
    SameField field (addRows (firstRow flag (keyArgs field rows)).toList .zero)
      ((⟨[], flag, field⟩ : MorphArgs).add .zero) := by
  by_cases hflag : flag = 0
  · subst hflag
    cases field <;> rfl
  · obtain ⟨mp, hmp⟩ := exists_firstRow hflag (h.resolve_left hflag)
    have hadd : mp.addVal = field := keyArgs_addVal (firstRow_mem hmp).1
    have hvalue := (firstRow_mem hmp).2
    obtain ⟨key, flags, addVal⟩ := mp
    subst hadd hvalue
    rw [hmp]
    exact SameField.refl addVal _

theorem ofNat_fieldValue {w : ℕ} (hw : w ≤ 32) (field : BitVec w) :
    BitVec.ofNat w (fieldValue field).toNat = field := by
  have hlt : field.toNat < 2 ^ 32 :=
    field.isLt.trans_le (Nat.pow_le_pow_right (by decide) hw)
  unfold fieldValue
  rw [UInt32.toNat_ofNat', Nat.mod_eq_of_lt hlt, BitVec.ofNat_toNat, BitVec.setWidth_eq]

/-- A field of one value is read back. -/
theorem addRows_single {field : KeyField} {rows : List (Bytes × UInt32)} {flag : UInt32}
    (h : HasName flag (keyArgs field rows))
    (hs : (field, (firstRow flag (keyArgs field rows)).toList) ∈ keySections tables gstr) :
    SameField field (addRows (keyRows tables gstr) .zero)
      ((⟨[], flag, field⟩ : MorphArgs).add .zero) :=
  (addRows_section hs).trans (addRows_firstRow h)

theorem addRows_stemtype (h : Registered tables gstr) :
    (addRows (keyRows tables gstr) .zero).stemtype = gstr.stemtype :=
  addRows_single h.stemtype (by simp [keySections, KeyTables.argStemtype])

theorem addRows_derivtype (h : Registered tables gstr) :
    (addRows (keyRows tables gstr) .zero).derivtype = gstr.derivtype :=
  addRows_single h.derivtype (by simp [keySections, KeyTables.argDerivtype])

/-- The voice of one key alone. -/
theorem joinedVoice_zero (voice : BitVec 3) : joinedVoice 0 voice = voice := by
  unfold joinedVoice
  have hone : ¬ (voice = 1 ∧ (0 : BitVec 3) &&& 6 ≠ 0) := fun h => h.2 rfl
  have hactive : ¬ (voice &&& 6 ≠ 0 ∧ (0 : BitVec 3) = 1) := fun h => absurd h.2 (by decide)
  rw [if_neg hone, if_neg hactive]
  exact BitVec.zero_or

theorem addRows_tense (h : HasName (fieldValue gstr.forminfo.tense) argTense) :
    (addRows (keyRows tables gstr) .zero).forminfo.tense = gstr.forminfo.tense :=
  Eq.trans (addRows_single h (by simp [keySections, argTense, namedArgs]))
    (ofNat_fieldValue (by decide) _)

theorem addRows_mood (h : HasName (fieldValue gstr.forminfo.mood) argMood) :
    (addRows (keyRows tables gstr) .zero).forminfo.mood = gstr.forminfo.mood :=
  Eq.trans (addRows_single h (by simp [keySections, argMood, namedArgs]))
    (ofNat_fieldValue (by decide) _)

theorem addRows_voice (h : HasName (fieldValue gstr.forminfo.voice) argVoice) :
    (addRows (keyRows tables gstr) .zero).forminfo.voice = gstr.forminfo.voice :=
  Eq.trans (addRows_single h (by simp [keySections, argVoice, namedArgs]))
    ((joinedVoice_zero _).trans (ofNat_fieldValue (by decide) _))

theorem addRows_gender (h : HasName (fieldValue gstr.forminfo.gender) argGender) :
    (addRows (keyRows tables gstr) .zero).forminfo.gender = gstr.forminfo.gender :=
  Eq.trans (addRows_single h (by simp [keySections, argGender, namedArgs]))
    (BitVec.zero_or.trans (ofNat_fieldValue (by decide) _))

theorem addRows_case (h : HasName (fieldValue gstr.forminfo.case_) argCase) :
    (addRows (keyRows tables gstr) .zero).forminfo.case_ = gstr.forminfo.case_ :=
  Eq.trans (addRows_single h (by simp [keySections, argCase, namedArgs]))
    (BitVec.zero_or.trans (ofNat_fieldValue (by decide) _))

theorem addRows_degree (h : HasName (fieldValue gstr.forminfo.degree) argDegree) :
    (addRows (keyRows tables gstr) .zero).forminfo.degree = gstr.forminfo.degree :=
  Eq.trans (addRows_single h (by simp [keySections, argDegree, namedArgs]))
    (ofNat_fieldValue (by decide) _)

theorem addRows_person (h : HasName (fieldValue gstr.forminfo.person) argPerson) :
    (addRows (keyRows tables gstr) .zero).forminfo.person = gstr.forminfo.person :=
  Eq.trans (addRows_single h (by simp [keySections, argPerson, namedArgs]))
    (ofNat_fieldValue (by decide) _)

theorem addRows_number (h : HasName (fieldValue gstr.forminfo.number) argNumber) :
    (addRows (keyRows tables gstr) .zero).forminfo.number = gstr.forminfo.number :=
  Eq.trans (addRows_single h (by simp [keySections, argNumber, namedArgs]))
    (ofNat_fieldValue (by decide) _)

theorem addRows_forminfo (h : Registered tables gstr) :
    (addRows (keyRows tables gstr) .zero).forminfo = gstr.forminfo := by
  have htense := @addRows_tense tables gstr h.tense
  have hmood := @addRows_mood tables gstr h.mood
  have hvoice := @addRows_voice tables gstr h.voice
  have hgender := @addRows_gender tables gstr h.gender
  have hcase := @addRows_case tables gstr h.case_
  have hdegree := @addRows_degree tables gstr h.degree
  have hperson := @addRows_person tables gstr h.person
  have hnumber := @addRows_number tables gstr h.number
  revert htense hmood hvoice hgender hcase hdegree hperson hnumber
  generalize (addRows (keyRows tables gstr) .zero).forminfo = read
  generalize gstr.forminfo = written
  intro htense hmood hvoice hgender hcase hdegree hperson hnumber
  cases read
  cases written
  congr

end Singles

end Morpheus
