import Morpheus.FormBuilding

/-!
# How forms are spelled

A form without a preverb is spelled as its stem and its ending are, one behind the other, or with an
augment in front: the letters of a row of the augment tables, an epsilon, or an epsilon before a
doubled consonant. Stem, ending and preverb of a form stay those that it was built from.
-/
namespace Morpheus

/-- How an augment, as the form records it, changes the letters of a text. -/
inductive Augments (aug1 : Bytes) : Bytes → Bytes → Prop
  | unchanged (s : Bytes) : Augments aug1 s s
  | row (row : AugTable) (rest : Bytes) (hrow : row ∈ tempAugments ++ syllAugments)
      (haug1 : aug1 = row.noaug ++ 62 :: row.withaug) :
      Augments aug1 (spelling row.noaug ++ rest) (spelling row.withaug ++ rest)
  | syllabic (s : Bytes) (haug1 : aug1 ≠ []) : Augments aug1 s (101 :: s)
  | doubled (c : Byte) (s : Bytes) (haug1 : aug1 ≠ []) : Augments aug1 (c :: s) (101 :: c :: c :: s)

section Augmenting
variable {syllabic : Bool} {gkform form : GkWord} {tmpstem : Bytes} {maxaugs : ℕ}
  {rows : List AugTable} {row : AugTable}

/-- The letters of a row's form; a quantity mark behind the text without augment is passed over. -/
theorem rowForm_spelling (hrow : ShortRow row) {rest text : Bytes}
    (h : rowForm row (row.noaug ++ rest) = some text) :
    spelling text = spelling row.withaug ++ spelling rest := by
  have hwithaug : row.withaug.length < maxWordSize := hrow.withaug.trans_lt (by decide)
  unfold rowForm at h
  rw [appendText_eq h, spelling_append, xstrncpy_of_lt hwithaug, List.drop_append]
  congr 1
  rw [List.drop_eq_nil_of_le (Nat.le_add_right _ _), List.nil_append, Nat.add_sub_cancel_left]
  cases rest with
  | nil => rw [List.drop_nil]
  | cons c rest =>
    by_cases hmark : c = 94
    · simp [hmark, spelling_cons_mark (show isLetter 94 = false from rfl) rest]
    · simp [hmark]

/-- A record of a form has the lemma, the stem and the preverb that it was built from, but for
flags. -/
structure SameStem (gkform form : GkWord) : Prop where
  stLemma : form.stLemma = gkform.stLemma
  stem : form.stem.gkstring = gkform.stem.gkstring
  stemtype : form.stemtype = gkform.stemtype
  preverb : form.preverb.gkstring = gkform.preverb.gkstring

/-- A record of a form has the parts that it was built from, but for flags. -/
structure SameParts (gkform form : GkWord) : Prop extends SameStem gkform form where
  endstring : form.endstring.gkstring = gkform.endstring.gkstring

/-- A row of an augment table changes the letters as its record says. -/
theorem doAug_spelling (hword : gkform.workword.length < maxWordSize) {table : List AugTable}
    (htable : ∀ row ∈ table, row ∈ tempAugments ++ syllAugments)
    (h : form ∈ (doAug syllabic table gkform maxaugs).forms) :
    SameParts gkform form ∧
      Augments form.aug1.gkstring (spelling gkform.workword) (spelling form.workword) ∧
      form.workword.length < maxWordSize := by
  unfold doAug at h
  split at h
  · cases h
  · obtain ⟨row, hrow, ⟨rest, hrest⟩, text, htext, rfl⟩ := augmentRows_form h
    rw [xstrncpy_of_lt hword] at hrest htext
    rw [← hrest] at htext
    have hspelled : spelling gkform.workword = spelling row.noaug ++ spelling rest := by
      rw [← spelling_append, hrest, striphyph, spelling_stripchar rfl]
    refine ⟨⟨⟨rfl, by cases syllabic <;> rfl, rfl, rfl⟩, rfl⟩, ?_, appendText_length htext⟩
    · rw [hspelled]
      have hword : (rowWord syllabic gkform row text).workword = text := rfl
      rw [hword, rowForm_spelling (shortRow_of_mem (htable row hrow)) htext]
      exact .row row _ (htable row hrow) (by cases syllabic <;> rfl)

theorem isLetter_of_isCons {c : Byte} (h : isCons c = true) : isLetter c = true ∧ comptab c = c := by
  revert h
  revert c
  refine @forall_byte _ ?_
  decide +kernel

/-- What stands in front of the epsilon: the stem, or its first letter doubled. -/
theorem beforeAugment_spelling {stem : GkString} {aug1 s : Bytes} {before : Bytes × Bytes}
    (hcons : isCons (s.headD 0) = true) (h : beforeAugment stem aug1 s = .ok before) :
    spelling before.1 = spelling s ∨
      before.2 ≠ [] ∧ ∃ c t, spelling s = c :: t ∧ spelling before.1 = c :: c :: t := by
  cases s with
  | nil => exact absurd hcons (by decide)
  | cons c s =>
    obtain ⟨hletter, htab⟩ := isLetter_of_isCons hcons
    have hhead : spelling [c] = [c] := by
      rw [List.headD_cons] at hletter htab
      simp [spelling, hletter, htab]
    unfold beforeAugment at h
    split at h
    · next hrho =>
      cases s with
      | nil => exact absurd hrho (by simp)
      | cons b s =>
        obtain ⟨rfl, rfl⟩ : c = 114 ∧ b = 40 := by simpa using hrho
        rw [Except.ok.injEq] at h
        subst h
        split
        · exact .inl (spelling_stripbreath _)
        · exact .inr ⟨(by decide : ascii "r(>e)rr" ≠ []), 114, spelling s, rfl, rfl⟩
    · split at h
      · rw [List.headD_cons] at h
        cases hdouble : cinsert c (c :: s) 0 with
        | error e =>
          rw [hdouble] at h
          cases h
        | ok doubled =>
          rw [hdouble] at h
          obtain rfl := Except.ok.inj h
          obtain ⟨rfl, -⟩ := cinsert_ok hdouble
          refine .inr ⟨by simp, c, spelling s, ?_, ?_⟩
          · rw [spelling_cons, hhead]
            rfl
          · rw [spelling_cons, spelling_cons c s, hhead]
            rfl
      · obtain rfl := Except.ok.inj h
        exact .inl rfl

/-- `augmentit` leaves the parts of the word, and changes its letters as it records. -/
theorem augmentit_spelling (hword : gkform.workword.length < maxWordSize) {augmented : Augmented}
    (hforms : augmentit gkform syllabic maxaugs = .ok augmented) (hform : form ∈ augmented.forms) :
    SameParts gkform form ∧
      Augments form.aug1.gkstring (spelling gkform.workword) (spelling form.workword) ∧
      form.workword.length < maxWordSize := by
  rcases augmentit_cases hforms with rfl | ⟨hcons, before, hbefore, hlength, rfl⟩ | rfl
  · cases hform
  · obtain rfl := List.mem_singleton.mp hform
    refine ⟨⟨⟨rfl, rfl, rfl, rfl⟩, rfl⟩, ?_, hlength⟩
    have hspelled : spelling (101 :: 41 :: before.1) = 101 :: spelling before.1 := by
      rw [spelling_cons, spelling_cons_mark (show isLetter 41 = false from rfl)]
      rfl
    dsimp only
    rw [hspelled]
    rcases beforeAugment_spelling hcons hbefore with hsame | ⟨haug1, c, t, hstem, hdoubled⟩
    · rw [hsame]
      apply Augments.syllabic
      split
      · decide
      · assumption
    · rw [hstem, hdoubled, if_neg haug1]
      exact .doubled c t haug1
  · refine doAug_spelling hword (fun row hrow => ?_) hform
    rw [List.mem_append]
    cases syllabic
    · exact .inl hrow
    · exact .inr hrow

/-- The record that `augmentit` begins for a text that does not fit differs in its dialect only. -/
theorem augmentit_stopped {augmented : Augmented}
    (h : augmentit gkform syllabic maxaugs = .ok augmented) :
    ∀ record ∈ augmented.stopped, ∃ dialect, record = { gkform with dialect } := by
  intro record hrecord
  rcases augmentit_cases h with rfl | ⟨-, before, -, -, rfl⟩ | rfl
  · cases hrecord
  · cases hrecord
  · unfold doAug at hrecord
    split at hrecord
    · cases hrecord
    · obtain ⟨row, -, -, -, hsame⟩ := augmentRows_failed.2 record hrecord
      exact ⟨_, hsame⟩

end Augmenting

/-- A form is built from a word and an ending, and spelled as they are when there is no preverb, but for
the augment that it records. -/
structure Spells (gkword : GkWord) (endstring : Bytes) (form : GkWord) : Prop where
  stLemma_eq : form.stLemma = gkword.stLemma
  stem_eq : form.stem.gkstring = gkword.stem.gkstring
  stemtype_eq : form.stemtype = gkword.stemtype
  endstring_eq : form.endstring.gkstring = endstring
  preverb_eq : form.preverb.gkstring = gkword.preverb.gkstring
  word : gkword.preverb.gkstring = [] →
    Augments form.aug1.gkstring (spelling gkword.stem.gkstring ++ spelling endstring)
      (spelling form.workword)
  fits : gkword.preverb.gkstring = [] → FitsAccented form.workword

theorem rstprevb_nil {language : ℤ} {entries : List RawPreverb} {depth : ℕ} {word : Bytes}
    {oddpb : MorphFlags} {r : PrefixedWord} (h : rstprevb language entries depth word [] oddpb = some r) :
    r.word = word := by
  cases depth with
  | zero => cases h
  | succ depth =>
    obtain rfl := Option.some.inj h
    rfl

namespace Spells
variable {builder : FormBuilder} {endstring preverb : Bytes} {gkword form done : GkWord} {failed : Bool}
  {others : List GkWord} {built : Built}

/-- What changes flags, and the word in front of which a preverb is put. -/
theorem congr (h : Spells gkword endstring form) (hparts : SameParts form done)
    (haug1 : done.aug1 = form.aug1)
    (hword : gkword.preverb.gkstring = [] → spelling done.workword = spelling form.workword)
    (hfits : gkword.preverb.gkstring = [] → FitsAccented form.workword → FitsAccented done.workword) :
    Spells gkword endstring done := by
  refine ⟨hparts.stLemma.trans h.stLemma_eq, hparts.stem.trans h.stem_eq,
    hparts.stemtype.trans h.stemtype_eq, hparts.endstring.trans h.endstring_eq,
    hparts.preverb.trans h.preverb_eq, ?_, fun hnone => hfits hnone (h.fits hnone)⟩
  intro hnone
  rw [haug1, hword hnone]
  exact h.word hnone

theorem sameWord (h : Spells gkword endstring form) (hparts : SameParts form done)
    (haug1 : done.aug1 = form.aug1)
    (hword : gkword.preverb.gkstring = [] → done.workword = form.workword) :
    Spells gkword endstring done :=
  h.congr hparts haug1 (fun hnone => congrArg spelling (hword hnone))
    fun hnone hfits => by rwa [hword hnone]

theorem accented (h : Spells gkword endstring form) (mflags : MorphFlags) :
    Spells gkword endstring (builder.accented mflags form) :=
  h.congr ⟨⟨rfl, rfl, rfl, rfl⟩, rfl⟩ rfl (fun _ => spelling_fixRecAcc ..) fun _ hfits => hfits.fixRecAcc form

theorem withoutStemsep (h : Spells gkword endstring form) :
    Spells gkword endstring (FormBuilder.withoutStemsep form) :=
  h.congr ⟨⟨rfl, rfl, rfl, rfl⟩, rfl⟩ rfl (fun _ => spelling_stripstemsep _) fun _ hfits => hfits.stripstemsep

theorem withStemFlags (h : Spells gkword endstring form) (flags : MorphFlags) :
    Spells gkword endstring (form.withStemFlags flags) :=
  h.sameWord ⟨⟨rfl, rfl, rfl, rfl⟩, rfl⟩ rfl fun _ => rfl

theorem withEndFlags (h : Spells gkword endstring form) (flags : MorphFlags) :
    Spells gkword endstring
      { form with endstring := { form.endstring with morphflags := flags } } :=
  h.sameWord ⟨⟨rfl, rfl, rfl, rfl⟩, rfl⟩ rfl fun _ => rfl

section Prefixed
variable (hpreverb : gkword.preverb.gkstring = [] → preverb = [])
include hpreverb

theorem attachPreverb (h : Spells gkword endstring form)
    (hdone : builder.attachPreverb preverb form = some (done, failed)) :
    Spells gkword endstring done := by
  obtain ⟨r, hr, hdone⟩ := Option.map_eq_some_iff.mp hdone
  obtain ⟨rfl, -⟩ := Prod.mk.inj hdone
  refine h.sameWord ⟨⟨rfl, rfl, rfl, rfl⟩, rfl⟩ rfl fun hnone => ?_
  rw [hpreverb hnone] at hr
  exact rstprevb_nil hr

theorem attachToStem (h : Spells gkword endstring form)
    (hdone : builder.attachToStem preverb form = some (done, failed)) :
    Spells gkword endstring done := by
  obtain ⟨r, hr, hdone⟩ := Option.map_eq_some_iff.mp hdone
  obtain ⟨rfl, -⟩ := Prod.mk.inj hdone
  refine h.sameWord ⟨⟨rfl, rfl, rfl, rfl⟩, rfl⟩ rfl fun hnone => ?_
  rw [hpreverb hnone] at hr
  exact rstprevb_nil hr

theorem attachSome (h : Spells gkword endstring form)
    (hdone : builder.attachSome preverb form = some (done, failed)) :
    Spells gkword endstring done := by
  unfold FormBuilder.attachSome at hdone
  split at hdone
  · obtain ⟨rfl, -⟩ := Prod.mk.inj (Option.some.inj hdone)
    exact h
  · exact attachPreverb hpreverb h hdone

theorem monoSyllVb (h : Spells gkword endstring form) {winfo : WordForm}
    (hdone : builder.monoSyllVb form winfo preverb = some (done, failed)) :
    Spells gkword endstring done := by
  unfold FormBuilder.monoSyllVb at hdone
  split at hdone
  · exact attachPreverb hpreverb (h.accented _) hdone
  · obtain ⟨⟨first, _⟩, hfirst, hdone⟩ := Option.map_eq_some_iff.mp hdone
    obtain ⟨rfl, -⟩ := Prod.mk.inj hdone
    exact ((attachPreverb hpreverb h hfirst).withEndFlags _).accented _

theorem conjugated (h : Spells gkword endstring form) {winfo : WordForm}
    (hdone : builder.conjugated preverb winfo form = some (done, failed)) :
    Spells gkword endstring done := by
  unfold FormBuilder.conjugated at hdone
  split at hdone
  · obtain ⟨rfl, -⟩ := Prod.mk.inj (Option.some.inj hdone)
    exact h
  split at hdone
  · obtain ⟨⟨first, _⟩, hfirst, hdone⟩ := Option.map_eq_some_iff.mp hdone
    obtain ⟨rfl, -⟩ := Prod.mk.inj hdone
    exact (monoSyllVb hpreverb h hfirst).withoutStemsep
  · obtain ⟨⟨first, _⟩, hfirst, hdone⟩ := Option.map_eq_some_iff.mp hdone
    obtain ⟨rfl, -⟩ := Prod.mk.inj hdone
    apply withStemFlags
    refine attachToStem hpreverb ?_ hfirst
    split
    · exact h.withStemFlags _
    · exact h

omit hpreverb in
theorem accentConjugated (h : Spells gkword endstring form) :
    Spells gkword endstring (builder.accentConjugated preverb form) := by
  unfold FormBuilder.accentConjugated
  split
  · split
    · exact ((h.withEndFlags _).accented _).withoutStemsep
    · exact (h.accented _).withoutStemsep
  · exact h.congr ⟨⟨rfl, rfl, rfl, rfl⟩, rfl⟩ rfl (fun _ => spelling_stripacc _) fun _ hfits => hfits.stripacc

theorem finishAugmented (h : Spells gkword endstring form) {isFirst : Bool}
    (hdone : builder.finishAugmented preverb isFirst form = some (done, failed)) :
    Spells gkword endstring done := by
  unfold FormBuilder.finishAugmented at hdone
  split at hdone
  · obtain ⟨⟨first, _⟩, hfirst, hdone⟩ := Option.map_eq_some_iff.mp hdone
    obtain ⟨rfl, -⟩ := Prod.mk.inj hdone
    exact ((attachPreverb hpreverb h hfirst).accented _).withoutStemsep
  · refine attachSome hpreverb ?_ hdone
    split
    · exact (h.accented _).withoutStemsep
    · exact h.accented _

theorem finishOthers (h : ∀ form ∈ others, Spells gkword endstring form) {forms : List GkWord × Bool}
    (hforms : builder.finishOthers preverb others = some forms) :
    ∀ form ∈ forms.1, Spells gkword endstring form := by
  induction others generalizing forms with
  | nil =>
    obtain rfl := Option.some.inj hforms
    simp
  | cons form others ih =>
    obtain ⟨first, hfirst, hforms⟩ := Option.bind_eq_some_iff.mp hforms
    obtain ⟨rest, hrest, rfl⟩ := Option.map_eq_some_iff.mp hforms
    rw [List.forall_mem_cons] at h ⊢
    exact ⟨finishAugmented hpreverb h.1 hfirst, ih h.2 hrest⟩

theorem finishForms (hfirst : Spells gkword endstring form)
    (hothers : ∀ form ∈ others, Spells gkword endstring form)
    (hbuilt : builder.finishForms preverb form others = some built) :
    ∀ form ∈ built.written, Spells gkword endstring form := by
  obtain ⟨first, hdone, hbuilt⟩ := Option.bind_eq_some_iff.mp hbuilt
  obtain ⟨rest, hrest, rfl⟩ := Option.map_eq_some_iff.mp hbuilt
  have hspells := finishAugmented hpreverb hfirst hdone
  rw [List.forall_mem_cons]
  refine ⟨?_, finishOthers hpreverb hothers hrest⟩
  split
  · exact hspells.withoutStemsep
  · exact hspells

end Prefixed

/-- The records of `add_augment`, from a word that is spelled as stem and ending. -/
theorem addAugment {language : ℤ} {mf : MorphFlags} {maxaugs : ℕ} {word : AugmentedWord}
    (h : Spells gkword endstring form)
    (hword : spelling form.workword = spelling gkword.stem.gkstring ++ spelling endstring)
    (hlen : form.workword.length < maxWordSize)
    (haugment : addAugment language form mf maxaugs = some word) :
    Spells gkword endstring word.first ∧ ∀ form ∈ word.others, Spells gkword endstring form := by
  have hone : ∀ {record : GkWord}, Spells gkword endstring record →
      Spells gkword endstring record ∧ ∀ form ∈ [], Spells gkword endstring form :=
    fun hrecord => ⟨hrecord, fun _ hmem => nomatch hmem⟩
  unfold Morpheus.addAugment at haugment
  dsimp only at haugment
  split at haugment
  · obtain rfl := Option.some.inj haugment
    exact hone h
  split at haugment
  · obtain rfl := Option.some.inj haugment
    exact hone (h.withStemFlags _)
  split at haugment
  · obtain rfl := Option.some.inj haugment
    exact hone h
  split at haugment
  · obtain rfl := Option.some.inj haugment
    exact hone (h.withStemFlags _)
  · split at haugment
    · cases haugment
    · next augmented haug =>
      obtain rfl := Option.some.inj haugment
      have hforms : ∀ record ∈ augmented.forms, Spells gkword endstring record := by
        intro record hrecord
        obtain ⟨hparts, haugments, hshort⟩ := augmentit_spelling hlen haug hrecord
        refine ⟨hparts.stLemma.trans h.stLemma_eq, hparts.stem.trans h.stem_eq,
          hparts.stemtype.trans h.stemtype_eq, hparts.endstring.trans h.endstring_eq,
          hparts.preverb.trans h.preverb_eq, fun _ => ?_,
          fun _ => .inl hshort⟩
        rwa [hword] at haugments
      have hstopped : Spells gkword endstring (augmented.stopped.getD form) := by
        cases hrecord : augmented.stopped with
        | none => exact h
        | some record =>
          obtain ⟨dialect, rfl⟩ := augmentit_stopped haug record hrecord
          exact h.sameWord ⟨⟨rfl, rfl, rfl, rfl⟩, rfl⟩ rfl fun _ => rfl
      constructor
      · apply withStemFlags
        cases hlist : augmented.forms with
        | nil => exact hstopped
        | cons first others => exact hforms first (hlist ▸ List.mem_cons_self)
      · exact fun record hrecord => hforms record (List.mem_of_mem_tail hrecord)

theorem augmented (hpreverb : gkword.preverb.gkstring = [] → preverb = [])
    (h : Spells gkword endstring form)
    (hword : spelling form.workword = spelling gkword.stem.gkstring ++ spelling endstring)
    (hlen : form.workword.length < maxWordSize)
    (hbuilt : builder.augmented preverb form = some built) :
    ∀ form ∈ built.written, Spells gkword endstring form := by
  obtain ⟨word, haugment, hbuilt⟩ := Option.bind_eq_some_iff.mp hbuilt
  obtain ⟨finished, hfinished, rfl⟩ := Option.map_eq_some_iff.mp hbuilt
  obtain ⟨hfirst, hothers⟩ := h.addAugment hword hlen haugment
  unfold FormBuilder.finishAugs at hfinished
  split at hfinished
  · have hspells := finishForms hpreverb hfirst hothers hfinished
    exact hspells
  split at hfinished
  · obtain ⟨⟨mono, _⟩, hmono, rfl⟩ := Option.map_eq_some_iff.mp hfinished
    exact List.forall_mem_singleton.mpr (monoSyllVb hpreverb hfirst hmono).withoutStemsep
  · obtain ⟨⟨attached, _⟩, hattached, rfl⟩ := Option.map_eq_some_iff.mp hfinished
    exact List.forall_mem_singleton.mpr
      ((attachSome hpreverb hfirst hattached).accented _).withoutStemsep

end Spells

/-- Stem and ending leave room for a separator or an accent, and what begins with `*` is the null
ending. -/
structure EndingFits (stem endstring : Bytes) : Prop where
  star : endstring.headD 0 = 42 → endstring = [42]
  fits : stem.length + endstring.length + 1 < maxWordSize

/-- The stem of a noun, an adjective or a verb. -/
def TakesEndings (stemtype : UInt32) : Prop :=
  stemtype &&& nounStem ≠ 0 ∨ stemtype &&& adjStem ≠ 0 ∨ stemtype &&& ppartMask ≠ 0

/-- The letters that a stem gives with an ending. The ending is left out where the stem type takes none,
and a proclitic one where it is not joined. -/
def StemLetters (stemtype : UInt32) (stem : Bytes) (ending : GkString) (letters : Bytes) : Prop :=
  letters = spelling stem ++ spelling ending.gkstring ∨
    (¬TakesEndings stemtype ∨ hasMorphflag ending.morphflags proclitic = true) ∧
      letters = spelling stem

/-- What is known of a form that `BuildAWord` made of a word and an ending. -/
structure BuiltForm (gkword : GkWord) (endstring : Bytes) (form : GkWord) : Prop
    extends SameStem gkword form where
  endstring_eq : form.endstring.gkstring = endstring
  spells : gkword.preverb.gkstring = [] → form.workword ≠ [] →
    ∃ letters, StemLetters gkword.stemtype gkword.stem.gkstring form.endstring letters ∧
      Augments form.aug1.gkstring letters (spelling form.workword) ∧ FitsAccented form.workword
  nominal : gkword.stemtype &&& ppartMask = 0 → form.workword ≠ [] →
    StemLetters gkword.stemtype gkword.stem.gkstring form.endstring (spelling form.workword) ∧
      form.workword.length < maxWordSize

section Building
variable {builder : FormBuilder} {gkword form : GkWord} {curEnding : GkString} {built : Built}
  {stem endstring : Bytes}

theorem joinStem_spelling (h : EndingFits stem endstring) :
    spelling (FormBuilder.joinStem stem endstring) = spelling stem ++ spelling endstring ∧
      (FormBuilder.joinStem stem endstring).length < maxWordSize := by
  have hfits := h.fits
  unfold FormBuilder.joinStem
  dsimp only
  rw [xstrncpy_of_lt (by omega)]
  split
  · have hsep : xstrncat stem [45] maxWordSize = stem ++ [45] := by
      rw [xstrncat, appendText_of_lt (by simp only [List.length_singleton]; omega), Option.getD_some]
    have hend : xstrncat (stem ++ [45]) endstring (maxWordSize + 1) = stem ++ [45] ++ endstring := by
      rw [xstrncat, appendText_of_lt (by simp only [List.length_append, List.length_singleton]; omega),
        Option.getD_some]
    rw [hsep, hend]
    refine ⟨?_, by simp only [List.length_append, List.length_singleton]; omega⟩
    rw [spelling_append, spelling_append, spelling_mark rfl, List.append_nil]
  · next hnone =>
    refine ⟨?_, by omega⟩
    by_cases hempty : endstring = []
    · rw [hempty, spelling_nil, List.append_nil]
    · have hstar : endstring.headD 0 = 42 := by
        by_contra hstar
        exact hnone ⟨hempty, hstar⟩
      rw [h.star hstar, spelling_mark rfl, List.append_nil]

/-- `BuildANoun` writes the word and the ending of a record. -/
theorem buildANoun_parts : ∃ word, (builder.buildANoun gkword curEnding form).1 =
    { form with endstring := curEnding, workword := word } := ⟨_, rfl⟩

/-- An enclitic stem loses its acute, but none of its letters. -/
theorem withoutAcute_spelling {text : Bytes} (htext : text.length < maxWordSize) (isEnclitic : Bool) :
    spelling (xstrncpy (if isEnclitic then stripacute text else text) maxWordSize) = spelling text ∧
      (xstrncpy (if isEnclitic then stripacute text else text) maxWordSize).length < maxWordSize ∧
        (xstrncpy (if isEnclitic then stripacute text else text) maxWordSize ≠ [] → text ≠ []) := by
  cases isEnclitic with
  | false =>
    rw [if_neg Bool.false_ne_true, xstrncpy_of_lt htext]
    exact ⟨rfl, htext, id⟩
  | true =>
    have hshort : (stripacute text).length < maxWordSize := (List.length_filter_le _ _).trans_lt htext
    rw [if_pos rfl, xstrncpy_of_lt hshort, spelling_stripacute]
    refine ⟨rfl, hshort, fun hsome hnone => hsome ?_⟩
    rw [hnone]
    rfl

/-- `BuildANoun` joins the ending to a stem that takes one, unless it is proclitic. -/
theorem buildANoun_letters (hends : EndingFits form.stem.gkstring curEnding.gkstring)
    (hmood : TakesEndings gkword.stemtype → gkword.stemtype &&& nounStem ≠ 0 ∨
      gkword.stemtype &&& adjStem ≠ 0 ∨ curEnding.forminfo.mood = participle ∨
        curEnding.forminfo.mood = infinitive)
    (hstem : form.stem.gkstring = gkword.stem.gkstring)
    (hword : (builder.buildANoun gkword curEnding form).1.workword ≠ []) :
    StemLetters gkword.stemtype gkword.stem.gkstring curEnding
        (spelling (builder.buildANoun gkword curEnding form).1.workword) ∧
      (builder.buildANoun gkword curEnding form).1.workword.length < maxWordSize := by
  have hfits := hends.fits
  have hspelled := @fixPersAcc_spelling curEnding.gkstring builder.language curEnding form.stem
    curEnding.morphflags curEnding.forminfo true hfits
  have hlen := @fixPersAcc_length curEnding.gkstring builder.language curEnding form.stem
    curEnding.morphflags curEnding.forminfo true
  revert hword
  unfold FormBuilder.buildANoun
  dsimp only
  by_cases htakes : gkword.stemtype &&& nounStem ≠ 0 ∨ gkword.stemtype &&& adjStem ≠ 0 ∨
      curEnding.forminfo.mood = participle ∨ curEnding.forminfo.mood = infinitive
  · rw [if_pos htakes]
    dsimp only
    rw [xstrncpy_of_lt hlen]
    obtain ⟨hletters, hshort, hsome⟩ :=
      withoutAcute_spelling hlen (hasMorphflag gkword.stem.morphflags enclitic)
    intro hword
    rw [hletters]
    refine ⟨?_, hshort⟩
    rw [← hstem]
    exact (hspelled (hsome hword)).imp_right fun hproclitic => ⟨.inr hproclitic.1, hproclitic.2⟩
  · have hstemLen : gkword.stem.gkstring.length < maxWordSize := by
      rw [← hstem]
      omega
    rw [if_neg htakes]
    dsimp only
    rw [xstrncpy_of_lt hstemLen]
    obtain ⟨hletters, hshort, -⟩ :=
      withoutAcute_spelling hstemLen (hasMorphflag gkword.stem.morphflags enclitic)
    intro _
    rw [hletters]
    exact ⟨.inr ⟨.inl fun hstems => htakes (hmood hstems), rfl⟩, hshort⟩

theorem buildANoun_built (hends : EndingFits gkword.stem.gkstring curEnding.gkstring)
    (hmood : TakesEndings gkword.stemtype → gkword.stemtype &&& nounStem ≠ 0 ∨
      gkword.stemtype &&& adjStem ≠ 0 ∨ curEnding.forminfo.mood = participle ∨
        curEnding.forminfo.mood = infinitive)
    (hform : SameStem gkword form) :
    BuiltForm gkword curEnding.gkstring (builder.buildANoun gkword curEnding form).1 := by
  have hletters := @buildANoun_letters builder gkword form curEnding (by rwa [hform.stem]) hmood hform.stem
  obtain ⟨word, hnoun⟩ := @buildANoun_parts builder gkword form curEnding
  rw [hnoun] at hletters ⊢
  refine ⟨⟨hform.stLemma, hform.stem, hform.stemtype, hform.preverb⟩, rfl, fun _ hword => ?_,
    fun _ => hletters⟩
  obtain ⟨hspelled, hlen⟩ := hletters hword
  exact ⟨_, hspelled, .unchanged _, .inl hlen⟩

/-- A preverb in front of a form of a verb. -/
theorem BuiltForm.attachSome {preverb : Bytes} {done : GkWord} {failed : Bool}
    (h : BuiltForm gkword endstring form) (hverb : gkword.stemtype &&& ppartMask ≠ 0)
    (hpreverb : gkword.preverb.gkstring = [] → preverb = [])
    (hdone : builder.attachSome preverb form = some (done, failed)) :
    BuiltForm gkword endstring done := by
  unfold FormBuilder.attachSome at hdone
  split at hdone
  · obtain ⟨rfl, -⟩ := Prod.mk.inj (Option.some.inj hdone)
    exact h
  · next hsome =>
    obtain ⟨r, -, hdone⟩ := Option.map_eq_some_iff.mp hdone
    obtain ⟨rfl, -⟩ := Prod.mk.inj hdone
    exact ⟨⟨h.stLemma, h.stem, h.stemtype, h.preverb⟩, h.endstring_eq,
      fun hnone => absurd (hpreverb hnone) hsome,
      fun hnoun => absurd hnoun hverb⟩

/-- A verb form; participles and infinitives are built as nouns are. -/
theorem buildAVerb_built (hends : EndingFits gkword.stem.gkstring curEnding.gkstring)
    (hverb : gkword.stemtype &&& ppartMask ≠ 0) (hforminfo : form.forminfo = curEnding.forminfo)
    (hform : SameStem gkword form) (hbuilt : builder.buildAVerb gkword curEnding form = some built) :
    ∀ form ∈ built.written, BuiltForm gkword curEnding.gkstring form := by
  unfold FormBuilder.buildAVerb at hbuilt
  dsimp only at hbuilt
  generalize hpreverb : (if hasMorphflag gkword.stem.morphflags hasPreverb = true then
    stripacc (xstrncpy gkword.preverb.gkstring maxWordSize) else []) = preverb at hbuilt
  have hnone : gkword.preverb.gkstring = [] → preverb = [] := by
    intro hnone
    rw [← hpreverb, hnone]
    split <;> rfl
  have hfinite : ∀ {done}, Spells gkword curEnding.gkstring done →
      BuiltForm gkword curEnding.gkstring done := fun hdone =>
    ⟨⟨hdone.stLemma_eq, hdone.stem_eq, hdone.stemtype_eq, hdone.preverb_eq⟩, hdone.endstring_eq,
      fun hnone _ => ⟨_, .inl (by rw [hdone.endstring_eq]), hdone.word hnone, hdone.fits hnone⟩,
      fun hnoun => absurd hnoun hverb⟩
  split at hbuilt
  · next hmood =>
    rw [hforminfo] at hmood
    obtain ⟨⟨done, _⟩, hdone, rfl⟩ := Option.map_eq_some_iff.mp hbuilt
    rw [List.forall_mem_singleton]
    refine BuiltForm.attachSome ?_ hverb hnone hdone
    exact buildANoun_built hends (fun _ => .inr (.inr hmood))
      ⟨hform.stLemma, hform.stem, hform.stemtype, hform.preverb⟩
  · obtain ⟨hjoined, hlen⟩ := joinStem_spelling hends
    rw [xstrncpy_of_lt hlen] at hbuilt
    generalize hjoin : FormBuilder.joinStem gkword.stem.gkstring curEnding.gkstring = joined at *
    have hspells : Spells gkword curEnding.gkstring
        { form with endstring := curEnding, workword := joined } := by
      refine ⟨hform.stLemma, hform.stem, hform.stemtype, rfl, hform.preverb, fun _ => ?_,
        fun _ => .inl hlen⟩
      rw [hjoined]
      exact .unchanged _
    split at hbuilt
    · obtain rfl := Option.some.inj hbuilt
      exact List.forall_mem_singleton.mpr (hfinite hspells)
    split at hbuilt
    · obtain ⟨⟨done, _⟩, hdone, rfl⟩ := Option.map_eq_some_iff.mp hbuilt
      rw [List.forall_mem_singleton]
      apply hfinite
      refine (Spells.accentConjugated (Spells.conjugated hnone ?_ hdone)).withoutStemsep
      exact hspells.sameWord ⟨⟨rfl, rfl, rfl, rfl⟩, rfl⟩ rfl fun _ => rfl
    · intro done hdone
      exact hfinite (hspells.augmented hnone hjoined hlen hbuilt done hdone)

/-- Every form that `BuildAWord` makes of a word and an ending. -/
theorem buildAWord_built (hends : EndingFits gkword.stem.gkstring curEnding.gkstring)
    (hforminfo : gkword.forminfo = curEnding.forminfo)
    (hbuilt : builder.buildAWord gkword curEnding = some built) :
    ∀ form ∈ built.written.take built.formvars, BuiltForm gkword curEnding.gkstring form := by
  intro form hform
  unfold FormBuilder.buildAWord at hbuilt
  dsimp only at hbuilt
  generalize hrecord : GkWord.withStemFlags { gkword with endstring := curEnding }
    (addMorphflags gkword.stem.morphflags gkword.morphflags) = record at hbuilt
  have hsame : SameStem gkword record := by
    rw [← hrecord]
    exact ⟨rfl, rfl, rfl, rfl⟩
  have hinfo : record.forminfo = curEnding.forminfo := by
    rw [← hforminfo, ← hrecord]
    rfl
  split at hbuilt
  · obtain rfl := Option.some.inj hbuilt
    cases hform
  split at hbuilt
  · next hverb => exact buildAVerb_built hends hverb hinfo hsame hbuilt form (List.mem_of_mem_take hform)
  · next hverb =>
    obtain rfl := Option.some.inj hbuilt
    rw [List.take_succ_cons, List.take_zero, List.mem_singleton] at hform
    rw [hform]
    refine buildANoun_built hends (fun htakes => ?_) hsame
    unfold TakesEndings at htakes
    tauto

theorem BuiltForm.of_wordWith {ending : GkString}
    (h : BuiltForm (FormBuilder.wordWith gkword ending).1 endstring form) :
    BuiltForm gkword endstring form := by
  exact ⟨⟨h.stLemma, h.stem, h.stemtype, h.preverb⟩, h.endstring_eq, h.spells, h.nominal⟩

/-- Every form of `AddWdEndings` is built from the stem and one of the endings. -/
theorem addWdEndings_built {endings : List GkString} {curBuf forms : List GkWord} {maxforms : ℕ}
    {failed : Bool} (hends : ∀ ending ∈ endings, EndingFits gkword.stem.gkstring ending.gkstring)
    (h : builder.addWdEndings gkword endings curBuf maxforms = some (some forms, failed)) :
    ∀ form ∈ forms, ∃ ending ∈ endings, BuiltForm gkword ending.gkstring form := by
  obtain ⟨parts, hparts, rfl, -, -⟩ := (builder.addWdEndings_forms ..).mp h
  intro form hform
  obtain ⟨part, hpart, hmem⟩ := List.mem_flatMap.mp hform
  obtain ⟨ending, hending, hforms⟩ := FormBuilder.exists_of_mem_mapM hparts hpart
  have hmem' : ending ∈ endings := List.takeWhile_subset _ (List.mem_filter.mp hending).1
  obtain ⟨built, hbuilt, rfl⟩ := Option.map_eq_some_iff.mp hforms
  have hbuiltForm := @buildAWord_built builder (FormBuilder.wordWith gkword ending).1
    (FormBuilder.wordWith gkword ending).2 built (hends ending hmem') rfl hbuilt form hmem
  exact ⟨ending, hmem', hbuiltForm.of_wordWith⟩

end Building

end Morpheus
