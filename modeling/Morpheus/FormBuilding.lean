import Morpheus.Crasis
import Morpheus.EndRewriting
import Morpheus.EndingAccents
import Morpheus.Letters
import Morpheus.PreverbAttachment

/-!
# Building forms

`AddWdEndings` joins a stem with each of its endings: `BuildANoun` accents stem and ending,
`BuildAVerb` puts augment and preverb in front as well. All endings are built in the same records, and
the word is given back after each of them.
-/
namespace Morpheus

/-- `IMPERATIVE` -/
def imperative : BitVec 4 := 4

/-- `INFINITIVE` -/
def infinitive : BitVec 4 := 5

/-- `IMPERF` -/
def imperf : BitVec 4 := 0o12

/-- `AORIST` -/
def aorist : BitVec 4 := 0o14

/-- `PERFECT` -/
def perfect : BitVec 4 := 0o5

/-- `PLUPERF` -/
def pluperf : BitVec 4 := 0o6

/-- `FUTPERF` -/
def futperf : BitVec 4 := 0o17

/-- `MIDDLE` -/
def middle : BitVec 3 := 2

/-- `ATTIC_REDUPL` -/
def atticRedupl : ℕ := 47

/-- `MAX_FORM_VARIANTS` -/
def maxFormVariants : ℕ := 12

/-- `needs_augment2` -/
def needsAugment2 (gkform : GkWord) (stem : Bytes) : Bool :=
  if hasMorphflag gkform.stem.morphflags hasAugment then false
  else if gkform.forminfo.mood ≠ indicative then false
  else if gkform.forminfo.tense = imperf ∨ gkform.forminfo.tense = aorist then true
  else if gkform.forminfo.tense = pluperf then
    hasMorphflag gkform.stem.morphflags atticRedupl || !(stem.headD 0 == 101 || stem.headD 0 == 104)
  else false

/-- `needs_augment` -/
def needsAugment (gstr : GkString) : Bool :=
  needsAugment2 { GkWord.zero with stem := gstr, forminfo := gstr.forminfo } []

/-- A word with other flags of its stem. -/
def GkWord.withStemFlags (gkform : GkWord) (flags : MorphFlags) : GkWord :=
  { gkform with stem := { gkform.stem with morphflags := flags } }

/-- What `add_augment` leaves in the records, of which there is at least one, its value, and whether an
error was recorded. -/
structure AugmentedWord where
  first : GkWord
  others : List GkWord
  augs : ℕ
  failed : Bool

/-- `add_augment` in the first record -/
def addAugment (language : ℤ) (gkform : GkWord) (mf : MorphFlags) (maxaugs : ℕ) :
    Option AugmentedWord :=
  let flags := gkform.stem.morphflags
  if maxaugs = 0 then some ⟨gkform, [], 0, true⟩
  else if hasMorphflag mf unaugmented || hasMorphflag gkform.endstring.morphflags unaugmented then
    some ⟨gkform.withStemFlags (addMorphflag flags unaugmented), [], 0, false⟩
  else if language = latin ∨ language = italian then some ⟨gkform, [], 0, false⟩
  else if !needsAugment2 gkform gkform.workword then
    some ⟨gkform.withStemFlags (zapMorphflag flags syllAugment), [],
      if hasMorphflag flags hasAugment then 1 else 0, false⟩
  else
    match augmentit gkform (hasMorphflag flags syllAugment) maxaugs with
    | .error _ => none
    | .ok augmented =>
      -- without a form the first record is the one that was begun
      let first := augmented.forms.headD (augmented.stopped.getD gkform)
      some ⟨first.withStemFlags (addMorphflag first.stem.morphflags hasAugment),
        augmented.forms.tail, augmented.forms.length, augmented.failed⟩

/-- The language and the table of raw preverbs, with a bound on the depth of `rstprevb`. -/
structure FormBuilder where
  language : ℤ
  preverbs : List RawPreverb
  depth : ℕ

/-- What `BuildAWord` leaves: the records that it wrote, from the first one on, the number of its
forms, and whether an error was recorded. -/
structure Built where
  written : List GkWord
  formvars : ℕ
  failed : Bool

namespace FormBuilder
variable (builder : FormBuilder)

/-- `FixRecAcc` on the word of a form. -/
def accented (mflags : MorphFlags) (form : GkWord) : GkWord :=
  { form with workword := fixRecAcc builder.language form mflags form.workword }

/-- `rstprevb` on the word of a form, with the flags of its preverb part. -/
def attachPreverb (preverb : Bytes) (form : GkWord) : Option (GkWord × Bool) :=
  (rstprevb builder.language builder.preverbs builder.depth form.workword preverb
    form.preverb.morphflags).map fun r =>
      ({ form with workword := r.word, preverb := { form.preverb with morphflags := r.morphflags } },
        r.failed)

/-- `rstprevb` on the word of a form, with the flags of its stem part. -/
def attachToStem (preverb : Bytes) (form : GkWord) : Option (GkWord × Bool) :=
  (rstprevb builder.language builder.preverbs builder.depth form.workword preverb
    form.stem.morphflags).map fun r =>
      (GkWord.withStemFlags { form with workword := r.word } r.morphflags, r.failed)

/-- A preverb in front of a form, if there is one. -/
def attachSome (preverb : Bytes) (form : GkWord) : Option (GkWord × Bool) :=
  if preverb = [] then some (form, false) else builder.attachPreverb preverb form

/-- `stripstemsep` on the word of a form. -/
def withoutStemsep (form : GkWord) : GkWord := { form with workword := stripstemsep form.workword }

/-- `MonoSyllVb` -/
def monoSyllVb (form : GkWord) (winfo : WordForm) (preverb : Bytes) : Option (GkWord × Bool) :=
  if winfo.mood = imperative ∧ winfo.tense = aorist ∧ winfo.voice &&& middle ≠ 0 ∧
      (nsylls preverb = 1 ∨ isVowel (form.workword.headD 0)) then
    builder.attachPreverb preverb (builder.accented form.endstring.morphflags form)
  else
    (builder.attachPreverb preverb form).map fun (form, failed) =>
      let form := { form with
        endstring :=
          { form.endstring with morphflags := addMorphflag form.endstring.morphflags stemAcc } }
      (builder.accented form.endstring.morphflags form, failed)

/-- `BuildANoun`, with the first record as it is, and whether an error was recorded. -/
def buildANoun (gkword : GkWord) (curEnding : GkString) (form : GkWord) : GkWord × Bool :=
  let form := { form with endstring := curEnding }
  let joined :=
    if gkword.stemtype &&& nounStem ≠ 0 ∨ gkword.stemtype &&& adjStem ≠ 0 ∨
        curEnding.forminfo.mood = participle ∨ curEnding.forminfo.mood = infinitive then
      let tmp := fixPersAcc builder.language curEnding curEnding.morphflags form.stem
        curEnding.gkstring curEnding.forminfo true
      (xstrncpy tmp.1 maxWordSize, tmp.2)
    else (xstrncpy gkword.stem.gkstring maxWordSize, false)
  let text :=
    if hasMorphflag gkword.stem.morphflags enclitic then stripacute joined.1 else joined.1
  ({ form with workword := xstrncpy text maxWordSize }, joined.2)

/-- A form without an ending, which is conjugated already: the preverb is put before it, and the
flags of its ending have gone to its stem. -/
def conjugated (preverb : Bytes) (winfo : WordForm) (form : GkWord) : Option (GkWord × Bool) :=
  if preverb = [] then some (form, false)
  else if nsylls form.workword = 1 then
    (builder.monoSyllVb form winfo preverb).map fun (form, failed) => (withoutStemsep form, failed)
  else
    let form :=
      if hasMorphflag form.preverb.morphflags prevbAugment then
        form.withStemFlags (addMorphflag form.stem.morphflags prevbAugment)
      else form
    (builder.attachToStem preverb form).map fun (form, failed) =>
      (form.withStemFlags (zapMorphflag form.stem.morphflags prevbAugment), failed)

/-- The accent of a conjugated form; an enclitic one has none unless it has a preverb. -/
def accentConjugated (preverb : Bytes) (form : GkWord) : GkWord :=
  if !hasMorphflag form.stem.morphflags enclitic || preverb ≠ [] then
    let form :=
      if hasMorphflag form.stem.morphflags noCircumflex then
        { form with
          endstring :=
            { form.endstring with
              morphflags := addMorphflag form.endstring.morphflags noCircumflex } }
      else form
    withoutStemsep (builder.accented form.stem.morphflags form)
  else { form with workword := stripacc form.workword }

/-- One record of the augmented forms: the accent is put on the word before the preverb, unless the
preverb has the augment. -/
def finishAugmented (preverb : Bytes) (isFirst : Bool) (form : GkWord) : Option (GkWord × Bool) :=
  if hasMorphflag form.preverb.morphflags prevbAugment then
    (builder.attachPreverb preverb form).map fun (form, failed) =>
      (withoutStemsep (builder.accented form.endstring.morphflags form), failed)
  else
    let form := builder.accented form.endstring.morphflags form
    builder.attachSome preverb (if isFirst then withoutStemsep form else form)

/-- The records behind the first one, one after the other. -/
def finishOthers (preverb : Bytes) : List GkWord → Option (List GkWord × Bool)
  | [] => some ([], false)
  | form :: forms =>
    (builder.finishAugmented preverb false form).bind fun (form, failed) =>
      (finishOthers preverb forms).map fun (forms, others) => (form :: forms, failed || others)

/-- The loop over the augmented forms. It takes the separators of the first record away for every
record. -/
def finishForms (preverb : Bytes) (first : GkWord) (others : List GkWord) : Option Built :=
  (builder.finishAugmented preverb true first).bind fun (done, failed) =>
    (builder.finishOthers preverb others).map fun (forms, otherFailed) =>
      let again := others.any fun form => !hasMorphflag form.preverb.morphflags prevbAugment
      ⟨(if again then withoutStemsep done else done) :: forms, others.length + 1,
        failed || otherFailed⟩

/-- `BuildAVerb` behind `add_augment`, whose value is `augs`. -/
def finishAugs (preverb : Bytes) (augs : ℕ) (form : GkWord) (others : List GkWord) : Option Built :=
  if augs ≠ 0 ∨ isVowel (form.workword.headD 0) ∧ (form.forminfo.tense = pluperf ∨
      form.forminfo.tense = futperf ∨ form.forminfo.tense = perfect) then
    builder.finishForms preverb form others
  else if nsylls form.workword = 1 ∧ preverb ≠ [] then
    (builder.monoSyllVb form form.forminfo preverb).map fun (form, failed) =>
      ⟨[withoutStemsep form], 1, failed⟩
  else
    (builder.attachSome preverb form).map fun (form, failed) =>
      ⟨[withoutStemsep (builder.accented form.stem.morphflags form)], 1, failed⟩

/-- `BuildAVerb` from the joined stem and ending on, for a form that is not conjugated already. -/
def augmented (preverb : Bytes) (form : GkWord) : Option Built :=
  (addAugment builder.language form form.stem.morphflags maxFormVariants).bind fun word =>
    (builder.finishAugs preverb word.augs word.first word.others).map fun built =>
      { built with failed := word.failed || built.failed }

/-- The stem with an ending behind a separator. -/
def joinStem (stem endstring : Bytes) : Bytes :=
  let tmpstem := xstrncpy stem maxWordSize
  if endstring ≠ [] ∧ endstring.headD 0 ≠ 42 then
    xstrncat (xstrncat tmpstem [45] maxWordSize) endstring (maxWordSize + 1)
  else tmpstem

/-- `BuildAVerb`, with the first record as it is. -/
def buildAVerb (gkword : GkWord) (curEnding : GkString) (form : GkWord) : Option Built :=
  let form := { form with endstring := curEnding }
  let preverb :=
    if hasMorphflag gkword.stem.morphflags hasPreverb then
      stripacc (xstrncpy gkword.preverb.gkstring maxWordSize)
    else []
  if form.forminfo.mood = participle ∨ form.forminfo.mood = infinitive then
    let noun := builder.buildANoun gkword curEnding
      (form.withStemFlags (zapMorphflag form.stem.morphflags syllAugment))
    (builder.attachSome preverb noun.1).map fun (form, failed) => ⟨[form], 1, noun.2 || failed⟩
  else
    let form := { form with
      workword := xstrncpy (joinStem gkword.stem.gkstring curEnding.gkstring) maxWordSize }
    if curEnding.gkstring ≠ [] ∧ hasMorphflag form.stem.morphflags enclitic then
      some ⟨[form], 1, false⟩
    else if curEnding.gkstring = [] then
      let form := { form.withStemFlags (addMorphflags form.stem.morphflags curEnding.morphflags) with
        endstring := { form.endstring with morphflags := noFlags }
        morphflags := noFlags }
      (builder.conjugated preverb curEnding.forminfo form).map fun (form, failed) =>
        ⟨[withoutStemsep (builder.accentConjugated preverb form)], 1, failed⟩
    else builder.augmented preverb form

/-- `BuildAWord` -/
def buildAWord (gkword : GkWord) (curEnding : GkString) : Option Built :=
  let form := GkWord.withStemFlags { gkword with endstring := curEnding }
    (addMorphflags gkword.stem.morphflags gkword.morphflags)
  if negativeDialect (andDialect curEnding.dialect gkword.dialect) then some ⟨[form], 0, false⟩
  else if gkword.stemtype &&& ppartMask ≠ 0 then builder.buildAVerb gkword curEnding form
  else
    let noun := builder.buildANoun gkword curEnding form
    some ⟨[noun.1], 1, noun.2⟩

/-- An ending is passed over: it takes no augment where the preverb, the stem, the word or the ending
itself goes with one, or it has another mood than the stem. -/
def passesOver (gkword : GkWord) (ending : GkString) : Bool :=
  hasMorphflag gkword.preverb.morphflags prevbAugment && !needsAugment ending ||
    (hasMorphflag gkword.stem.morphflags unaugmented || hasMorphflag gkword.morphflags unaugmented ||
      hasMorphflag ending.morphflags unaugmented) && !needsAugment ending ||
    gkword.stem.forminfo.mood ≠ 0 && gkword.stem.forminfo.mood != ending.forminfo.mood

/-- The word and the ending as `BuildAWord` gets them. -/
def wordWith (gkword : GkWord) (ending : GkString) : GkWord × GkString :=
  ({ gkword with
      endstring := { gkword.endstring with gkstring := xstrncpy ending.gkstring maxWordSize }
      forminfo := ending.forminfo },
    { ending with stemtype := gkword.stemtype })

/-- The loop of `AddWdEndings`, with the records that the forms are built in: the forms so far, or
nothing when there are too many of them, and whether an error was recorded. -/
def addWdEndingsLoop (gkword : GkWord) (maxforms : ℕ) : List GkString → (curBuf forms : List GkWord) →
    Bool → Option (Option (List GkWord) × Bool)
  | [], _, forms, failed => some (some forms, failed)
  | ending :: endings, curBuf, forms, failed =>
    if ending.gkstring = [] then some (some forms, failed)
    else if passesOver gkword ending then addWdEndingsLoop gkword maxforms endings curBuf forms failed
    else
      let (word, curEnd) := wordWith gkword ending
      (builder.buildAWord word curEnd).bind fun built =>
        let curBuf := built.written ++ curBuf.drop built.written.length
        if built.formvars ≠ 0 ∧ built.formvars + forms.length + 1 > maxforms then some (none, true)
        else
          addWdEndingsLoop gkword maxforms endings curBuf (forms ++ curBuf.take built.formvars)
            (failed || built.failed)

/-- `AddWdEndings`, with the contents of its records. -/
def addWdEndings (gkword : GkWord) (endings : List GkString) (curBuf : List GkWord) (maxforms : ℕ) :
    Option (Option (List GkWord) × Bool) :=
  builder.addWdEndingsLoop gkword maxforms endings curBuf [] false

theorem exists_of_mem_mapM {α β : Type} {f : α → Option β} {source : List α} {parts : List β}
    (h : source.mapM f = some parts) {part : β} (hpart : part ∈ parts) :
    ∃ a ∈ source, f a = some part := by
  induction source generalizing parts with
  | nil =>
    obtain rfl : [] = parts := Option.some.inj h
    cases hpart
  | cons a source ih =>
    rw [List.mapM_cons] at h
    obtain ⟨first, hfirst, h⟩ := Option.bind_eq_some_iff.mp h
    obtain ⟨rest, hrest, h⟩ := Option.bind_eq_some_iff.mp h
    obtain rfl := Option.some.inj h
    rcases List.mem_cons.mp hpart with rfl | hpart
    · exact ⟨a, List.mem_cons_self, hfirst⟩
    · obtain ⟨b, hb, hfound⟩ := ih hrest hpart
      exact ⟨b, List.mem_cons_of_mem _ hb, hfound⟩

section Endings
variable {gkword : GkWord} {curEnding ending : GkString} {form : GkWord} {preverb : Bytes} {built : Built}

/-- The endings that a stem is joined with: up to the first empty one, those not passed over. -/
def takenEndings (gkword : GkWord) (endings : List GkString) : List GkString :=
  (endings.takeWhile fun ending => ending.gkstring ≠ []).filter fun ending => !passesOver gkword ending

/-- The forms that an ending gives by itself, and whether an error was recorded. -/
def formsOf (gkword : GkWord) (ending : GkString) : Option (List GkWord × Bool) :=
  (builder.buildAWord (wordWith gkword ending).1 (wordWith gkword ending).2).map fun built =>
    (built.written.take built.formvars, built.failed)

theorem finishOthers_length {others : List GkWord} {done : List GkWord × Bool}
    (h : builder.finishOthers preverb others = some done) : done.1.length = others.length := by
  induction others generalizing done with
  | nil =>
    obtain rfl := Option.some.inj h
    rfl
  | cons form forms ih =>
    obtain ⟨first, -, h⟩ := Option.bind_eq_some_iff.mp h
    obtain ⟨rest, hrest, rfl⟩ := Option.map_eq_some_iff.mp h
    exact congrArg (· + 1) (ih hrest)

theorem finishForms_written {first : GkWord} {others : List GkWord}
    (h : builder.finishForms preverb first others = some built) :
    built.written.length = built.formvars := by
  obtain ⟨done, -, h⟩ := Option.bind_eq_some_iff.mp h
  obtain ⟨rest, hrest, rfl⟩ := Option.map_eq_some_iff.mp h
  exact congrArg (· + 1) (builder.finishOthers_length hrest)

theorem finishAugs_written {augs : ℕ} {others : List GkWord}
    (h : builder.finishAugs preverb augs form others = some built) :
    built.written.length = built.formvars := by
  unfold finishAugs at h
  split_ifs at h
  · exact builder.finishForms_written h
  · obtain ⟨done, -, rfl⟩ := Option.map_eq_some_iff.mp h
    rfl
  · obtain ⟨done, -, rfl⟩ := Option.map_eq_some_iff.mp h
    rfl

theorem augmented_written (h : builder.augmented preverb form = some built) :
    built.written.length = built.formvars := by
  obtain ⟨word, -, h⟩ := Option.bind_eq_some_iff.mp h
  obtain ⟨finished, hfinished, rfl⟩ := Option.map_eq_some_iff.mp h
  have hlength := builder.finishAugs_written hfinished
  exact hlength

theorem buildAVerb_written (h : builder.buildAVerb gkword curEnding form = some built) :
    built.written.length = built.formvars := by
  unfold buildAVerb at h
  dsimp only at h
  split_ifs at h
  all_goals
    first
    | exact builder.augmented_written h
    | obtain ⟨done, -, rfl⟩ := Option.map_eq_some_iff.mp h
      rfl
    | obtain rfl := Option.some.inj h
      rfl

/-- Every form was written: what the records held before is never taken for one. -/
theorem buildAWord_written (h : builder.buildAWord gkword curEnding = some built) :
    built.formvars ≤ built.written.length := by
  unfold buildAWord at h
  dsimp only at h
  split_ifs at h
  · obtain rfl := Option.some.inj h
    exact Nat.zero_le 1
  · exact (builder.buildAVerb_written h).ge
  · obtain rfl := Option.some.inj h
    exact le_rfl

theorem takenEndings_cons (endings : List GkString) : takenEndings gkword (ending :: endings) =
    if ending.gkstring = [] then []
    else if passesOver gkword ending then takenEndings gkword endings
    else ending :: takenEndings gkword endings := by
  unfold takenEndings
  by_cases hempty : ending.gkstring = []
  · simp [hempty]
  · by_cases hpasses : passesOver gkword ending = true <;> simp [hempty, hpasses]

theorem taken_written {written : List GkWord} {n : ℕ} (h : n ≤ written.length) (curBuf : List GkWord) :
    (written ++ curBuf).take n = written.take n := by
  rw [List.take_append, Nat.sub_eq_zero_of_le h, List.take_zero, List.append_nil]

/-- The loop with the forms that it has so far adds those that each ending gives by itself. -/
theorem addWdEndingsLoop_eq {endings : List GkString} {curBuf forms : List GkWord} {failed : Bool}
    {maxforms : ℕ} {parts : List (List GkWord × Bool)}
    (hparts : (takenEndings gkword endings).mapM (builder.formsOf gkword) = some parts)
    (hforms : forms = [] ∨ forms.length < maxforms) :
    builder.addWdEndingsLoop gkword maxforms endings curBuf forms failed =
      if forms ++ parts.flatMap Prod.fst = [] ∨ (forms ++ parts.flatMap Prod.fst).length < maxforms then
        some (some (forms ++ parts.flatMap Prod.fst), failed || parts.any Prod.snd)
      else some (none, true) := by
  induction endings generalizing curBuf forms failed parts with
  | nil =>
    obtain rfl : [] = parts := Option.some.inj hparts
    rw [List.flatMap_nil, List.append_nil, if_pos hforms, List.any_nil, Bool.or_false]
    rfl
  | cons ending endings ih =>
    rw [takenEndings_cons] at hparts
    unfold addWdEndingsLoop
    by_cases hempty : ending.gkstring = []
    · rw [if_pos hempty] at hparts
      obtain rfl : [] = parts := Option.some.inj hparts
      rw [List.flatMap_nil, List.append_nil, if_pos hforms, if_pos hempty, List.any_nil, Bool.or_false]
    · rw [if_neg hempty] at hparts ⊢
      by_cases hpasses : passesOver gkword ending = true
      · rw [if_pos hpasses] at hparts ⊢
        exact ih hparts hforms
      · rw [if_neg hpasses] at hparts ⊢
        rw [List.mapM_cons] at hparts
        obtain ⟨part, hpart, hparts⟩ := Option.bind_eq_some_iff.mp hparts
        obtain ⟨rest, hrest, hparts⟩ := Option.bind_eq_some_iff.mp hparts
        obtain rfl := Option.some.inj hparts
        obtain ⟨built, hbuilt, rfl⟩ := Option.map_eq_some_iff.mp hpart
        have hwritten := builder.buildAWord_written hbuilt
        have hlength : (built.written.take built.formvars).length = built.formvars := by
          rw [List.length_take, Nat.min_eq_left hwritten]
        simp only [hbuilt, Option.bind_some, taken_written hwritten, List.flatMap_cons, List.any_cons]
        by_cases hmany : built.formvars ≠ 0 ∧ built.formvars + forms.length + 1 > maxforms
        · rw [if_pos hmany, if_neg]
          rintro (hnil | hfits)
          · simp only [List.append_eq_nil_iff] at hnil
            have := congrArg List.length hnil.2.1
            simp only [hlength, List.length_nil] at this
            exact hmany.1 this
          · simp only [List.length_append, hlength] at hfits
            omega
        · rw [if_neg hmany, ih hrest, List.append_assoc, Bool.or_assoc]
          rw [List.append_eq_nil_iff, List.length_append, hlength]
          by_cases hnone : built.formvars = 0
          · rw [hnone, List.take_zero, Nat.add_zero]
            exact hforms.imp (⟨·, rfl⟩) id
          · right
            omega

/-- When the loop comes to its end, each ending has given its forms. -/
theorem addWdEndingsLoop_some {endings : List GkString} {curBuf forms out : List GkWord}
    {failed failedOut : Bool} {maxforms : ℕ}
    (h : builder.addWdEndingsLoop gkword maxforms endings curBuf forms failed =
      some (some out, failedOut)) :
    ∃ parts, (takenEndings gkword endings).mapM (builder.formsOf gkword) = some parts := by
  induction endings generalizing curBuf forms failed with
  | nil => exact ⟨[], rfl⟩
  | cons ending endings ih =>
    rw [takenEndings_cons]
    unfold addWdEndingsLoop at h
    by_cases hempty : ending.gkstring = []
    · rw [if_pos hempty]
      exact ⟨[], rfl⟩
    · rw [if_neg hempty] at h ⊢
      by_cases hpasses : passesOver gkword ending = true
      · rw [if_pos hpasses] at h ⊢
        exact ih h
      · rw [if_neg hpasses] at h ⊢
        obtain ⟨built, hbuilt, h⟩ := Option.bind_eq_some_iff.mp h
        dsimp only at h
        split at h
        · cases h
        · obtain ⟨parts, hparts⟩ := ih h
          have hpart : builder.formsOf gkword ending =
              some (built.written.take built.formvars, built.failed) :=
            congrArg (Option.map _) hbuilt
          exact ⟨_ :: parts, by rw [List.mapM_cons, hpart, hparts]; rfl⟩

/-- `AddWdEndings` gives the forms that each ending gives by itself, one after the other, whatever the
records that they are built in held before, when there is room for them all. -/
theorem addWdEndings_forms (gkword : GkWord) (endings : List GkString) (curBuf forms : List GkWord)
    (maxforms : ℕ) (failed : Bool) :
    builder.addWdEndings gkword endings curBuf maxforms = some (some forms, failed) ↔
      ∃ parts, (takenEndings gkword endings).mapM (builder.formsOf gkword) = some parts ∧
        forms = parts.flatMap Prod.fst ∧ failed = parts.any Prod.snd ∧
          (forms = [] ∨ forms.length < maxforms) := by
  have heq : ∀ {parts}, (takenEndings gkword endings).mapM (builder.formsOf gkword) = some parts →
      builder.addWdEndings gkword endings curBuf maxforms =
        if parts.flatMap Prod.fst = [] ∨ (parts.flatMap Prod.fst).length < maxforms then
          some (some (parts.flatMap Prod.fst), parts.any Prod.snd)
        else some (none, true) :=
    fun hparts => builder.addWdEndingsLoop_eq hparts (.inl rfl)
  constructor
  · intro h
    obtain ⟨parts, hparts⟩ := builder.addWdEndingsLoop_some h
    rw [heq hparts] at h
    split at h
    · next hroom =>
      obtain ⟨hforms, hfailed⟩ := Prod.mk.inj (Option.some.inj h)
      obtain rfl := Option.some.inj hforms
      exact ⟨parts, hparts, rfl, hfailed.symm, hroom⟩
    · cases h
  · rintro ⟨parts, hparts, rfl, rfl, hroom⟩
    rw [heq hparts, if_pos hroom]

theorem takenEndings_append {front : List GkString} (hfront : ∀ ending ∈ front, ending.gkstring ≠ [])
    (endings : List GkString) : takenEndings gkword (front ++ endings) =
      takenEndings gkword front ++ takenEndings gkword endings := by
  have hall : ∀ ending ∈ front, decide (ending.gkstring ≠ []) = true := fun ending h =>
    decide_eq_true (hfront ending h)
  rw [takenEndings, List.takeWhile_append_of_pos hall, List.filter_append, takenEndings,
    List.takeWhile_eq_self_iff.mpr hall]
  rfl

/-- Endings in front of others give the forms that they give without them, in front of the forms of
the others. What the buffers held before is seen in neither part. -/
theorem addWdEndings_append (gkword : GkWord) {front : List GkString} (endings : List GkString)
    (curBuf forms : List GkWord) (maxforms : ℕ) (failed : Bool)
    (hfront : ∀ ending ∈ front, ending.gkstring ≠ []) :
    builder.addWdEndings gkword (front ++ endings) curBuf maxforms = some (some forms, failed) ↔
      (forms = [] ∨ forms.length < maxforms) ∧ ∃ before after failedBefore failedAfter,
        (∀ buffer, builder.addWdEndings gkword front buffer maxforms =
          some (some before, failedBefore)) ∧
        (∀ buffer, builder.addWdEndings gkword endings buffer maxforms =
          some (some after, failedAfter)) ∧
        forms = before ++ after ∧ failed = (failedBefore || failedAfter) := by
  simp only [addWdEndings_forms, takenEndings_append hfront]
  constructor
  · rintro ⟨parts, hparts, rfl, rfl, hroom⟩
    rw [List.mapM_append] at hparts
    obtain ⟨before, hbefore, hparts⟩ := Option.bind_eq_some_iff.mp hparts
    obtain ⟨after, hafter, hparts⟩ := Option.bind_eq_some_iff.mp hparts
    obtain rfl := Option.some.inj hparts
    refine ⟨hroom, before.flatMap Prod.fst, after.flatMap Prod.fst, before.any Prod.snd,
      after.any Prod.snd, fun _ => ⟨before, hbefore, rfl, rfl, ?_⟩,
      fun _ => ⟨after, hafter, rfl, rfl, ?_⟩, List.flatMap_append, List.any_append⟩
    · rw [List.flatMap_append, List.append_eq_nil_iff, List.length_append] at hroom
      exact hroom.imp And.left fun hfits => by omega
    · rw [List.flatMap_append, List.append_eq_nil_iff, List.length_append] at hroom
      exact hroom.imp And.right fun hfits => by omega
  · rintro ⟨hroom, before, after, failedBefore, failedAfter, hfront, hendings, rfl, rfl⟩
    obtain ⟨parts, hparts, rfl, rfl, -⟩ := hfront curBuf
    obtain ⟨others, hothers, rfl, rfl, -⟩ := hendings curBuf
    refine ⟨parts ++ others, ?_, List.flatMap_append.symm, List.any_append.symm, hroom⟩
    rw [List.mapM_append, hparts, hothers]
    rfl

end Endings

end FormBuilder

/-- The stem of *lo/gos*, with what its keys say of it. -/
def logosStem : GkWord :=
  { GkWord.zero with
    stemtype := 0o10201
    stem := { GkString.zero with gkstring := ascii "log" } }

/-- An ending in the singular. -/
def singularEnding (case_ : BitVec 6) (text : Bytes) : GkString :=
  { GkString.zero with
    forminfo := { WordForm.zero with gender := 1, number := 1, case_ }
    stemtype := 0o10201
    gkstring := text }

/-- The nominative in front of the accusative. -/
theorem addWdEndings_append_logos :
    ∃ before after : List GkWord,
      (∀ buffer, FormBuilder.addWdEndings ⟨0, [], 0⟩ logosStem [singularEnding 1 (ascii "os")]
        buffer 6 = some (some before, false)) ∧
      (∀ buffer, FormBuilder.addWdEndings ⟨0, [], 0⟩ logosStem [singularEnding 8 (ascii "on")]
        buffer 6 = some (some after, false)) ∧
      (before ++ after).map (·.workword) = [ascii "lo/gos", ascii "lo/gon"] := by
  have hrun : (FormBuilder.addWdEndings ⟨0, [], 0⟩ logosStem
      ([singularEnding 1 (ascii "os")] ++ [singularEnding 8 (ascii "on")]) [] 6).map
        (fun result => (result.1.map (List.map (·.workword)), result.2)) =
      some (some [ascii "lo/gos", ascii "lo/gon"], false) := by decide +kernel
  obtain ⟨⟨out, failed⟩, hforms, hout⟩ := Option.map_eq_some_iff.mp hrun
  obtain ⟨hout, rfl⟩ := Prod.mk.inj hout
  obtain ⟨forms, rfl, hwords⟩ := Option.map_eq_some_iff.mp hout
  have hparts := (FormBuilder.addWdEndings_append ⟨0, [], 0⟩ logosStem
    [singularEnding 8 (ascii "on")] [] forms 6 false
      (List.forall_mem_singleton.mpr (by decide +kernel))).mp hforms
  obtain ⟨-, before, after, failedBefore, failedAfter, hbefore, hafter, rfl, hfailed⟩ := hparts
  obtain ⟨rfl, rfl⟩ := Bool.or_eq_false_iff.mp hfailed.symm
  exact ⟨before, after, hbefore, hafter, hwords⟩

end Morpheus
