import Morpheus.Augments
import Morpheus.EndingAccents
import Morpheus.PreverbSearch

/-!
# Preverbs before words

`rstprevb` puts a preverb before a word: it composes the preverb from the parts between commas, makes
the two fit each other at the joint, and writes them into the buffer of the word. Where the flags ask
for a doubled consonant, the pointer into that buffer is moved to the consonant.
-/

namespace Morpheus

/-- `PREVB_AUGMENT` -/
def prevbAugment : ℕ := 30

/-- `DOUBLED_CONS` -/
def doubledCons : ℕ := 67

/-- `IOTA_INTENS` -/
def iotaIntens : ℕ := 68

/-- `EN_TO_ENI` -/
def enToEni : ℕ := 78

/-- `T_PREVB` -/
def tPrevb : ℕ := 83

/-- The breathing of a text is rough. -/
def roughly (s : Bytes) : Bool := getbreath s == 40

/-- `Is_unasp` -/
def isUnasp (c : Byte) : Bool := (ascii "ptkbdg").contains c

/-- `Is_stop` -/
def isStop (c : Byte) : Bool := isUnasp c || isAsp c

/-- `aspirate` -/
def aspirate (c : Byte) : Byte :=
  if c = 116 ∨ c = 100 then 113 else if c = 112 ∨ c = 98 then 102 else if c = 107 ∨ c = 103 then 120 else c

/-- A text with another last letter. -/
def setLast (s : Bytes) (c : Byte) : Bytes := s.dropLast ++ [c]

/-- A text that ends in another. -/
def endsIn (s : Bytes) (ending : String) : Bool := (ascii ending).isSuffixOf s

section OddPreverbs

/-- A text that another takes the place of, but not where a longer one stands. -/
structure Shift where
  source : Bytes
  exception : Option Bytes
  target : Bytes

/-- A shift without an exception. -/
def shift (source target : String) : Shift := ⟨ascii source, none, ascii target⟩

/-- The shift applies at the beginning of a text. -/
def Shift.applies (rule : Shift) (s : Bytes) : Bool :=
  rule.source.isPrefixOf s && !rule.exception.any (·.isPrefixOf s)

/-- The first place where a rule applies is changed by `replace_preverb_prefix`, unless the result
leaves its buffer, which records an error. -/
def shiftFirst (rules : List Shift) : Bytes → Bytes → Bytes × Bool
  | before, [] => (before, false)
  | before, c :: s =>
    match rules.find? (·.applies (c :: s)) with
    | some rule =>
      let tail := (c :: s).drop rule.source.length
      if before.length + rule.target.length + tail.length < maxWordSize then
        (before ++ rule.target ++ tail, false)
      else (before ++ c :: s, true)
    | none => shiftFirst rules (before ++ [c]) s

/-- `shift_su_to_cu` -/
def shiftSuToCu : Bytes → Bytes
  | [] => []
  | c :: s => (if c = 115 ∧ s.head? = some 117 then 99 else c) :: shiftSuToCu s

/-- The flags of `set_odd_prvb` behind `SIG_TO_CI`, and the shifts that they ask for. -/
def oddShifts : List (ℕ × List Shift) :=
  [(71, [shift "eis" "es", shift "ei)s" "e)s"]),
    (72, [shift "pros" "poti"]),
    (74, [shift "pros" "proti"]),
    (73, [shift "meta" "peda"]),
    (75, [shift "upo" "upai", shift "u(po" "u(pai"]),
    (76, [shift "para" "parai"]),
    (77, [shift "uper" "upeir", shift "u(per" "u(peir"]),
    (enToEni, [⟨ascii "e)n", some (ascii "e)ni"), ascii "e)ni"⟩, ⟨ascii "en", some (ascii "eni"), ascii "eni"⟩])]

/-- `set_odd_prvb`: the preverb, and whether an error was recorded. -/
def setOddPrvb (oddpb : MorphFlags) (work : Bytes) : Bytes × Bool :=
  oddShifts.foldl (fun state (flag, rules) =>
      if hasMorphflag oddpb flag then
        let shifted := shiftFirst rules [] state.1
        (shifted.1, state.2 || shifted.2)
      else state)
    (if hasMorphflag oddpb 70 then shiftSuToCu work else work, false)

end OddPreverbs

section LatinPreverbs

/-- What `rstprevb` makes of a Latin preverb before a word; nothing when it leaves its buffer. -/
def latinPreverb (prevb word : Bytes) (oddpb : MorphFlags) : Option Bytes :=
  let c := word.headD 0
  let before (letters : String) : Bool := (ascii letters).contains c
  let t := prevb.length - 1
  let work := if prevb = ascii "circum" ∧ c = 105 then prevb.take t else prevb
  (if hasMorphflag oddpb dPrevb then appendText prevb maxWordSize (ascii "d") else some work).map fun work =>
    let work := if hasMorphflag oddpb tPrevb ∧ prevb = ascii "re" then ascii "ret" else work
    if prevb = ascii "sub" then
      if before "cfgprm" then work.set t c else if c = 115 then work.take t else work
    else if prevb = ascii "ob" then if before "cfgp" then work.set t c else work
    else if prevb = ascii "ex" then
      if c = 0 ∨ before "aeioucpqt" then work else work.set t (if c = 102 then c else 95)
    else if prevb = ascii "trans" then
      if before "ijdlmn" then work.take (t - 1) else if c = 115 then work.take t else work
    else if prevb = ascii "dis" then
      -- unchanged before "di"
      if (ascii "di").isPrefixOf word then work
      else if before "bdglmnrv" then work.take t
      else if c = 102 then work.set t c
      else work
    else if prevb = ascii "in" then
      if c = 108 then work.set t c else if before "bpm" then work.set t 109 else work
    else if prevb = ascii "con" then
      if before "bpm" then work.set t 109
      else if before "rl" then work.set t c
      else if c = 110 then work.set t 95
      else work
    else if prevb = ascii "ad" then
      if before "cflnpst" then setLast work c else if c = 103 then work.take t else work
    else work

end LatinPreverbs

section Joints

/-- What `getprvbform` makes of a word and of the preverb before it. -/
structure PrvbForm where
  word : Bytes
  prevb : Bytes
  morphflags : MorphFlags
  failed : Bool

/-- The preverb before a vowel, when it does not end in `pro`, `peri` or `proti`; `none` when a byte
before it is read. -/
def beforeVowel (prevb word : Bytes) (oddpb : MorphFlags) : Option Bytes :=
  let elides : Option Bytes :=
    if isVowel (prevb.getLastD 0) then
      if prevb.getLastD 0 ≠ 105 then some prevb.dropLast
      else prevb.dropLast.getLast?.map fun c => if c ≠ 100 then prevb.dropLast else prevb
    else some prevb
  elides.bind fun prevb =>
    prevb.getLast?.map fun last =>
      if last = 107 then setLast prevb 99
      else if isUnasp last ∧ roughly word ∧ !hasMorphflag oddpb unaspPreverb then
        setLast prevb (aspirate last)
      else prevb

/-- The preverb that ends in `t` before a consonant. -/
def afterTau (prevb word : Bytes) : Bytes :=
  let c := word.headD 0
  let prevb := if c = 102 then setLast prevb 112 else prevb
  let prevb := if c = 100 then setLast prevb 100 else prevb
  if c = 110 then setLast prevb 110
  else if c = 115 then prevb.dropLast
  else if isLabial c ∨ isLiquid c ∨ c = 107 then setLast prevb c
  else prevb

/-- The preverb that ends in `n` before a consonant; `none` when a byte before it is read. -/
def afterNu (prevb word : Bytes) : Option Bytes :=
  let c := word.headD 0
  if isLabial c ∨ c = 109 ∨ c = 121 then some (setLast prevb 109)
  else if isPalatal c then some (setLast prevb 103)
  else if c = 114 ∨ c = 108 then some (setLast prevb c)
  else if c = 115 ∨ c = 122 then
    prevb.dropLast.getLast?.map fun d =>
      if d ≠ 117 then prevb
      else if isStop (word.tail.headD 0) ∨ c = 122 then prevb.dropLast
      else setLast prevb 115
  else some prevb

/-- `getprvbform`; `none` when a byte outside of a buffer is used. -/
def getprvbform (word prevb : Bytes) (oddpb : MorphFlags) : Option PrvbForm :=
  let prevb := stripacc prevb
  let c := word.headD 0
  let last := prevb.getLastD 0
  let elide := hasMorphflag oddpb elidePreverb
  let done (prevb : Bytes) : PrvbForm := ⟨stripbreath word, prevb, oddpb, false⟩
  if prevb = [] then some ⟨word, prevb, oddpb, false⟩
  else if (endsIn prevb "peri" ∨ endsIn prevb "proti") ∧ elide then some (done prevb.dropLast)
  else if endsIn prevb "mfi" then
    if hasMorphflag oddpb dissimilation then
      -- a)mfi-e(/cw becomes a)mpi-e(/cw, a)mp-e(/cw and then a)mf-e(/cw
      let prevb := prevb.dropLast.dropLast ++ ascii "pi"
      let prevb := if isVowel c then prevb.dropLast else prevb
      if roughly word then
        some { done (setLast prevb 102) with morphflags := zapMorphflag oddpb dissimilation }
      else some (done prevb)
    else some (done (if c = 105 ∨ elide then prevb.dropLast else prevb))
  else if endsIn prevb "nti" ∧ isVowel c then
    let prevb := if c ≠ 111 ∨ elide then prevb.dropLast else prevb
    some (done (if prevb.getLastD 0 = 116 ∧ roughly word ∧ !hasMorphflag oddpb unaspPreverb then
      setLast prevb 113 else prevb))
  else if isVowel c then
    if endsIn prevb "pro" ∨ endsIn prevb "peri" ∨ endsIn prevb "proti" then
      match appendText prevb maxWordSize [43] with
      | none => some ⟨word, prevb, oddpb, true⟩
      | some prevb => some (done prevb)
    else (beforeVowel prevb word oddpb).map done
  else if last = 116 then some (done (afterTau prevb word))
  else if last = 112 then some (done (if c = 98 then setLast prevb 98 else prevb))
  else if last = 110 then (afterNu prevb word).map done
  else if c = 114 ∧ isVowel last ∧ !hasMorphflag oddpb rawPreverb then
    if word.length + 1 < maxWordSize then
      some { done prevb with word := stripbreath (114 :: word) }
    else none
  else some (done prevb)

end Joints

section Attachment

/-- What `rstprevb` leaves: the word in its buffer, the flags, and whether an error was recorded. -/
structure PrefixedWord where
  word : Bytes
  morphflags : MorphFlags
  failed : Bool

/-- A preverb that is ready to be put before a word. -/
structure Compounded where
  work : Bytes
  morphflags : MorphFlags
  failed : Bool

/-- `simpleaugment` without a syllabic augment, and whether an error was recorded. -/
def simpleaugment (s : Bytes) : Option (Bytes × Bool) :=
  let gkform := { GkWord.zero with workword := xstrncpy s maxWordSize }
  match augmentit gkform false 5 with
  | .error _ => none
  | .ok augmented =>
    some (xstrncpy (augmented.forms.headD gkform).workword maxWordSize, augmented.failed)

/-- `add_double_augment` on the last preverb, where the flags ask for it and it was not added yet;
`failed` when an error was recorded. -/
def addDoubleAugment (s : Bytes) (oddpb : MorphFlags) (added failed : Bool) :
    Option (Bytes × MorphFlags × Bool × Bool) :=
  if hasMorphflag oddpb prevbAugment ∧ 44 ∉ s ∧ !added then
    (simpleaugment s).map fun (s, augmentFailed) =>
      (s, addMorphflag oddpb hasAugment, true, failed || augmentFailed)
  else some (s, oddpb, added, failed)

section Recursion
variable (rst : Bytes → Bytes → MorphFlags → Option PrefixedWord)

/-- The loop of `comp_preverb`, for a bound on its rounds: `rst` puts the preverb before a comma, with
flags `inner` of its own, before what stands behind it. -/
def compLoop : ℕ → Bytes → MorphFlags → MorphFlags → Bool → Bool → Option Compounded
  | 0, _, _, _, _, _ => none
  | rounds + 1, pb, inner, oddpb, added, failed =>
    if 44 ∉ pb then some ⟨pb, oddpb, failed⟩
    else
      let first := pb.takeWhile (· != 44)
      (addDoubleAugment (pb.dropWhile (· != 44)).tail oddpb added failed).bind
        fun (s, oddpb, added, failed) =>
        -- the text behind the comma is changed where it stands
        if maxWordSize ≤ first.length + 1 + s.length then none
        else
          (rst s first inner).bind fun r =>
            if maxWordSize ≤ first.length + 1 + r.word.length then none
            else compLoop rounds r.word r.morphflags oddpb added (failed || r.failed)

/-- `comp_preverb` -/
def compPreverb (rounds : ℕ) (pb : Bytes) (unasp : Bool) (oddpb : MorphFlags) : Option Compounded :=
  let inner := addMorphflag (fun _ => 0) hasPreverb
  let inner := if unasp then addMorphflag inner unaspPreverb else inner
  let inner := if hasMorphflag oddpb enToEni then addMorphflag inner enToEni else inner
  (addDoubleAugment pb oddpb false false).bind fun (pb, oddpb, added, failed) =>
    compLoop rst rounds pb inner oddpb added failed

/-- A preverb behind `comp_preverb` that goes through `set_odd_prvb`. -/
def Compounded.odd (comp : Compounded) : Compounded :=
  let shifted := setOddPrvb comp.morphflags comp.work
  ⟨shifted.1, comp.morphflags, comp.failed || shifted.2⟩

/-- The preverb of `RAW_PREVERB` before a word that begins with `c`; only the flags when it leaves its
buffer. -/
def rawCompounded (rounds : ℕ) (c : Byte) (prevb : Bytes) (oddpb : MorphFlags) :
    Option (Except MorphFlags Compounded) :=
  (compPreverb rst rounds (xstrncpy prevb maxWordSize) false oddpb).bind fun comp =>
    comp.work.getLast?.map fun last =>
      if isVowel last ∧ isVowel c then
        match appendText comp.work maxWordSize [43] with
        | none => .error comp.morphflags
        | some work => .ok { comp with work := work }.odd
      else .ok comp.odd

/-- The preverb without `APOCOPE` or with it. -/
def apocopate (work : Bytes) (oddpb : MorphFlags) : Option Bytes :=
  if hasMorphflag oddpb apocope then
    work.getLast?.map fun last => if last = 97 ∨ last = 111 then work.dropLast else work
  else some work

/-- The full preverb as `exp_preverb` finds it, with what the flags ask for; only the flags when it
leaves its buffer. -/
def fullCompounded (language : ℤ) (entries : List RawPreverb) (rounds : ℕ) (prevb : Bytes)
    (oddpb : MorphFlags) : Option (Except MorphFlags Compounded) :=
  (expPreverb language entries rounds prevb ⟨[], .zero⟩).bind fun (_, pb) =>
    let work := xstrncpy (if pb.fullpb = [] then prevb else pb.fullpb) maxWordSize
    (apocopate (stripacc work) oddpb).bind fun work =>
      let comp (work : Bytes) : Option (Except MorphFlags Compounded) :=
        (compPreverb rst rounds work (hasMorphflag oddpb unaspPreverb) oddpb).map fun comp =>
          .ok comp.odd
      if hasMorphflag oddpb iotaIntens then
        work.getLast?.bind fun last =>
          if last = 110 then
            match appendText work maxWordSize [105] with
            | none => some (.error oddpb)
            | some work => comp work
          else comp work
      else comp work

/-- The preverb that `rstprevb` puts before a word that begins with `c`, before `getprvbform`. -/
def compounded (language : ℤ) (entries : List RawPreverb) (rounds : ℕ) (c : Byte) (prevb : Bytes)
    (oddpb : MorphFlags) : Option (Except MorphFlags Compounded) :=
  if hasMorphflag oddpb rawPreverb then rawCompounded rst rounds c prevb oddpb
  else fullCompounded rst language entries rounds prevb oddpb

/-- What stands before the first consonant of a word, and the word with that consonant doubled. -/
def doubleCons (word : Bytes) : Bytes × Bytes :=
  let lead := word.takeWhile fun c => !isCons c
  let rest := word.dropWhile fun c => !isCons c
  (lead, lead ++ rest.take 1 ++ rest)

/-- The word and the preverb as they are joined. -/
def jointForm (tmpword : Bytes) (comp : Compounded) (raw : Bool) : Option PrvbForm :=
  if raw then some ⟨stripbreath tmpword, comp.work, comp.morphflags, comp.failed⟩
  else
    (getprvbform tmpword comp.work comp.morphflags).map fun form =>
      { form with failed := comp.failed || form.failed }

/-- A word too long for what is left of the buffer is cut, with a `CONTCHAR` at its end; nothing when
there is no room for that. -/
def cutWord (max : ℕ) (tmpword : Bytes) : Option Bytes :=
  if tmpword.length < max then some tmpword
  else if max < 2 then none
  else some (tmpword.take (max - 2) ++ [62])

/-- The end of `rstprevb`: the joined text is written where the pointer into the buffer stands behind
`lead`. -/
def joinForm (lead word : Bytes) (form : PrvbForm) (raw : Bool) : Option PrefixedWord :=
  match if raw then some form.word else cutWord (maxWordSize - form.prevb.length) form.word with
  | none => some ⟨word, form.morphflags, form.failed⟩
  | some tmpword =>
    match appendText form.prevb maxWordSize (stripbreath tmpword) with
    | none => some ⟨word, form.morphflags, true⟩
    | some work =>
      if lead.length + work.length < maxWordSize then
        some ⟨lead ++ work, form.morphflags, form.failed⟩
      else none

/-- `rstprevb`, with `rst` for the calls that `comp_preverb` makes. With `DOUBLED_CONS` the pointer to
the word is moved to its first consonant. -/
def rstprevbBy (language : ℤ) (entries : List RawPreverb) (rounds : ℕ) (word prevb : Bytes)
    (oddpb : MorphFlags) : Option PrefixedWord :=
  let raw := hasMorphflag oddpb rawPreverb
  if prevb = [] then some ⟨word, oddpb, true⟩
  else if hasMorphflag oddpb indeclform then some ⟨word, oddpb, false⟩
  else if (language = latin ∨ language = italian) ∧ !raw then
    match (latinPreverb prevb word oddpb).bind (appendText · maxWordSize word) with
    | none => some ⟨word, oddpb, true⟩
    | some work => some ⟨work, oddpb, false⟩
  else
    let doubled :=
      if hasMorphflag oddpb doubledCons then doubleCons word else ([], xstrncpy word maxWordSize)
    -- behind the doubled consonant the rest is written up to its zero
    if hasMorphflag oddpb doubledCons ∧ maxWordSize ≤ word.length + 1 then none
    else
      (compounded rst language entries rounds ((word.drop doubled.1.length).headD 0) prevb oddpb).bind
        fun
        | .error oddpb => some ⟨word, oddpb, true⟩
        | .ok comp => (jointForm doubled.2 comp raw).bind fun form => joinForm doubled.1 word form raw

end Recursion

/-- `rstprevb`, for a bound on the depth of its calls. -/
def rstprevb (language : ℤ) (entries : List RawPreverb) : ℕ → Bytes → Bytes → MorphFlags → Option PrefixedWord
  | 0, _, _, _ => none
  | depth + 1, word, prevb, oddpb =>
    rstprevbBy (rstprevb language entries depth) language entries depth word prevb oddpb

end Attachment

section Doubled
variable {word tmpword prevb : Bytes} {oddpb : MorphFlags} {form : PrvbForm} {c : Byte}

/-- `getprvbform` puts an r before a word that begins with one: behind a vowel, which is not elided
in `peri` and `proti`, and not behind `mfi`. -/
def addsRho (prevb : Bytes) (oddpb : MorphFlags) (word : Bytes) : Prop :=
  word.headD 0 = 114 ∧ isVowel ((stripacc prevb).getLastD 0) = true ∧
    ¬((endsIn (stripacc prevb) "peri" ∨ endsIn (stripacc prevb) "proti") ∧
      hasMorphflag oddpb elidePreverb = true) ∧
    endsIn (stripacc prevb) "mfi" = false ∧ hasMorphflag oddpb rawPreverb = false

theorem not_breath_of_vowel (h : isVowel c = true) : isBreath c = false := by
  revert c
  refine @forall_byte _ ?_
  decide +kernel

theorem isVowel_zero : isVowel 0 = false := by decide

/-- The preverbs that `getprvbform` joins by the letter that the word begins with. -/
structure JoinsByLetter (prevb : Bytes) (oddpb : MorphFlags) : Prop where
  ne_nil : stripacc prevb ≠ []
  not_peri : ¬((endsIn (stripacc prevb) "peri" = true ∨ endsIn (stripacc prevb) "proti" = true) ∧
    hasMorphflag oddpb elidePreverb = true)
  not_mfi : ¬endsIn (stripacc prevb) "mfi" = true

/-- A word that begins with a vowel is left as it is where the mark behind the preverb does not fit. -/
theorem JoinsByLetter.vowel (hjoins : JoinsByLetter prevb oddpb) (hword : isVowel (word.headD 0) = true)
    (h : getprvbform word prevb oddpb = some form) :
    form.word = stripbreath word ∨ form.word = word ∧ maxWordSize ≤ form.prevb.length + 1 := by
  unfold getprvbform at h
  simp only at h
  rw [if_neg hjoins.ne_nil, if_neg hjoins.not_peri, if_neg hjoins.not_mfi] at h
  simp only [hword, and_true, if_true] at h
  by_cases hnti : endsIn (stripacc prevb) "nti" = true
  · rw [if_pos hnti, Option.some.injEq] at h
    subst h
    exact .inl rfl
  rw [if_neg hnti] at h
  by_cases hpro : endsIn (stripacc prevb) "pro" = true ∨ endsIn (stripacc prevb) "peri" = true ∨
      endsIn (stripacc prevb) "proti" = true
  · rw [if_pos hpro] at h
    cases hplus : appendText (stripacc prevb) maxWordSize [43] with
    | none =>
      rw [hplus, Option.some.injEq] at h
      subst h
      refine .inr ⟨rfl, ?_⟩
      unfold appendText at hplus
      split_ifs at hplus with hfull
      simp only [List.length_singleton] at hfull
      dsimp only
      omega
    | some plus =>
      rw [hplus, Option.some.injEq] at h
      subst h
      exact .inl rfl
  · rw [if_neg hpro] at h
    obtain ⟨elided, -, rfl⟩ := Option.map_eq_some_iff.mp h
    exact .inl rfl

/-- An r is put only before a word that begins with a consonant. -/
theorem JoinsByLetter.consonant (hjoins : JoinsByLetter prevb oddpb) (hword : isVowel (word.headD 0) = false)
    (h : getprvbform word prevb oddpb = some form) :
    form.word = stripbreath word ∧ ¬addsRho prevb oddpb word ∨
      form.word = stripbreath (114 :: word) ∧ addsRho prevb oddpb word := by
  unfold getprvbform at h
  simp only at h
  rw [if_neg hjoins.ne_nil, if_neg hjoins.not_peri, if_neg hjoins.not_mfi] at h
  simp only [hword, Bool.false_eq_true, and_false, if_false] at h
  by_cases hvowel : isVowel ((stripacc prevb).getLastD 0) = true
  · have hother : ∀ d, isVowel d = false → (stripacc prevb).getLastD 0 ≠ d := by
      rintro d hd rfl
      rw [hvowel] at hd
      cases hd
    rw [if_neg (hother 116 (by decide)), if_neg (hother 112 (by decide)),
      if_neg (hother 110 (by decide))] at h
    by_cases hrho : word.headD 0 = 114 ∧ isVowel ((stripacc prevb).getLastD 0) = true ∧
        (!hasMorphflag oddpb rawPreverb) = true
    · rw [if_pos hrho] at h
      split_ifs at h
      rw [Option.some.injEq] at h
      subst h
      exact .inr ⟨rfl, hrho.1, hvowel, hjoins.not_peri, by simpa using hjoins.not_mfi,
        by simpa using hrho.2.2⟩
    · rw [if_neg hrho, Option.some.injEq] at h
      subst h
      exact .inl ⟨rfl, fun hadds => hrho ⟨hadds.1, hvowel, by simp [hadds.2.2.2.2]⟩⟩
  · refine .inl ⟨?_, fun hadds => hvowel hadds.2.1⟩
    rw [Bool.not_eq_true] at hvowel
    simp only [hvowel, Bool.false_eq_true, false_and, and_false, if_false] at h
    split_ifs at h <;>
      first
        | (rw [Option.some.injEq] at h; subst h; rfl)
        | (obtain ⟨nu, -, rfl⟩ := Option.map_eq_some_iff.mp h; rfl)

/-- What `getprvbform` leaves of a word: the word without breathings, before which it may put an r, or
the word as it is where it stops early. -/
theorem getprvbform_word (h : getprvbform word prevb oddpb = some form) :
    form.word = stripbreath word ∧ ¬addsRho prevb oddpb word ∨
      form.word = stripbreath (114 :: word) ∧ addsRho prevb oddpb word ∨
        form.word = word ∧ ¬addsRho prevb oddpb word ∧
          (form.prevb = [] ∨ maxWordSize ≤ form.prevb.length + 1 ∧ stripbreath word ≠ []) := by
  by_cases hnil : stripacc prevb = []
  · unfold getprvbform at h
    simp only at h
    rw [if_pos hnil, Option.some.injEq] at h
    subst h
    refine .inr (.inr ⟨rfl, ?_, .inl hnil⟩)
    rw [addsRho, hnil]
    simp [isVowel_zero]
  by_cases hperi : (endsIn (stripacc prevb) "peri" = true ∨ endsIn (stripacc prevb) "proti" = true) ∧
      hasMorphflag oddpb elidePreverb = true
  · unfold getprvbform at h
    simp only at h
    rw [if_neg hnil, if_pos hperi, Option.some.injEq] at h
    subst h
    exact .inl ⟨rfl, fun hrho => hrho.2.2.1 hperi⟩
  by_cases hmfi : endsIn (stripacc prevb) "mfi" = true
  · unfold getprvbform at h
    simp only at h
    rw [if_neg hnil, if_neg hperi, if_pos hmfi] at h
    have hnone : ¬addsRho prevb oddpb word := fun hrho => by simp [hrho.2.2.2.1] at hmfi
    refine .inl ⟨?_, hnone⟩
    split_ifs at h <;> rw [Option.some.injEq] at h <;> subst h <;> rfl
  have hjoins : JoinsByLetter prevb oddpb := ⟨hnil, hperi, hmfi⟩
  cases hword : isVowel (word.headD 0) with
  | false =>
    rcases hjoins.consonant hword h with hplain | hrho
    · exact .inl hplain
    · exact .inr (.inl hrho)
  | true =>
    have hnone : ¬addsRho prevb oddpb word := by
      intro hrho
      rw [hrho.1] at hword
      exact absurd hword (by decide)
    have hne : stripbreath word ≠ [] := by
      cases word with
      | nil => exact absurd hword (by decide)
      | cons c s =>
        rw [List.headD_cons] at hword
        simp [stripbreath, not_breath_of_vowel hword]
    rcases hjoins.vowel hword h with hplain | ⟨hsame, hfull⟩
    · exact .inl ⟨hplain, hnone⟩
    · exact .inr (.inr ⟨hsame, hnone, .inr ⟨hfull, hne⟩⟩)

theorem stripbreath_strip (s : Bytes) : stripbreath (stripbreath s) = stripbreath s := by
  simp [stripbreath, List.filter_filter]

theorem stripbreath_append (s t : Bytes) : stripbreath (s ++ t) = stripbreath s ++ stripbreath t :=
  List.filter_append ..

theorem stripbreath_take {s : Bytes} (h : stripbreath s = s) (n : ℕ) : stripbreath (s.take n) = s.take n := by
  rw [stripbreath, List.filter_eq_self] at h ⊢
  exact fun c hc => h c (List.mem_of_mem_take hc)

variable {lead d : Bytes} {raw : Bool}

/-- The word that is joined, when no r was put before it: without its breathings, or as it was where
`getprvbform` stopped early. -/
structure Kept (form : PrvbForm) (raw : Bool) (d : Bytes) : Prop where
  strip : stripbreath form.word = d
  early : form.word = d ∨ raw = false ∧ (form.prevb = [] ∧ form.word.length < maxWordSize ∨
    maxWordSize ≤ form.prevb.length + 1 ∧ d ≠ [])

theorem Kept.fits (h : Kept form raw d) (hfits : form.prevb.length + d.length < maxWordSize) :
    form.word.length < maxWordSize - form.prevb.length := by
  rcases h.early with hd | ⟨-, ⟨hnil, hlength⟩ | ⟨hlong, hne⟩⟩
  · rw [hd]
    omega
  · rw [hnil]
    exact hlength
  · have := List.length_pos_of_ne_nil hne
    omega

/-- A word that is kept and fits stands behind its preverb, where the pointer stands. -/
theorem Kept.joinForm (h : Kept form raw d) (hfits : form.prevb.length + d.length < maxWordSize) :
    joinForm lead word form raw =
      if lead.length + (form.prevb ++ d).length < maxWordSize then
        some ⟨lead ++ (form.prevb ++ d), form.morphflags, form.failed⟩
      else none := by
  have hcut : (if raw = true then some form.word
      else cutWord (maxWordSize - form.prevb.length) form.word) = some form.word := by
    cases raw with
    | true => rfl
    | false => rw [if_neg Bool.false_ne_true, cutWord, if_pos (h.fits hfits)]
  have happend : appendText form.prevb maxWordSize d = some (form.prevb ++ d) := by
    rw [appendText, if_neg (by omega)]
  unfold Morpheus.joinForm
  rw [hcut]
  simp only [h.strip, happend]

theorem joinForm_length {r : PrefixedWord} (hword : word.length < maxWordSize)
    (h : joinForm lead word form raw = some r) : r.word.length < maxWordSize := by
  unfold joinForm at h
  split at h
  · rw [← Option.some.inj h]
    exact hword
  · split at h
    · rw [← Option.some.inj h]
      exact hword
    · split_ifs at h with hlength
      rw [← Option.some.inj h, List.length_append]
      exact hlength

/-- A word that is kept stands behind its preverb if and only if the pointer was not moved and both
fit. -/
theorem joinForm_kept (h : Kept form raw d) (hword : word.length < maxWordSize) :
    (∃ r, joinForm lead word form raw = some r ∧ r.word = form.prevb ++ d) ↔
      lead = [] ∧ form.prevb.length + d.length < maxWordSize := by
  constructor
  · rintro ⟨r, hr, htext⟩
    have hfits : form.prevb.length + d.length < maxWordSize := by
      rw [← List.length_append, ← htext]
      exact joinForm_length hword hr
    rw [h.joinForm hfits] at hr
    split_ifs at hr
    rw [← Option.some.inj hr] at htext
    exact ⟨List.append_left_eq_self.mp htext, hfits⟩
  · rintro ⟨rfl, hfits⟩
    refine ⟨⟨form.prevb ++ d, form.morphflags, form.failed⟩, ?_, rfl⟩
    rw [h.joinForm hfits, if_pos (by rw [List.length_append]; exact (Nat.zero_add _).trans_lt hfits)]
    rfl

/-- A text that is its own beginning behind a letter is a row of that letter. -/
theorem replicate_of_shifted {s : Bytes} {c : Byte} (h : (c :: s).take s.length = s) :
    s = List.replicate s.length c := by
  induction s with
  | nil => rfl
  | cons x s ih =>
    rw [List.length_cons, List.take_succ_cons] at h
    obtain ⟨rfl, htail⟩ := List.cons.inj h
    rw [List.length_cons, List.replicate_succ, ← ih htail]

/-- The cut takes an r away from a word behind an r if and only if the word is a row of r's that ends
in `CONTCHAR`. -/
theorem cut_rho_eq_iff {max : ℕ} (hmax : 2 ≤ max) (hcut : max ≤ d.length + 1) :
    (114 :: d).take (max - 2) ++ [62] = d ↔
      d.length + 1 = max ∧ ∃ k, d = List.replicate k 114 ++ [62] := by
  constructor
  · intro h
    have hlength : d.length + 1 = max := by
      have := congrArg List.length h
      rw [List.length_append, List.length_take, List.length_cons, List.length_singleton] at this
      omega
    obtain ⟨s, rfl⟩ : ∃ s, d = s ++ [62] := ⟨_, h.symm⟩
    have hs : (114 :: s).take s.length = s := by
      have := List.append_cancel_right h
      rw [← hlength, List.length_append, List.length_singleton, ← List.cons_append,
        List.take_append_of_le_length (by simp)] at this
      exact this
    exact ⟨hlength, s.length, by rw [← replicate_of_shifted hs]⟩
  · rintro ⟨rfl, k, rfl⟩
    rw [List.length_append, List.length_replicate, List.length_singleton, ← List.cons_append,
      ← List.replicate_succ, List.take_append_of_le_length (by simp), List.take_replicate]
    simp

/-- A word before which an r was put is not what stands behind the preverb, unless it is a row of
r's that ends in `CONTCHAR` and the cut takes one of them away. -/
theorem joinForm_rho (hform : form.word = 114 :: d) (hstrip : stripbreath d = d) (hd : d ≠ [])
    (hword : word.length < maxWordSize) :
    (∃ r, joinForm [] word form false = some r ∧ r.word = form.prevb ++ d) ↔
      form.prevb.length + d.length + 1 = maxWordSize ∧ ∃ k, d = List.replicate k 114 ++ [62] := by
  have hpos := List.length_pos_of_ne_nil hd
  have hrho : stripbreath (114 :: d) = 114 :: d := by rw [stripbreath, List.filter_cons, ← stripbreath, hstrip]; rfl
  have hmaxWord : maxWordSize = 60 := rfl
  unfold joinForm
  rw [if_neg Bool.false_ne_true, cutWord, hform, List.length_cons]
  split_ifs with hlong hmax
  · -- nothing is cut, so the r stays
    simp only [hrho]
    rw [appendText, if_neg (by rw [List.length_cons]; omega)]
    constructor
    · rintro ⟨r, hr, htext⟩
      dsimp only at hr
      split_ifs at hr
      rw [← Option.some.inj hr, List.nil_append, List.append_cancel_left_eq] at htext
      have := congrArg List.length htext
      rw [List.length_cons] at this
      omega
    · rintro ⟨hlength, -⟩
      omega
  · -- the preverb leaves no room, so nothing is written
    constructor
    · rintro ⟨r, hr, htext⟩
      rw [← Option.some.inj hr] at htext
      have := congrArg List.length htext
      rw [List.length_append] at this
      dsimp only at this
      omega
    · rintro ⟨hlength, -⟩
      omega
  · have hstripcut : stripbreath ((114 :: d).take (maxWordSize - form.prevb.length - 2) ++ [62]) =
        (114 :: d).take (maxWordSize - form.prevb.length - 2) ++ [62] := by
      rw [stripbreath_append, stripbreath_take hrho]
      rfl
    have hlength : ((114 :: d).take (maxWordSize - form.prevb.length - 2) ++ [62]).length =
        maxWordSize - form.prevb.length - 1 := by
      rw [List.length_append, List.length_take, List.length_cons, List.length_singleton]
      omega
    simp only [hstripcut]
    rw [appendText, if_neg (by rw [hlength]; omega)]
    dsimp only
    rw [if_pos (by rw [List.length_append, hlength, List.length_nil]; omega)]
    calc
      _ ↔ (114 :: d).take (maxWordSize - form.prevb.length - 2) ++ [62] = d := by
        simp
      _ ↔ _ := by
        rw [cut_rho_eq_iff (by omega) (by omega)]
        refine and_congr_left fun _ => ?_
        omega

/-- The word that `getprvbform` leaves: as it was, or with an r before it. -/
theorem jointForm_word {comp : Compounded} (htmp : tmpword.length < maxWordSize)
    (h : jointForm tmpword comp raw = some form) :
    Kept form raw (stripbreath tmpword) ∧
        (raw = true ∨ ¬addsRho comp.work comp.morphflags tmpword) ∨
      raw = false ∧ addsRho comp.work comp.morphflags tmpword ∧
        form.word = 114 :: stripbreath tmpword := by
  unfold jointForm at h
  split_ifs at h with hraw
  · rw [← Option.some.inj h]
    exact .inl ⟨⟨stripbreath_strip tmpword, .inl rfl⟩, .inl hraw⟩
  rw [Bool.not_eq_true] at hraw
  obtain ⟨form, hform, rfl⟩ := Option.map_eq_some_iff.mp h
  rcases getprvbform_word hform with ⟨hword, hnone⟩ | ⟨hword, hrho⟩ | ⟨hword, hnone, hearly⟩
  · exact .inl ⟨⟨by rw [hword, stripbreath_strip], .inl hword⟩, .inr hnone⟩
  · exact .inr ⟨hraw, hrho, hword⟩
  · refine .inl ⟨⟨by rw [hword], .inr ⟨hraw, ?_⟩⟩, .inr hnone⟩
    rw [hword]
    exact hearly.imp (fun hnil => ⟨hnil, htmp⟩) id

theorem doubleCons_length (word : Bytes) : (doubleCons word).2.length ≤ word.length + 1 := by
  have hlength := congrArg List.length (List.takeWhile_append_dropWhile (p := fun c => !isCons c) (l := word))
  rw [List.length_append] at hlength
  simp only [doubleCons, List.length_append, List.length_take]
  omega

theorem doubleCons_nil_iff : (doubleCons word).1 = [] ↔ ∀ c ∈ word.head?, isCons c = true := by
  cases word with
  | nil => simp [doubleCons]
  | cons c s => cases h : isCons c <;> simp [doubleCons, h]

/-- Where the pointer is moved, the doubled word does not begin with an r. -/
theorem doubleCons_nil_of_rho (h : (doubleCons word).2.headD 0 = 114) : (doubleCons word).1 = [] := by
  cases word with
  | nil => rfl
  | cons c s =>
    rw [doubleCons_nil_iff]
    intro x hx
    rw [List.head?_cons, Option.mem_some_iff] at hx
    subst hx
    by_contra hcons
    rw [Bool.not_eq_true] at hcons
    simp only [doubleCons, List.takeWhile_cons, hcons, Bool.not_false, if_true, List.cons_append,
      List.headD_cons] at h
    rw [h] at hcons
    exact absurd hcons (by decide)

theorem stripbreath_ne_nil_of_rho (h : tmpword.headD 0 = 114) : stripbreath tmpword ≠ [] := by
  cases tmpword with
  | nil => exact absurd h (by decide)
  | cons c s =>
    rw [List.headD_cons] at h
    subst h
    exact List.cons_ne_nil 114 _

theorem not_breath_of_cons (h : isCons c = true) : isBreath c = false := by
  revert c
  refine @forall_byte _ ?_
  decide +kernel

theorem doubleCons_of_vowels (h : ∀ c ∈ word, isCons c = false) : (doubleCons word).2 = word := by
  have htake : word.takeWhile (fun c => !isCons c) = word :=
    List.takeWhile_eq_self_iff.mpr fun c hc => by rw [h c hc]; rfl
  have hdrop : word.dropWhile (fun c => !isCons c) = [] :=
    List.dropWhile_eq_nil_iff.mpr fun c hc => by rw [h c hc]; rfl
  simp only [doubleCons, htake, hdrop, List.take_nil, List.append_nil]

/-- A word that is, behind a preverb, its own double has no consonant. -/
theorem no_cons_of_eq (h : word = prevb ++ stripbreath (doubleCons word).2) :
    ∀ c ∈ word, isCons c = false := by
  have hsplit := List.takeWhile_append_dropWhile (p := fun c => !isCons c) (l := word)
  by_contra hsome
  have hne : word.dropWhile (fun c => !isCons c) ≠ [] := by
    intro hnil
    refine hsome fun c hc => ?_
    simpa using List.dropWhile_eq_nil_iff.mp hnil c hc
  obtain ⟨c, s, hcs⟩ := List.exists_cons_of_ne_nil hne
  have hc : isCons c = true := by
    have := List.head_dropWhile_not (fun c => !isCons c) hne
    simpa [hcs] using this
  have hlength := congrArg (fun s => (stripbreath s).length) h
  have hword := congrArg (fun s => (stripbreath s).length) hsplit
  simp only [stripbreath_append, stripbreath_strip, doubleCons, hcs, List.length_append,
    List.take_succ_cons, List.take_zero] at hlength hword
  have : (stripbreath [c]).length = 1 := by simp [stripbreath, not_breath_of_cons hc]
  omega

variable {language : ℤ} {entries : List RawPreverb} {depth : ℕ} {comp : Compounded}

/-- The preverb as `rstprevb` composes it before a doubled consonant: the pointer stands there. -/
def compoundedDoubled (language : ℤ) (entries : List RawPreverb) (depth : ℕ) (word prevb : Bytes)
    (oddpb : MorphFlags) : Option (Except MorphFlags Compounded) :=
  compounded (rstprevb language entries depth) language entries depth
    ((word.drop (doubleCons word).1.length).headD 0) prevb oddpb

/-- `rstprevb` leaves the composed preverb, and behind it the word with its first consonant doubled
and without its breathings. -/
def Attached (language : ℤ) (entries : List RawPreverb) (word prevb : Bytes) (oddpb : MorphFlags) :
    Prop :=
  ∃ depth comp form r, compoundedDoubled language entries depth word prevb oddpb = some (.ok comp) ∧
    jointForm (doubleCons word).2 comp (hasMorphflag oddpb rawPreverb) = some form ∧
      rstprevb language entries (depth + 1) word prevb oddpb = some r ∧
        r.word = form.prevb ++ stripbreath (doubleCons word).2

/-- A word to which a composed preverb can be attached. -/
inductive Attachable (word : Bytes) (oddpb : MorphFlags) (comp : Compounded) (form : PrvbForm) : Prop
  /-- No letter stands before the first consonant, no r is put before the word, and both fit. -/
  | joined (declined : hasMorphflag oddpb indeclform = false) (length : word.length + 1 < maxWordSize)
      (first : ∀ c ∈ word.head?, isCons c = true)
      (rho : hasMorphflag oddpb rawPreverb = true ∨
        ¬addsRho comp.work comp.morphflags (doubleCons word).2)
      (fits : form.prevb.length + (stripbreath (doubleCons word).2).length < maxWordSize)
  /-- An r is put before the word, and the cut takes one away. -/
  | cut (declined : hasMorphflag oddpb indeclform = false) (length : word.length + 1 < maxWordSize)
      (raw : hasMorphflag oddpb rawPreverb = false)
      (rho : addsRho comp.work comp.morphflags (doubleCons word).2)
      (full : form.prevb.length + (stripbreath (doubleCons word).2).length + 1 = maxWordSize)
      (row : ∃ k, stripbreath (doubleCons word).2 = List.replicate k 114 ++ [62])
  /-- An indeclinable form stays as it is: it has no consonant, and the preverb is its breathings. -/
  | unchanged (indeclinable : hasMorphflag oddpb indeclform = true)
      (breath : word = form.prevb ++ stripbreath word) (vowels : ∀ c ∈ word, isCons c = false)

/-- `rstprevb` before a consonant to be doubled ends in `joinForm`, if the doubled word fits. -/
theorem rstprevb_doubled (hlatin : language ≠ latin) (hitalian : language ≠ italian)
    (hprevb : prevb ≠ []) (hdoubled : hasMorphflag oddpb doubledCons = true)
    (hdecl : hasMorphflag oddpb indeclform = false)
    (hcomp : compoundedDoubled language entries depth word prevb oddpb = some (.ok comp))
    (hform : jointForm (doubleCons word).2 comp (hasMorphflag oddpb rawPreverb) = some form) :
    rstprevb language entries (depth + 1) word prevb oddpb =
      if maxWordSize ≤ word.length + 1 then none
      else joinForm (doubleCons word).1 word form (hasMorphflag oddpb rawPreverb) := by
  unfold compoundedDoubled at hcomp
  rw [rstprevb, rstprevbBy]
  simp only [hprevb, hdecl, hlatin, hitalian, hdoubled, or_self, false_and, true_and, if_true, if_false,
    Bool.false_eq_true, hcomp, hform, Option.bind_some]

/-- What the buffer holds is what was asked for, when the preverb is composed. -/
theorem rstprevb_word_iff (hlatin : language ≠ latin) (hitalian : language ≠ italian)
    (hprevb : prevb ≠ []) (hdoubled : hasMorphflag oddpb doubledCons = true)
    (hword : word.length < maxWordSize)
    (hcomp : compoundedDoubled language entries depth word prevb oddpb = some (.ok comp))
    (hform : jointForm (doubleCons word).2 comp (hasMorphflag oddpb rawPreverb) = some form) :
    (∃ r, rstprevb language entries (depth + 1) word prevb oddpb = some r ∧
        r.word = form.prevb ++ stripbreath (doubleCons word).2) ↔
      Attachable word oddpb comp form := by
  cases hdecl : hasMorphflag oddpb indeclform with
  | true =>
    have hrun : rstprevb language entries (depth + 1) word prevb oddpb = some ⟨word, oddpb, false⟩ := by
      rw [rstprevb, rstprevbBy]
      simp only [hprevb, hdecl, if_true, if_false]
    rw [hrun]
    constructor
    · rintro ⟨r, hr, htext⟩
      rw [← Option.some.inj hr] at htext
      have hvowels := no_cons_of_eq htext
      rw [doubleCons_of_vowels hvowels] at htext
      exact .unchanged hdecl htext hvowels
    · intro hattach
      refine ⟨_, rfl, ?_⟩
      cases hattach with
      | joined hnot => cases hdecl.symm.trans hnot
      | cut hnot => cases hdecl.symm.trans hnot
      | unchanged _ hbreath hvowels =>
        rw [doubleCons_of_vowels hvowels]
        exact hbreath
  | false =>
    rw [rstprevb_doubled hlatin hitalian hprevb hdoubled hdecl hcomp hform]
    split_ifs with hlong
    · -- the doubled word leaves its buffer
      refine ⟨fun ⟨r, hr, _⟩ => (by cases hr), fun hattach => ?_⟩
      cases hattach with
      | joined _ hlength => exact absurd hlong (not_le.mpr hlength)
      | cut _ hlength => exact absurd hlong (not_le.mpr hlength)
      | unchanged hind => cases hdecl.symm.trans hind
    · rw [not_le] at hlong
      have htmp := (doubleCons_length word).trans_lt hlong
      rcases jointForm_word htmp hform with ⟨hkept, hnone⟩ | ⟨hraw, hrho, hform'⟩
      · rw [joinForm_kept hkept hword, doubleCons_nil_iff]
        constructor
        · rintro ⟨hfirst, hfits⟩
          exact .joined hdecl hlong hfirst hnone hfits
        · intro hattach
          cases hattach with
          | joined _ _ hfirst _ hfits => exact ⟨hfirst, hfits⟩
          | cut _ _ hraw hrho =>
            rcases hnone with hraw' | hnone
            · cases hraw'.symm.trans hraw
            · exact absurd hrho hnone
          | unchanged hind => cases hdecl.symm.trans hind
      · have hlead := doubleCons_nil_of_rho hrho.1
        rw [hlead, hraw, joinForm_rho hform' (stripbreath_strip _) (stripbreath_ne_nil_of_rho hrho.1) hword]
        constructor
        · rintro ⟨hfull, hrow⟩
          exact .cut hdecl hlong hraw hrho hfull hrow
        · intro hattach
          cases hattach with
          | joined _ _ _ hnone =>
            rcases hnone with hraw' | hnone
            · cases hraw'.symm.trans hraw
            · exact absurd hrho hnone
          | cut _ _ _ _ hfull hrow => exact ⟨hfull, hrow⟩
          | unchanged hind => cases hdecl.symm.trans hind

/-- The composed preverb is left before the whole word, with its consonant doubled, if and only if
they can be attached; not where letters stand before the consonant, since the pointer that is moved to
it is written through. -/
theorem rstprevb_attached_iff (hlatin : language ≠ latin) (hitalian : language ≠ italian)
    (hprevb : prevb ≠ []) (hdoubled : hasMorphflag oddpb doubledCons = true)
    (hword : word.length < maxWordSize) :
    Attached language entries word prevb oddpb ↔
      ∃ depth comp form,
        compoundedDoubled language entries depth word prevb oddpb = some (.ok comp) ∧
          jointForm (doubleCons word).2 comp (hasMorphflag oddpb rawPreverb) = some form ∧
            Attachable word oddpb comp form := by
  constructor
  · rintro ⟨depth, comp, form, r, hcomp, hform, hr, htext⟩
    exact ⟨depth, comp, form, hcomp, hform,
      (rstprevb_word_iff hlatin hitalian hprevb hdoubled hword hcomp hform).mp ⟨r, hr, htext⟩⟩
  · rintro ⟨depth, comp, form, hcomp, hform, hattach⟩
    obtain ⟨r, hr, htext⟩ :=
      (rstprevb_word_iff hlatin hitalian hprevb hdoubled hword hcomp hform).mpr hattach
    exact ⟨depth, comp, form, r, hcomp, hform, hr, htext⟩

theorem not_attached_of_lead (hlatin : language ≠ latin) (hitalian : language ≠ italian)
    (hprevb : prevb ≠ []) (hdoubled : hasMorphflag oddpb doubledCons = true)
    (hdecl : hasMorphflag oddpb indeclform = false) (hword : word.length < maxWordSize)
    (hlead : (doubleCons word).1 ≠ []) : ¬Attached language entries word prevb oddpb := by
  rintro ⟨depth, comp, form, r, hcomp, hform, hr, htext⟩
  have hattach := (rstprevb_word_iff hlatin hitalian hprevb hdoubled hword hcomp hform).mp ⟨r, hr, htext⟩
  cases hattach with
  | joined _ _ hfirst => exact hlead (doubleCons_nil_iff.mpr hfirst)
  | cut _ _ _ hrho => exact hlead (doubleCons_nil_of_rho hrho.1)
  | unchanged hind => cases hdecl.symm.trans hind

/-- The preverb `a)po/` is not left before the word `ali/skw` with its consonant doubled. -/
theorem rstprevb_aliskw : ¬∀ (entries : List RawPreverb) (word prevb : Bytes) (oddpb : MorphFlags),
    prevb ≠ [] → hasMorphflag oddpb doubledCons = true → hasMorphflag oddpb indeclform = false →
      word.length < maxWordSize → Attached greek entries word prevb oddpb := by
  intro h
  refine @not_attached_of_lead (ascii "ali/skw") (ascii "a)po/") (addMorphflag (fun _ => 0) doubledCons)
    greek [] (by decide) (by decide) (by decide) (by decide) (by decide) (by decide) (by decide) ?_
  exact h [] _ _ _ (by decide) (by decide) (by decide) (by decide)

/-- Before `lei/pw` it is. -/
theorem rstprevb_attached_iff_leipw : Attached greek [] (ascii "lei/pw") (ascii "a)po/")
    (addMorphflag (fun _ => 0) doubledCons) :=
  (rstprevb_attached_iff (by decide) (by decide) (by decide) (by decide) (by decide)).mpr
    ⟨4, ⟨ascii "a)po", addMorphflag (fun _ => 0) doubledCons, false⟩,
      ⟨ascii "llei/pw", ascii "a)po", addMorphflag (fun _ => 0) doubledCons, false⟩,
      rfl, rfl,
      .joined (by decide) (by decide) (by decide +kernel) (.inr fun hrho => absurd hrho.1 (by decide))
        (by decide +kernel)⟩

end Doubled

end Morpheus
