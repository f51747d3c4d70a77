import Morpheus.Augments

/-!
# Accents of endings

`AccComposForm` clears the string of an ending record and composes it again with an accent, which
`FixPersAcc2` and `fixnacc2` place.
-/
namespace Morpheus

/-- `SUFF_ACC` -/
def suffAcc : ℕ := 5

/-- `ANT_ACC` -/
def antAcc : ℕ := 9

/-- `NEEDS_ACCENT` -/
def needsAccent : ℕ := 17

/-- `PROCLITIC` -/
def proclitic : ℕ := 23

/-- `INDECLFORM` -/
def indeclform : ℕ := 35

/-- `INDECL` of `stemtype.h` -/
def indecl : UInt32 := 0o4000

section Forms

/-- `GENITIVE` -/
def genitive : BitVec 6 := 0o2

/-- `DATIVE` -/
def dative : BitVec 6 := 0o4

/-- `DUAL` -/
def dual : BitVec 3 := 0o2

/-- `diphth_end`; a stem and ending that do not fit together fail again where they are joined. -/
def diphthEnd (stem endstring : Bytes) : Bool :=
  match appendText stem maxWordSize endstring with
  | none => false
  | some tmp =>
    match getsyll tmp 0 with
    | none => false
    | some s => 0 < s ∧ isVowel (tmp.getD s 0) ∧ isVowel (tmp.getD (s - 1) 0) ∧
        nsylls (tmp.take (s - 1)) ≠ 0

/-- `is_thirdmono`, with `is_mono_stem` -/
def isThirdmono (stemgstr endgstr : GkString) (stem endstring : Bytes) (formInfo : WordForm)
    (isEnding : Bool) : Bool :=
  if isEnding ∧ stem = [] then false
  else if stemgstr.stemtype &&& nounStem = 0 then false
  else if stemgstr.stemtype &&& decl3 ≠ 0 ∧ nsylls stem + nsylls endstring = 2 then
    if hasMorphflag stemgstr.morphflags contracted ∨ hasMorphflag endgstr.morphflags contracted then
      false
    else if diphthEnd stem endstring ∧ formInfo.number ≠ dual then false
    else formInfo.case_ &&& genitive ≠ 0 ∨ formInfo.case_ &&& dative ≠ 0
  else false

/-- `antepen_form` -/
def antepenForm (gstring : GkString) : Bool := hasMorphflag gstring.morphflags antAcc

/-- `getsyll2` -/
def getsyll2 (word : Bytes) (syll : ℕ) : Option ℕ :=
  if nsylls word = 0 then some 0
  else (getsyll word syll).map fun p => if isDiphthAt word p then p - 1 else p

end Forms

section Accentuation

/-- `fixnacc2`; it takes what it is given for an ending. -/
def fixnacc2 (language : ℤ) (gstring : GkString) (formInfo : WordForm) (isOblique : Bool)
    (targstring : Bytes) : Bytes :=
  let optional := hasMorphflag gstring.morphflags accentOptional
  let isContr := hasMorphflag gstring.morphflags contracted
  if language = latin ∨ language = italian then targstring
  else if hasaccent targstring then targstring
  else if getquantity targstring 0 true isOblique = some .long ∨ nsylls targstring = 1 ∧ isContr then
    if getsyll targstring 1 = none then
      if optional then targstring
      else if ulttakescirc gstring formInfo then addaccentAt targstring 61 (getsyll targstring 0)
      else addaccentAt targstring 47 (getsyll targstring 0)
    else addaccentAt targstring 47 (getsyll targstring 1)
  else if getsyll targstring 2 ≠ none then addaccentAt targstring 47 (getsyll targstring 2)
  else if optional then targstring
  else
    let place := if getsyll targstring 1 = none then getsyll targstring 0 else getsyll targstring 1
    if getquantity targstring 1 true (isOblique && !isContr) = some .long ∧
        !hasMorphflag gstring.morphflags enclitic then
      addaccentAt targstring 61 place
    else addaccentAt targstring 47 place

/-- A part of the text from a place on is accented by itself. -/
def accentFrom (accented : Bytes → Bytes) (text : Bytes) (p : ℕ) : Bytes :=
  text.take p ++ accented (text.drop p)

/-- Stem and ending, and whether the error of a text that does not fit was recorded. -/
def joinEnding (stem endstring : Bytes) : Bytes × Bool :=
  match appendText (xstrncpy stem maxWordSize) maxWordSize endstring with
  | some word => (word, false)
  | none => ([], true)

/-- The accent on a stem that keeps it on its last syllable. -/
def penultAccent (stemgstr : GkString) (mflags : MorphFlags) (workstem endstring : Bytes)
    (isOblique : Bool) : Bytes :=
  let p := getsyll workstem 0
  if nsylls endstring = 1 ∧ quantprim workstem 0 false isOblique = some .long ∧
      quantprim endstring 0 true isOblique = some .short ∧ !hasMorphflag mflags enclitic then
    if hasMorphflag mflags accentOptional then workstem else addaccentAt workstem 61 p
  else if quantprim endstring 0 true isOblique = some .long ∨ nsylls endstring = 2 then
    addaccentAt workstem 47 p
  else if quantprim workstem 0 false isOblique = some .long ∧
      hasMorphflag stemgstr.morphflags contracted then
    addaccentAt workstem 61 p
  else addaccentAt workstem 47 p

/-- The accent on a stem that keeps it on the syllable before. -/
def antepenAccent (mflags : MorphFlags) (workstem endstring : Bytes) (isOblique : Bool) : Bytes :=
  let p := getsyll workstem 1
  if nsylls endstring = 0 ∧ getquantity workstem 1 false isOblique = some .long ∧
      getquantity workstem 0 false isOblique = some .short ∧ !hasMorphflag mflags enclitic then
    addaccentAt workstem 61 p
  else if nsylls endstring > 1 ∨ getquantity endstring 0 true isOblique = some .long then
    addaccentAt workstem 47 (getsyll workstem 0)
  else addaccentAt workstem 47 p

/-- `FixPersAcc2`: the word, and whether an error was recorded. -/
def fixPersAcc2 (language : ℤ) (gstring : GkString) (mflags : MorphFlags) (stemgstr : GkString)
    (endstring : Bytes) (formInfo : WordForm) (isEnding : Bool) : Bytes × Bool :=
  let stem := stemgstr.gkstring
  let workstem := xstrncpy stem maxWordSize
  let isOblique : Bool := formInfo.case_ = genitive ∨ formInfo.case_ = dative
  let thirdmono := isThirdmono stemgstr gstring stem endstring formInfo isEnding
  let accented := fixnacc2 language gstring formInfo isOblique
  if language = latin ∨ language = italian then joinEnding stem endstring
  else if nsylls stem = 0 ∧ nsylls endstring = 0 then joinEnding stem endstring
  else if hasMorphflag mflags proclitic then (workstem, false)
  else if hasaccent endstring ∨ hasaccent stem then joinEnding stem endstring
  else if hasMorphflag mflags accentOptional ∧ hasMorphflag mflags enclitic then
    joinEnding stem endstring
  else if thirdmono ∧ nsylls endstring = 2 then
    if hasMorphflag mflags accentOptional then joinEnding stem endstring
    else
      match getsyll endstring 0 with
      | none => ((joinEnding stem endstring).1, true)
      | some ep =>
        joinEnding stem
          (accentFrom accented endstring (if isDiphthAt endstring ep then ep - 1 else ep))
  else if hasMorphflag stemgstr.morphflags suffAcc ∨ thirdmono ∨ nsylls stem = 0 then
    if 1 ≤ nsylls endstring then
      joinEnding stem (if naccents endstring = 0 then accented endstring else endstring)
    else
      match joinEnding stem endstring with
      | (_, true) => ([], true)
      | (tmp, false) =>
        match getsyll2 tmp 0 with
        | none => ([], false)
        | some p => (xstrncpy (accentFrom accented tmp p) maxWordSize, false)
  else if penultForm stemgstr formInfo ∨ hasMorphflag gstring.morphflags stemAcc ∨ nsylls stem = 1 then
    joinEnding (penultAccent stemgstr mflags workstem endstring isOblique) endstring
  else if antepenForm stemgstr then
    joinEnding (antepenAccent mflags workstem endstring isOblique) endstring
  else
    match joinEnding stem endstring with
    | (_, true) => ([], true)
    | (tmp, false) => (xstrncpy (accented tmp) maxWordSize, false)

/-- The `*` at the end of a text is taken off. -/
def dropStar (word : Bytes) : Bytes := if word.getLast? = some 42 then word.dropLast else word

/-- `FixPersAcc`: a null ending is written `*`. -/
def fixPersAcc (language : ℤ) (gstring : GkString) (mflags : MorphFlags) (stemgstr : GkString)
    (endstring : Bytes) (formInfo : WordForm) (isEnding : Bool) : Bytes × Bool :=
  let word := fixPersAcc2 language gstring mflags stemgstr endstring formInfo isEnding
  (dropStar word.1, word.2)

/-- What stands up to a `!` with it, and behind it. -/
def splitBang (s : Bytes) : Bytes × Bytes :=
  if s.contains 33 then ((s.takeWhile (· != 33)) ++ [33], (s.dropWhile (· != 33)).tail)
  else ([], s)

/-- The end of `AccComposForm` -/
def finishAccent (hadStemAcc hadSuffAcc : Bool) (gstr : GkString) : GkString :=
  let flags := if hadSuffAcc then addMorphflag gstr.morphflags suffAcc else gstr.morphflags
  let flags := if hadStemAcc then addMorphflag flags stemAcc else flags
  let flags := zapMorphflag (zapMorphflag flags accentOptional) needsAccent
  let flags :=
    if (hasaccent gstr.gkstring ∨ 1 < nsylls gstr.gkstring) ∧ hasMorphflag flags stemAcc then
      zapMorphflag flags stemAcc
    else flags
  { gstr with morphflags := flags }

/-- A flag that `AccComposForm` takes from the ending of a form that is inflected. -/
def takeFlag (flags : MorphFlags) (n : ℕ) : Bool × MorphFlags :=
  if hasMorphflag flags n ∧ !hasMorphflag flags indeclform then (true, zapMorphflag flags n)
  else (false, flags)

/-- The record with its string cleared, and whether `STEM_ACC` and `SUFF_ACC` were taken from it. -/
def clearEnding (gstr : GkString) : GkString × Bool × Bool :=
  let flags :=
    if gstr.gkstring.contains 33 then
      zapMorphflag (addMorphflag gstr.morphflags needsAccent) accentOptional
    else gstr.morphflags
  let stem := takeFlag flags stemAcc
  let suff := takeFlag stem.2 suffAcc
  ({ gstr with gkstring := [], morphflags := suff.2 }, stem.1, suff.1)

/-- `AccComposForm`: the record, and whether an error was recorded. The string of the record is
cleared before its syllables are counted. The guard of the branch of `FixPersAcc` also tests
`stemtype|INDECL`, which is never 0, so that the branch of `FixRecAcc` is not reached. -/
def accComposForm (language : ℤ) (gstr : GkString) : GkString × Bool :=
  if hasMorphflag gstr.morphflags enclitic then (finishAccent false false gstr, false)
  else
    let (prefword, p) := splitBang gstr.gkstring
    let (cleared, hadStemAcc, hadSuffAcc) := clearEnding gstr
    let word := fixPersAcc language cleared cleared.morphflags cleared p cleared.forminfo
      (!hasMorphflag cleared.morphflags indeclform)
    if word.1 = [] then (finishAccent hadStemAcc hadSuffAcc cleared, word.2)
    else
      match appendText prefword maxWordSize word.1 with
      | none => (gstr, true)
      | some text => (finishAccent hadStemAcc hadSuffAcc { cleared with gkstring := text }, word.2)

end Accentuation

section Letters
variable {language : ℤ} {gstring : GkString} {formInfo : WordForm} {isOblique : Bool}
  {word result text : Bytes} {accent : Byte} {syll p : ℕ}

/-- The letters of a text: accents, quantity marks and the `*` of a null ending are taken off. -/
def bareText (s : Bytes) : Bytes := dropStar (stripquantacc s)

theorem stripquantacc_eq (s : Bytes) : stripquantacc s = s.filter fun c => !isQuant c && !isAccent c := by
  rw [stripquantacc, stripquant_eq_filter, stripacc, List.filter_filter]
  exact List.filter_congr fun c _ => Bool.and_comm _ _

theorem stripquantacc_append (s t : Bytes) :
    stripquantacc (s ++ t) = stripquantacc s ++ stripquantacc t := by
  simp only [stripquantacc_eq, List.filter_append]

theorem fixnacc2_cases (language : ℤ) (gstring : GkString) (formInfo : WordForm) (isOblique : Bool)
    (word : Bytes) :
    fixnacc2 language gstring formInfo isOblique word = word ∨
      ∃ accent syll p, (accent = 47 ∨ accent = 61) ∧ getsyll word syll = some p ∧
        fixnacc2 language gstring formInfo isOblique word = addaccent word accent p := by
  have hplaced : ∀ (accent : Byte) (syll : ℕ), accent = 47 ∨ accent = 61 →
      addaccentAt word accent (getsyll word syll) = word ∨
        ∃ accent' syll' p, (accent' = 47 ∨ accent' = 61) ∧ getsyll word syll' = some p ∧
          addaccentAt word accent (getsyll word syll) = addaccent word accent' p := by
    intro accent syll haccent
    cases hp : getsyll word syll with
    | none => exact .inl rfl
    | some p => exact .inr ⟨accent, syll, p, haccent, hp, rfl⟩
  unfold fixnacc2
  dsimp only
  split_ifs <;> first | exact .inl rfl | exact hplaced _ _ (.inl rfl) | exact hplaced _ _ (.inr rfl)

/-- What an accent leaves of a text: all but accents and quantity marks, whether a `*` ends it, and
its length up to one byte. -/
structure Accented (word result : Bytes) : Prop where
  strip : stripquantacc result = stripquantacc word
  star : result.getLast? = some 42 ↔ word.getLast? = some 42
  length : result.length = word.length ∨ result.length = word.length + 1

theorem Accented.refl (word : Bytes) : Accented word word := ⟨rfl, .rfl, .inl rfl⟩

theorem StandsAt.accented (h : StandsAt word accent p result) (haccent : accent = 47 ∨ accent = 61)
    (hp : getsyll word syll = some p) : Accented word result := by
  obtain ⟨-, front, vowel, back, hfront, hat⟩ := getsyll_eq_some.mp hp
  have hmark : isAccent accent = true := by rcases haccent with rfl | rfl <;> decide
  have hstar : accent ≠ 42 := by rcases haccent with rfl | rfl <;> decide
  rcases h with ⟨pre, v, marks, long, rest, hpre, hword, hresult, hmarks, hlong⟩ |
      ⟨b, rest, hb, hword, hresult, hplace⟩
  · have hv : v ≠ 42 := by
      have hsplit : pre ++ v :: (marks ++ long ++ rest) = front ++ vowel :: back :=
        hword.symm.trans hat.split
      obtain ⟨-, htail⟩ := List.append_inj hsplit (by omega)
      rw [List.cons.injEq] at htail
      rintro rfl
      exact absurd (htail.1 ▸ hat.vowel) (by decide)
    have hbare : ∀ c ∈ v :: (marks ++ long), c ≠ 42 := by
      intro c hc
      rw [List.mem_cons, List.mem_append] at hc
      rcases hc with rfl | hc | hc
      · exact hv
      · rintro rfl
        exact absurd (hmarks _ hc) (by decide)
      · rcases hlong with rfl | ⟨-, rfl⟩
        · simp at hc
        · rw [List.mem_singleton.mp hc]
          decide
    refine ⟨?_, ?_, ?_⟩
    · rw [hword, hresult]
      simp only [stripquantacc_eq]
      rcases hlong with rfl | ⟨-, rfl⟩ <;> simp [List.filter_cons, hmark, isQuant]
    · rw [hword, hresult]
      by_cases hrest : rest = []
      · have hlast : ¬(v :: (marks ++ long)).getLast? = some 42 := fun h =>
          hbare _ (List.mem_of_getLast? h) rfl
        have hwritten : pre ++ v :: (marks ++ [accent]) = (pre ++ v :: marks) ++ [accent] := by simp
        rw [hrest, hwritten, List.getLast?_concat, List.append_nil, List.getLast?_append_cons]
        simp [hstar, hlast]
      · have hleft : pre ++ v :: (marks ++ accent :: rest) = (pre ++ v :: (marks ++ [accent])) ++ rest := by simp
        have hright : pre ++ v :: (marks ++ long ++ rest) = (pre ++ v :: (marks ++ long)) ++ rest := by simp
        rw [hleft, hright, List.getLast?_append_of_ne_nil _ hrest, List.getLast?_append_of_ne_nil _ hrest]
    · rw [hword, hresult]
      rcases hlong with rfl | ⟨-, rfl⟩ <;> simp only [List.length_append, List.length_cons, List.length_nil] <;> omega
  · have hrest : rest ≠ [] := by
      rintro rfl
      have hlen := congrArg List.length hat.split
      rw [hword] at hlen
      rcases hplace with rfl | ⟨rfl, -⟩ <;> simp at hlen <;> omega
    refine ⟨?_, ?_, ?_⟩
    · rw [hword, hresult]
      simp only [stripquantacc_eq]
      simp [List.filter_cons, hmark]
    · have hleft : 42 :: b :: accent :: rest = [42, b, accent] ++ rest := rfl
      have hright : 42 :: b :: rest = [42, b] ++ rest := rfl
      rw [hword, hresult, hleft, hright, List.getLast?_append_of_ne_nil _ hrest,
        List.getLast?_append_of_ne_nil _ hrest]
    · rw [hword, hresult]
      simp

theorem fixnacc2_accented (language : ℤ) (gstring : GkString) (formInfo : WordForm) (isOblique : Bool)
    (word : Bytes) : Accented word (fixnacc2 language gstring formInfo isOblique word) := by
  rcases fixnacc2_cases language gstring formInfo isOblique word with h | ⟨accent, syll, p, haccent, hp, h⟩
  · rw [h]
    exact .refl word
  · rw [h]
    exact (addaccent_standsAt hp).accented haccent hp

theorem Accented.behind (h : Accented word result) (front : Bytes) (hword : word ≠ []) :
    Accented (front ++ word) (front ++ result) := by
  have hresult : result ≠ [] := by
    rintro rfl
    have hlen := h.length
    have := List.length_pos_of_ne_nil hword
    simp at hlen
    omega
  refine ⟨?_, ?_, ?_⟩
  · rw [stripquantacc_append, stripquantacc_append, h.strip]
  · rw [List.getLast?_append_of_ne_nil _ hresult, List.getLast?_append_of_ne_nil _ hword]
    exact h.star
  · simp only [List.length_append]
    rcases h.length with h | h <;> omega

end Letters

section Endings
variable {language : ℤ} {gstring : GkString} {mflags : MorphFlags} {formInfo : WordForm}
  {isEnding : Bool} {word text : Bytes} {c : Byte}

/-- The end string as `FixPersAcc2` leaves it when the stem is empty. -/
def endingAccent (language : ℤ) (gstring : GkString) (formInfo : WordForm) (isEnding : Bool)
    (text : Bytes) : Bytes :=
  let isOblique : Bool := formInfo.case_ = genitive ∨ formInfo.case_ = dative
  let accented := fixnacc2 language gstring formInfo isOblique
  if language = latin ∨ language = italian ∨ nsylls text = 0 ∨ hasaccent text then text
  else if isThirdmono gstring gstring [] text formInfo isEnding ∧ nsylls text = 2 then
    if hasMorphflag gstring.morphflags accentOptional then text
    else
      match getsyll text 0 with
      | none => text
      | some ep => accentFrom accented text (if isDiphthAt text ep then ep - 1 else ep)
  else accented text

theorem endingAccent_accented (language : ℤ) (gstring : GkString) (formInfo : WordForm)
    (isEnding : Bool) (text : Bytes) :
    Accented text (endingAccent language gstring formInfo isEnding text) ∧
      (nsylls text = 0 → endingAccent language gstring formInfo isEnding text = text) := by
  unfold endingAccent
  dsimp only
  split
  · exact ⟨.refl text, fun _ => rfl⟩
  · next hsylls =>
    refine ⟨?_, fun h => absurd (.inr (.inr (.inl h))) hsylls⟩
    split
    · split
      · exact .refl text
      · split
        · exact .refl text
        · next ep hep =>
          obtain ⟨-, pre, v, post, hpre, hat⟩ := getsyll_eq_some.mp hep
          generalize hplace : (if isDiphthAt text ep then ep - 1 else ep) = place
          have hlt : place < text.length := by
            rw [hat.split, ← hplace]
            simp only [List.length_append, List.length_cons]
            split <;> omega
          have hrest : text.drop place ≠ [] := by
            rw [Ne, List.drop_eq_nil_iff]
            omega
          have h := (fixnacc2_accented language gstring formInfo
            (formInfo.case_ = genitive ∨ formInfo.case_ = dative : Bool) (text.drop place)).behind
            (text.take place) hrest
          rwa [List.take_append_drop] at h
    · exact fixnacc2_accented ..

theorem fixPersAcc2_ending (hstem : gstring.gkstring = [])
    (henclitic : hasMorphflag gstring.morphflags enclitic = false) :
    fixPersAcc2 language gstring gstring.morphflags gstring text formInfo isEnding =
      if ¬(language = latin ∨ language = italian) ∧ nsylls text ≠ 0 ∧
          hasMorphflag gstring.morphflags proclitic then ([], false)
      else joinEnding [] (endingAccent language gstring formInfo isEnding text) := by
  have hsylls : nsylls [] = 0 := rfl
  have hplain : hasaccent [] = false := rfl
  have hcut : xstrncpy [] maxWordSize = [] := rfl
  unfold fixPersAcc2 endingAccent
  simp only [hstem, hsylls, hplain, hcut, henclitic, true_and, and_false, or_false, or_true, if_true,
    if_false, Bool.false_eq_true]
  by_cases hlanguage : language = latin ∨ language = italian
  · rw [if_pos hlanguage, if_neg (fun h => h.1 hlanguage), if_pos (by tauto)]
  · rw [if_neg hlanguage]
    by_cases hzero : nsylls text = 0
    · rw [if_pos hzero, if_neg (fun h => h.2.1 hzero), if_pos (by tauto)]
    · rw [if_neg hzero]
      by_cases hproclitic : hasMorphflag gstring.morphflags proclitic = true
      · rw [if_pos hproclitic, if_pos ⟨hlanguage, hzero, hproclitic⟩]
      · have hkept : ¬(¬(language = latin ∨ language = italian) ∧ nsylls text ≠ 0 ∧
            hasMorphflag gstring.morphflags proclitic = true) := fun h => hproclitic h.2.2
        rw [if_neg hproclitic, if_neg hkept]
        by_cases haccent : hasaccent text = true
        · rw [if_pos haccent, if_pos (by tauto)]
        · have hcount : naccents text = 0 := by
            rw [naccents, List.countP_eq_zero]
            intro c hc hmark
            exact haccent (List.any_eq_true.mpr ⟨c, hc, hmark⟩)
          have hbare : ¬(language = latin ∨ language = italian ∨ nsylls text = 0 ∨ hasaccent text = true) := by
            tauto
          rw [if_neg haccent, if_neg hbare, if_pos hcount]
          split
          · split
            · rfl
            · split
              · next hnone =>
                rw [getsyll_eq_none (by decide)] at hnone
                omega
              · rfl
          · rw [if_pos (show 1 ≤ nsylls text by omega)]

theorem joinEnding_nil (word : Bytes) :
    joinEnding [] word = if word.length < maxWordSize then (word, false) else ([], true) := by
  have hcut : xstrncpy [] maxWordSize = [] := rfl
  rw [joinEnding, hcut, appendText]
  split_ifs with hlong hfits hfits <;> simp at hlong ⊢ <;> omega

theorem takeFlag_other (flags : MorphFlags) {m n : ℕ} (hm : m < 112) (hne : n ≠ m) :
    hasMorphflag (takeFlag flags (m + 1)).2 (n + 1) = hasMorphflag flags (n + 1) := by
  unfold takeFlag
  split
  · simp [hasMorphflag_succ, flagAt_zapMorphflag _ hm, hne]
  · rfl

theorem clearEnding_flag (gstr : GkString) {n : ℕ} (hn : n ∉ [4, 5, 15, 16]) :
    hasMorphflag (clearEnding gstr).1.morphflags (n + 1) = hasMorphflag gstr.morphflags (n + 1) := by
  simp only [List.mem_cons, List.not_mem_nil, or_false, not_or] at hn
  have hsuff : ∀ flags, hasMorphflag (takeFlag flags suffAcc).2 (n + 1) = hasMorphflag flags (n + 1) :=
    fun flags => takeFlag_other flags (by decide) hn.1
  have hstem : ∀ flags, hasMorphflag (takeFlag flags stemAcc).2 (n + 1) = hasMorphflag flags (n + 1) :=
    fun flags => takeFlag_other flags (by decide) hn.2.1
  simp only [clearEnding, hsuff, hstem]
  split
  · rw [hasMorphflag_succ, hasMorphflag_succ, accentOptional, needsAccent,
      flagAt_zapMorphflag _ (by decide), flagAt_addMorphflag _ (by decide)]
    simp [hn.2.2.1, hn.2.2.2]
  · rfl

theorem mem_dropStar (h : c ∈ word) (hc : c ≠ 42) : c ∈ dropStar word := by
  unfold dropStar
  split
  · next hstar =>
    obtain ⟨front, rfl⟩ := List.getLast?_eq_some_iff.mp hstar
    rw [List.dropLast_concat]
    simpa [hc] using h
  · exact h

theorem bareText_ne_nil (h : c ∈ word) (hc : c ≠ 42 ∧ isQuant c = false ∧ isAccent c = false) :
    bareText word ≠ [] := by
  apply List.ne_nil_of_mem
  refine mem_dropStar ?_ hc.1
  rw [stripquantacc_eq, List.mem_filter]
  exact ⟨h, by simp [hc.2]⟩

theorem plain_of_vowel (h : isVowel c = true) : c ≠ 42 ∧ isQuant c = false ∧ isAccent c = false := by
  revert c
  refine @forall_byte _ ?_
  decide +kernel

theorem bareText_of_nsylls (front : Bytes) (h : nsylls text ≠ 0) : bareText (front ++ text) ≠ [] := by
  have hsome : getsyll text 0 ≠ none := by
    rw [Ne, getsyll_eq_none (by decide)]
    omega
  obtain ⟨p, hp⟩ := Option.ne_none_iff_exists'.mp hsome
  obtain ⟨-, pre, v, post, -, hat⟩ := getsyll_eq_some.mp hp
  refine bareText_ne_nil (c := v) ?_ (plain_of_vowel hat.vowel)
  rw [hat.split]
  simp

/-- A `*` at the end of a text behind another one. -/
def doubleStar (text : Bytes) : Prop :=
  text.getLast? = some 42 ∧ (stripquantacc text.dropLast).getLast? = some 42

theorem dropStar_eq_self_iff : dropStar word = word ↔ word.getLast? ≠ some 42 := by
  unfold dropStar
  split
  · next hstar =>
    obtain ⟨front, rfl⟩ := List.getLast?_eq_some_iff.mp hstar
    simp
  · next hstar => simp [hstar]

theorem dropStar_concat (word : Bytes) : dropStar (word ++ [42]) = word := by simp [dropStar]

/-- Taking a final `*` off an accented text changes its letters only where another stands before it. -/
theorem bareText_accented_iff {front : Bytes} (h : Accented text word)
    (hfront : (stripquantacc front).getLast? ≠ some 42) :
    bareText (front ++ dropStar word) = bareText (front ++ text) ↔ ¬doubleStar text := by
  by_cases hstar : text.getLast? = some 42
  · obtain ⟨bare, rfl⟩ := List.getLast?_eq_some_iff.mp hstar
    obtain ⟨written, rfl⟩ := List.getLast?_eq_some_iff.mp (h.star.mpr hstar)
    have hfinal : stripquantacc [42] = [42] := by decide
    have hstrip : stripquantacc written = stripquantacc bare := by
      have hboth := h.strip
      rw [stripquantacc_append, stripquantacc_append] at hboth
      exact List.append_cancel_right hboth
    have hlast : (stripquantacc front ++ stripquantacc bare).getLast? = some 42 ↔
        (stripquantacc bare).getLast? = some 42 := by
      rw [List.getLast?_append]
      cases hbare : (stripquantacc bare).getLast? <;> simp [hfront]
    rw [dropStar_concat, bareText, bareText, ← List.append_assoc, stripquantacc_append, hstrip,
      stripquantacc_append (front ++ bare), hfinal, dropStar_concat, stripquantacc_append,
      dropStar_eq_self_iff, Ne, hlast, doubleStar, List.dropLast_concat]
    simp
  · have hword : dropStar word = word := dropStar_eq_self_iff.mpr fun hend => hstar (h.star.mp hend)
    rw [hword, bareText, bareText, stripquantacc_append, stripquantacc_append, h.strip]
    simp [doubleStar, hstar]

theorem splitBang_eq (s : Bytes) : s = (splitBang s).1 ++ (splitBang s).2 ∧
    ((splitBang s).1 = [] ∧ 33 ∉ s ∨ (splitBang s).1.getLast? = some 33 ∧ 33 ∈ s) := by
  unfold splitBang
  by_cases hbang : (33 : Byte) ∈ s
  · obtain ⟨a, b, rfl, ha⟩ := List.eq_append_cons_of_mem hbang
    have hfront : ∀ c ∈ a, (c != 33) = true := by
      intro c hc
      rw [bne_iff_ne]
      rintro rfl
      exact ha hc
    have htake : (a ++ 33 :: b).takeWhile (· != 33) = a := by
      rw [List.takeWhile_append_of_pos hfront, List.takeWhile_cons_of_neg (by decide), List.append_nil]
    have hdrop : (a ++ 33 :: b).dropWhile (· != 33) = 33 :: b := by
      rw [List.dropWhile_append_of_pos hfront, List.dropWhile_cons_of_neg (by decide)]
    rw [if_pos (by simp), htake, hdrop]
    simp
  · simp [hbang]

theorem finishAccent_gkstring (hadStemAcc hadSuffAcc : Bool) (gstr : GkString) :
    (finishAccent hadStemAcc hadSuffAcc gstr).gkstring = gstr.gkstring := rfl

/-- The end string of a record as `AccComposForm` accents it. -/
def composedEnding (language : ℤ) (gstr : GkString) : Bytes :=
  endingAccent language (clearEnding gstr).1 gstr.forminfo
    (!hasMorphflag gstr.morphflags indeclform) (splitBang gstr.gkstring).2

variable {gstr : GkString}

/-- The record is one of a proclitic, and `FixPersAcc2` leaves its syllables out. -/
def procliticLost (language : ℤ) (gstr : GkString) : Prop :=
  ¬(language = latin ∨ language = italian) ∧ nsylls (splitBang gstr.gkstring).2 ≠ 0 ∧
    hasMorphflag gstr.morphflags proclitic = true

instance : Decidable (procliticLost language gstr) :=
  inferInstanceAs (Decidable (¬(_ ∨ _) ∧ _ ≠ _ ∧ _ = true))

theorem fixPersAcc_cleared (henclitic : hasMorphflag gstr.morphflags enclitic = false) :
    (fixPersAcc language (clearEnding gstr).1 (clearEnding gstr).1.morphflags (clearEnding gstr).1
      (splitBang gstr.gkstring).2 (clearEnding gstr).1.forminfo
      (!hasMorphflag (clearEnding gstr).1.morphflags indeclform)).1 =
      if procliticLost language gstr ∨ maxWordSize ≤ (composedEnding language gstr).length then []
      else dropStar (composedEnding language gstr) := by
  have hform : (clearEnding gstr).1.forminfo = gstr.forminfo := rfl
  have hindecl := clearEnding_flag gstr (n := 34) (by decide)
  have hproclitic := clearEnding_flag gstr (n := 22) (by decide)
  have hflag := (clearEnding_flag gstr (n := 2) (by decide)).trans henclitic
  have hnil : dropStar [] = [] := rfl
  rw [fixPersAcc, fixPersAcc2_ending rfl hflag, hform, joinEnding_nil]
  rw [show indeclform = 34 + 1 from rfl, hindecl, show proclitic = 22 + 1 from rfl, hproclitic]
  change dropStar (if procliticLost language gstr then ([], false) else
    if (composedEnding language gstr).length < maxWordSize then (composedEnding language gstr, false)
    else ([], true)).1 = _
  by_cases hlost : procliticLost language gstr
  · rw [if_pos hlost, if_pos (.inl hlost), hnil]
  · rw [if_neg hlost]
    by_cases hroom : (composedEnding language gstr).length < maxWordSize
    · rw [if_pos hroom, if_neg (by simp only [hlost, false_or]; omega)]
    · rw [if_neg hroom, if_pos (by simp only [hlost, false_or]; omega), hnil]

theorem accComposForm_gkstring
    (henclitic : hasMorphflag gstr.morphflags enclitic = false) {word : Bytes}
    (hword : word = if procliticLost language gstr ∨ maxWordSize ≤ (composedEnding language gstr).length
      then [] else dropStar (composedEnding language gstr)) :
    (accComposForm language gstr).1.gkstring =
      if word = [] then []
      else (appendText (splitBang gstr.gkstring).1 maxWordSize word).getD gstr.gkstring := by
  have hfixed := @fixPersAcc_cleared language gstr henclitic
  simp only [← hword] at hfixed
  unfold accComposForm
  rw [if_neg (by rw [henclitic]; simp)]
  simp only [hfixed]
  split
  · rfl
  · split
    · next hnone => rw [hnone, Option.getD_none]
    · next text hsome => rw [hsome, Option.getD_some, finishAccent_gkstring]

/-- When `AccComposForm` keeps the letters of a record that is not enclitic: it is not that of a
proclitic with syllables, what stands behind a `!` is not empty and no null ending, no `*` stands
before the one at the end, and its accent fits the word buffer with it. -/
structure KeepsLetters (language : ℤ) (gstr : GkString) : Prop where
  proclitic : ¬procliticLost language gstr
  bang : 33 ∈ gstr.gkstring → (splitBang gstr.gkstring).2 ≠ [] ∧ (splitBang gstr.gkstring).2 ≠ [42]
  star : ¬doubleStar (splitBang gstr.gkstring).2
  room : (splitBang gstr.gkstring).2.length + 1 < maxWordSize ∨
    (composedEnding language gstr).length = (splitBang gstr.gkstring).2.length

theorem composedEnding_accented (language : ℤ) (gstr : GkString) :
    Accented (splitBang gstr.gkstring).2 (composedEnding language gstr) ∧
      (nsylls (splitBang gstr.gkstring).2 = 0 →
        composedEnding language gstr = (splitBang gstr.gkstring).2) :=
  endingAccent_accented ..

theorem dropStar_length (h : word.getLast? = some 42) : (dropStar word).length + 1 = word.length := by
  obtain ⟨front, rfl⟩ := List.getLast?_eq_some_iff.mp h
  rw [dropStar_concat]
  simp

theorem dropStar_eq_nil_iff : dropStar word = [] ↔ word = [] ∨ word = [42] := by
  unfold dropStar
  split
  · next hstar =>
    obtain ⟨front, rfl⟩ := List.getLast?_eq_some_iff.mp hstar
    simp
  · next hstar =>
    constructor
    · exact .inl
    · rintro (rfl | rfl)
      · rfl
      · simp at hstar

theorem composedEnding_ne_nil (h : nsylls (splitBang gstr.gkstring).2 ≠ 0) :
    dropStar (composedEnding language gstr) ≠ [] := by
  obtain ⟨haccented, -⟩ := composedEnding_accented language gstr
  have hne := bareText_of_nsylls [] h
  rw [List.nil_append, bareText, ← haccented.strip] at hne
  rw [Ne, dropStar_eq_nil_iff]
  rintro (hnil | hnil) <;> rw [hnil] at hne <;> exact hne (by decide)

/-- A composed ending is empty where the part behind a `!` is empty or a null ending. -/
theorem composedEnding_eq_nil_iff : dropStar (composedEnding language gstr) = [] ↔
    (splitBang gstr.gkstring).2 = [] ∨ (splitBang gstr.gkstring).2 = [42] := by
  obtain ⟨-, hplain⟩ := composedEnding_accented language gstr
  by_cases hsylls : nsylls (splitBang gstr.gkstring).2 = 0
  · rw [hplain hsylls, dropStar_eq_nil_iff]
  · refine iff_of_false (composedEnding_ne_nil hsylls) ?_
    rintro (hnil | hnil) <;> rw [hnil] at hsylls <;> exact hsylls rfl

/-- `AccComposForm` keeps the letters of a record exactly when the record is one it keeps them of. -/
theorem accComposForm_letters_iff (language : ℤ) (gstr : GkString)
    (hgstr : gstr.gkstring.length < maxWordSize) :
    bareText (accComposForm language gstr).1.gkstring = bareText gstr.gkstring ↔
      hasMorphflag gstr.morphflags enclitic = true ∨ KeepsLetters language gstr := by
  by_cases henclitic : hasMorphflag gstr.morphflags enclitic = true
  · have hkept : (accComposForm language gstr).1.gkstring = gstr.gkstring := by
      rw [accComposForm, if_pos henclitic, finishAccent_gkstring]
    simp [hkept, henclitic]
  · rw [Bool.not_eq_true] at henclitic
    have hnil : bareText [] = [] := rfl
    obtain ⟨haccented, hplain⟩ := composedEnding_accented language gstr
    obtain ⟨hsplit, hbang⟩ := splitBang_eq gstr.gkstring
    have hlength := congrArg List.length hsplit
    rw [List.length_append] at hlength
    simp only [henclitic, Bool.false_eq_true, false_or]
    by_cases hlost : procliticLost language gstr
    · have hwhole := @accComposForm_gkstring language gstr henclitic [] (if_pos (.inl hlost)).symm
      rw [if_pos rfl] at hwhole
      have hne := bareText_of_nsylls (splitBang gstr.gkstring).1 hlost.2.1
      rw [← hsplit] at hne
      rw [hwhole, hnil]
      exact iff_of_false (Ne.symm hne) fun h => h.proclitic hlost
    · by_cases hlong : maxWordSize ≤ (composedEnding language gstr).length
      · have hwhole := @accComposForm_gkstring language gstr henclitic [] (if_pos (.inr hlong)).symm
        rw [if_pos rfl] at hwhole
        have hsylls : nsylls (splitBang gstr.gkstring).2 ≠ 0 := by
          intro hzero
          rw [hplain hzero] at hlong
          omega
        have hne := bareText_of_nsylls (splitBang gstr.gkstring).1 hsylls
        rw [← hsplit] at hne
        rw [hwhole, hnil]
        refine iff_of_false (Ne.symm hne) fun h => ?_
        have := h.room
        have := haccented.length
        omega
      · have hroom : (splitBang gstr.gkstring).2.length + 1 < maxWordSize ∨
            (composedEnding language gstr).length = (splitBang gstr.gkstring).2.length := by
          have := haccented.length
          omega
        have hwhole := @accComposForm_gkstring language gstr henclitic _
          (if_neg (not_or.mpr ⟨hlost, hlong⟩)).symm
        by_cases hempty : dropStar (composedEnding language gstr) = []
        · rw [if_pos hempty] at hwhole
          rw [hwhole, hnil]
          have htext := composedEnding_eq_nil_iff.mp hempty
          rcases hbang with ⟨hpre, hbang⟩ | ⟨-, hbang⟩
          · have hwhole : gstr.gkstring = (splitBang gstr.gkstring).2 := by
              rw [hpre, List.nil_append] at hsplit
              exact hsplit
            refine iff_of_true ?_ ⟨hlost, fun h => absurd h hbang, ?_, hroom⟩
            · rw [hwhole]
              rcases htext with htext | htext <;> rw [htext] <;> decide
            · rcases htext with htext | htext <;> rw [htext, doubleStar] <;> decide
          · refine iff_of_false (Ne.symm (bareText_ne_nil hbang (by decide))) fun h => ?_
            have := h.bang hbang
            tauto
        · rw [if_neg hempty] at hwhole
          have htext := mt composedEnding_eq_nil_iff.mpr hempty
          cases happend : appendText (splitBang gstr.gkstring).1 maxWordSize
              (dropStar (composedEnding language gstr)) with
          | none =>
            rw [happend, Option.getD_none] at hwhole
            rw [hwhole]
            refine iff_of_true rfl ⟨hlost, fun _ => not_or.mp htext, fun hstar => ?_, hroom⟩
            -- a text that ends in `*` leaves room for what is written instead
            have hdrop := dropStar_length (haccented.star.mpr hstar.1)
            have := haccented.length
            unfold appendText at happend
            split_ifs at happend
            omega
          | some text =>
            rw [happend, Option.getD_some] at hwhole
            have hfront : (stripquantacc (splitBang gstr.gkstring).1).getLast? ≠ some 42 := by
              rcases hbang with ⟨hpre, -⟩ | ⟨hpre, -⟩
              · rw [hpre]
                decide
              · obtain ⟨front, hfront⟩ := List.getLast?_eq_some_iff.mp hpre
                have hmark : stripquantacc [33] = [33] := by decide
                rw [hfront, stripquantacc_append, hmark, List.getLast?_concat]
                decide
            have hiff := bareText_accented_iff haccented hfront
            rw [← hsplit] at hiff
            rw [hwhole, appendText_eq happend, hiff]
            exact ⟨fun hstar => ⟨hlost, fun _ => not_or.mp htext, hstar, hroom⟩, fun h => h.star⟩

/-- The ending of a future participle, with letters in front of the part that is accented. -/
def participleEnding : GkString :=
  { GkString.zero with
    forminfo := { WordForm.zero with gender := 1, case_ := 1, number := 1 }
    gkstring := ascii "e!somenos" }

theorem accComposForm_letters_iff_participle :
    (accComposForm 0 participleEnding).1.gkstring = ascii "e!so/menos" ∧
      bareText (accComposForm 0 participleEnding).1.gkstring = bareText participleEnding.gkstring := by
  refine ⟨by decide +kernel,
    (accComposForm_letters_iff 0 participleEnding (by decide)).mpr (.inr ?_)⟩
  exact ⟨by decide +kernel, fun _ => by decide +kernel, by unfold doubleStar; decide +kernel,
    .inl (by decide +kernel)⟩

/-- The record of the proclitic preposition `e)n`. -/
def procliticIn : GkString :=
  { GkString.zero with
    gkstring := ascii "e)n"
    morphflags := addMorphflag (addMorphflag GkString.zero.morphflags indeclform) proclitic }

theorem accComposForm_proclitic : ¬∀ (language : ℤ) (gstr : GkString), gstr.gkstring ≠ [] →
    gstr.gkstring.length < maxWordSize →
    bareText (accComposForm language gstr).1.gkstring = bareText gstr.gkstring := by
  intro h
  have hletters := h 0 procliticIn (by decide) (by decide)
  revert hletters
  decide +kernel

example : (accComposForm 0 procliticIn).1.gkstring = [] := by decide +kernel

end Endings

end Morpheus
