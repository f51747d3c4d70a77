import Morpheus.EndingCache
import Morpheus.Syllables

/-!
# Recessive accents

`FixRecAcc` writes the accent of a form without accents as far back as the quantity of its last
syllable allows.
-/
namespace Morpheus

/-- `ENCLITIC` -/
def enclitic : ℕ := 3

/-- `STEM_ACC` -/
def stemAcc : ℕ := 6

/-- `PERS_NAME` -/
def persName : ℕ := 8

/-- `ACCENT_OPTIONAL` -/
def accentOptional : ℕ := 16

/-- `NO_CIRCUMFLEX` -/
def noCircumflex : ℕ := 53

/-- `DECL3` -/
def decl3 : UInt32 := 0o400

section Cases

/-- `NOMINATIVE` -/
def nominative : BitVec 6 := 0o1

/-- `ACCUSATIVE` -/
def accusative : BitVec 6 := 0o10

/-- `VOCATIVE` -/
def vocative : BitVec 6 := 0o20

end Cases

section Quantities

/-- `LONG` and `SHORT` -/
inductive Quantity
  | short
  | long
  deriving DecidableEq, Repr

/-- `Is_quant` -/
def isQuant (c : Byte) : Bool := c == 95 || c == 94

/-- The quantity that a mark gives. -/
def quantityOfMark (c : Byte) : Quantity := if c = 95 then .long else .short

/-- `long_by_isub`, behind a vowel -/
def longByIsub (behind : Bytes) : Bool :=
  behind.headD 0 == 124 || isBreath (behind.headD 0) && behind.tail.headD 0 == 124

/-- `quantprim`; `I_ERR` is `none`. -/
def quantprim (word : Bytes) (syll : ℕ) (isEnding isOblique : Bool) : Option Quantity :=
  (getsyll word syll).bind fun p =>
    let c := word.getD p 0
    let behind := word.drop (p + 1)
    match ((word.drop p).takeWhile fun c => !isCons c).find? isQuant with
    | some mark => some (quantityOfMark mark)
    | none =>
      if longByIsub behind then some .long
      else if isDiphthAt word p then
        -- final -ai and -oi are short
        if c = 105 ∧ (word.getD (p - 1) 0 = 97 ∨ word.getD (p - 1) 0 = 111) ∧ isEnding ∧
            !isOblique ∧ (behind = [] ∨ isAccent (behind.headD 0) ∧ behind.tail = []) then
          some .short
        else some .long
      else if (ascii "hwHW").contains c then some .long
      else if (ascii "aeiouAEIOU").contains c then
        if behind.headD 0 = 124 then some .long else some .short
      else none

/-- `getquantity`; no quantity mark leads to its branch on `nom`. -/
def getquantity (word : Bytes) (syll : ℕ) (isEnding isOblique : Bool) : Option Quantity :=
  (getsyll word syll).bind fun p =>
    if isQuant (word.getD (p + 1) 0) then some (quantityOfMark (word.getD (p + 1) 0))
    else quantprim word syll isEnding isOblique

/-- `ulttakescirc` -/
def ulttakescirc (gstring : GkString) (formInfo : WordForm) : Bool :=
  if hasMorphflag gstring.morphflags noCircumflex then false
  else if hasMorphflag gstring.morphflags contracted then true
  else if hasMorphflag gstring.morphflags enclitic then false
  else if formInfo.case_ &&& accusative ≠ 0 then false
  else if formInfo.case_ &&& nominative ≠ 0 then false
  else true

/-- `penult_form` -/
def penultForm (gstring : GkString) (formInfo : WordForm) : Bool :=
  if formInfo.case_ = vocative ∧ formInfo.number = 1 ∧ gstring.stemtype &&& decl3 ≠ 0 ∧
      hasMorphflag gstring.morphflags persName then false
  else if hasMorphflag gstring.morphflags stemAcc then true
  -- neuter active participles and the perfect middle infinitive
  else (formInfo.voice = 1 ∧ formInfo.mood = 6 ∧ formInfo.gender = 4 ∧ formInfo.number = 1 ∧
      (formInfo.case_ = nominative ∨ formInfo.case_ = accusative)) ∨
    (formInfo.voice &&& 6 ≠ 0 ∧ formInfo.mood = 5 ∧ formInfo.tense = 5)

end Quantities

/-- `addaccent` at the place that `getsyll` returned. -/
def addaccentAt (word : Bytes) (accent : Byte) (place : Option ℕ) : Bytes :=
  match place with
  | none => word
  | some p => addaccent word accent p

/-- `FixRecAcc`. -/
def fixRecAcc (language : ℤ) (gkform : GkWord) (mflags : MorphFlags) (word : Bytes) : Bytes :=
  let optional := hasMorphflag mflags accentOptional
  if language = latin ∨ language = italian then word
  else if hasaccent word then word
  else if getsyll word 0 = none then word
  else if getquantity word 0 true false = some .long then
    if getsyll word 1 = none then
      if optional then word
      else if ulttakescirc gkform.endstring gkform.endstring.forminfo then
        addaccentAt word 61 (getsyll word 0)
      else addaccentAt word 47 (getsyll word 0)
    else addaccentAt word 47 (getsyll word 1)
  else if getsyll word 2 ≠ none ∧ !penultForm gkform.endstring gkform.forminfo then
    addaccentAt word 47 (getsyll word 2)
  else if optional then word
  else
    let place := if getsyll word 1 = none then getsyll word 0 else getsyll word 1
    if getquantity word 1 true false = some .long ∧ !hasMorphflag mflags enclitic then
      addaccentAt word 61 place
    else addaccentAt word 47 place

section Written
variable {word result : Bytes} {accent : Byte} {syll p : ℕ}

/-- The accent stands on the vowel at a place of the word: behind it and the breathings and
quantity marks on it, or before the capital letter, and a circumflex may take the place of a long
mark. -/
def StandsAt (word : Bytes) (accent : Byte) (p : ℕ) (result : Bytes) : Prop :=
  (∃ pre v marks long rest, pre.length = p ∧ word = pre ++ v :: (marks ++ long ++ rest) ∧
    result = pre ++ v :: (marks ++ accent :: rest) ∧ (∀ c ∈ marks, isBreathOrQuant c = true) ∧
    (long = [] ∨ accent = 61 ∧ long = [95])) ∨
  ∃ breathing rest, isBreath breathing = true ∧ word = 42 :: breathing :: rest ∧
    result = 42 :: breathing :: accent :: rest ∧ (p = 2 ∨ p = 3 ∧ isDiphthAt word p = true)

theorem addaccent_standsAt (hp : getsyll word syll = some p) :
    StandsAt word accent p (addaccent word accent p) := by
  by_cases hcapital : onCapital word p = true
  · right
    have hlen : ¬word.length ≤ p := by
      obtain ⟨-, pre, v, post, rfl, hat⟩ := getsyll_eq_some.mp hp
      rw [hat.split]
      simp
    unfold addaccent
    rw [if_neg hlen, if_pos hcapital]
    simp only [onCapital, Bool.and_eq_true, beq_iff_eq, Bool.or_eq_true] at hcapital
    obtain ⟨⟨hstar, hbreath⟩, hplace⟩ := hcapital
    cases word with
    | nil => exact absurd hstar (by decide)
    | cons c s =>
      cases s with
      | nil => simp [isBreath] at hbreath
      | cons b rest =>
        rw [List.headD_cons] at hstar
        exact ⟨b, rest, by simpa using hbreath, by rw [hstar], by simp [hstar], hplace⟩
  · left
    obtain ⟨pre, v, post, marks, long, rest, -, hlen, hat, hplace, heq⟩ :=
      @getsyll_addaccent word accent syll p (Bool.eq_false_iff.mpr hcapital) hp
    exact ⟨pre, v, marks, long, rest, hlen, hplace.split ▸ hat.split, heq, hplace.marks,
      hplace.long⟩

theorem StandsAt.naccents (h : StandsAt word accent p result) (hplain : naccents word = 0)
    (haccent : isAccent accent = true) : naccents result = 1 := by
  rcases h with ⟨pre, v, marks, long, rest, -, hword, hresult, -, -⟩ | ⟨b, rest, -, hword, hresult, -⟩ <;>
    rw [hword] at hplain <;> rw [hresult] <;>
    simp only [Morpheus.naccents, List.countP_append, List.countP_cons, haccent, if_true] at hplain ⊢ <;>
    omega

theorem not_alpha_of_accent (c : Byte) (h : isAccent c = true) : isAlpha c = false := by
  revert c
  refine @forall_byte _ ?_
  decide +kernel

theorem StandsAt.letters (h : StandsAt word accent p result) (haccent : isAccent accent = true) :
    result.filter isAlpha = word.filter isAlpha := by
  have hmark := not_alpha_of_accent accent haccent
  have hlong : isAlpha 95 = false := by decide
  rcases h with ⟨pre, v, marks, long, rest, -, hword, hresult, -, rfl | ⟨-, rfl⟩⟩ |
      ⟨b, rest, -, hword, hresult, -⟩ <;>
    rw [hword, hresult] <;> simp [List.filter_append, List.filter_cons, hmark, hlong]

/-- The accent that `getaccent` reads on the syllable, when it does not stand before a capital. -/
theorem getaccent_addaccent (hcapital : onCapital word p = false) (hplain : naccents word = 0)
    (haccent : isAccent accent = true) (hp : getsyll word syll = some p) :
    getaccent (addaccent word accent p) syll = accent := by
  obtain ⟨pre, v, marks, long, rest, -, hwritten, heq⟩ := exists_written hcapital hplain haccent hp
  rw [heq]
  exact getaccent_split hwritten.syll_le hwritten.after hwritten.onVowel haccent

end Written

section Recessive
variable {language : ℤ} {gkform : GkWord} {mflags : MorphFlags} {word : Bytes}

/-- Where recessive accentuation puts an accent: as far back as the last syllable allows, with a
circumflex on a long penult before a last syllable that is not long, or on a single long syllable. -/
structure RecessiveRule (gkform : GkWord) (word : Bytes) (syll : ℕ) (accent : Byte) : Prop where
  mark : accent = 47 ∨ accent = 61
  antepenult : syll = 2 → getquantity word 0 true false ≠ some .long
  circumflex : accent = 61 →
    syll = 1 ∧ getquantity word 1 true false = some .long ∧
      getquantity word 0 true false ≠ some .long ∨
    syll = 0 ∧ nsylls word = 1 ∧ getquantity word 0 true false = some .long ∧
      ulttakescirc gkform.endstring gkform.endstring.forminfo = true

theorem getquantity_none {syll : ℕ} (h : getsyll word syll = none) :
    getquantity word syll true false = none := by
  rw [getquantity, h, Option.bind_none]

theorem acuteRule {syll : ℕ} (h : syll = 2 → getquantity word 0 true false ≠ some .long) :
    RecessiveRule gkform word syll 47 := ⟨.inl rfl, h, by simp⟩

theorem fixRecAcc_cases (hlanguage : ¬(language = latin ∨ language = italian))
    (hplain : hasaccent word = false) (hsylls : 0 < nsylls word)
    (hoptional : hasMorphflag mflags accentOptional = false) :
    ∃ syll accent, RecessiveRule gkform word syll accent ∧ getsyll word syll ≠ none ∧
      fixRecAcc language gkform mflags word = addaccentAt word accent (getsyll word syll) := by
  have hzero : getsyll word 0 ≠ none := by
    rw [Ne, getsyll_eq_none (by decide)]
    omega
  unfold fixRecAcc
  rw [if_neg hlanguage, if_neg (by rw [hplain]; simp), if_neg hzero, hoptional]
  by_cases hlong : getquantity word 0 true false = some .long
  · rw [if_pos hlong]
    by_cases hone : getsyll word 1 = none
    · have hsingle : nsylls word = 1 := by
        have := (getsyll_eq_none (by decide)).mp hone
        omega
      rw [if_pos hone, if_neg (by simp)]
      by_cases hcirc : ulttakescirc gkform.endstring gkform.endstring.forminfo = true
      · rw [if_pos hcirc]
        exact ⟨0, 61, ⟨.inr rfl, by simp, fun _ => .inr ⟨rfl, hsingle, hlong, hcirc⟩⟩, hzero, rfl⟩
      · rw [if_neg hcirc]
        exact ⟨0, 47, acuteRule (by simp), hzero, rfl⟩
    · rw [if_neg hone]
      exact ⟨1, 47, acuteRule (by simp), hone, rfl⟩
  · rw [if_neg hlong]
    split
    · next htwo => exact ⟨2, 47, acuteRule fun _ => hlong, htwo.1, rfl⟩
    · rw [if_neg (by simp)]
      by_cases hone : getsyll word 1 = none
      · rw [getquantity_none hone]
        simp only [hone, if_true]
        exact ⟨0, 47, acuteRule (by simp), hzero, by simp⟩
      · simp only [hone, if_false]
        split
        · next hcirc =>
          exact ⟨1, 61, ⟨.inr rfl, by simp, fun _ => .inl ⟨rfl, hcirc.1, hlong⟩⟩, hone, rfl⟩
        · exact ⟨1, 47, acuteRule (by simp), hone, rfl⟩

/-- `FixRecAcc` writes one accent on a word that has none, by the rule, and changes no letter. -/
theorem fixRecAcc_recessive (language : ℤ) (gkform : GkWord) (mflags : MorphFlags) (word : Bytes)
    (hlanguage : ¬(language = latin ∨ language = italian)) (hplain : naccents word = 0)
    (hsylls : 0 < nsylls word) (hoptional : hasMorphflag mflags accentOptional = false) :
    ∃ syll accent p, RecessiveRule gkform word syll accent ∧ getsyll word syll = some p ∧
      StandsAt word accent p (fixRecAcc language gkform mflags word) ∧
      (onCapital word p = false →
        getaccent (fixRecAcc language gkform mflags word) syll = accent) ∧
      naccents (fixRecAcc language gkform mflags word) = 1 ∧
      (fixRecAcc language gkform mflags word).filter isAlpha = word.filter isAlpha := by
  have hnone : hasaccent word = false := by
    rw [naccents, List.countP_eq_zero] at hplain
    rw [hasaccent, List.any_eq_false]
    exact hplain
  obtain ⟨syll, accent, hrule, hsyll, heq⟩ :=
    @fixRecAcc_cases language gkform mflags word hlanguage hnone hsylls hoptional
  obtain ⟨p, hp⟩ := Option.ne_none_iff_exists'.mp hsyll
  have haccent : isAccent accent = true := by rcases hrule.mark with rfl | rfl <;> decide
  rw [hp, addaccentAt] at heq
  have hstands : StandsAt word accent p (addaccent word accent p) := addaccent_standsAt hp
  rw [heq]
  exact ⟨syll, accent, p, hrule, hp, hstands,
    fun hcapital => getaccent_addaccent hcapital hplain haccent hp,
    hstands.naccents hplain haccent, hstands.letters haccent⟩

theorem fixRecAcc_recessive_doron : ∃ syll accent p, RecessiveRule .zero (ascii "dwron") syll accent ∧
    getsyll (ascii "dwron") syll = some p ∧
    StandsAt (ascii "dwron") accent p (fixRecAcc 0 .zero (fun _ => 0) (ascii "dwron")) := by
  obtain ⟨syll, accent, p, hrule, hp, hstands, -⟩ := fixRecAcc_recessive 0 .zero (fun _ => 0)
    (ascii "dwron") (by decide) (by decide +kernel) (by decide +kernel) (by decide +kernel)
  exact ⟨syll, accent, p, hrule, hp, hstands⟩

example : fixRecAcc 0 .zero (fun _ => 0) (ascii "dwron") = ascii "dw=ron" := by decide +kernel

end Recessive

end Morpheus
