import Morpheus.InputLength

/-!
# Putting a raw preverb before a stem

`CombPbStem` tells whether a raw preverb can stand before the rest of a word, gives the rest a
breathing where the preverb asks for one, and sets flags for what it finds.
-/
namespace Morpheus

/-- `AEOLIC` -/
def aeolic : UInt16 := 0o20

/-- `DISSIMILATION` -/
def dissimilation : ℕ := 22

/-- `ELIDE_PREVERB` -/
def elidePreverb : ℕ := 34

/-- `RAW_PREVERB` -/
def rawPreverb : ℕ := 40

/-- `D_PREVB` -/
def dPrevb : ℕ := 82

section Letters

/-- `Is_palatal` -/
def isPalatal (c : Byte) : Bool := (ascii "kgxc").contains c

/-- `Is_labial` -/
def isLabial (c : Byte) : Bool := (ascii "pbf").contains c

/-- `Is_asp` -/
def isAsp (c : Byte) : Bool := (ascii "fqx").contains c

/-- `next_cons` -/
def nextCons (s : Bytes) : Bytes :=
  (s.dropWhile fun c => isCons c || isAccent c).dropWhile fun c => isVowel c || isAccent c

/-- `next_cons_rough` -/
def nextConsRough (s : Bytes) : Bool :=
  isAsp ((nextCons s).headD 0) || (nextCons s).headD 0 == 115 && isAsp ((nextCons s).tail.headD 0)

/-- The word with the breathing that `addbreath` inserts. -/
def withBreath (w : Bytes) (c : Byte) : Bytes :=
  if w = [] then w else w.take (breathPlace w) ++ c :: w.drop (breathPlace w)

end Letters

/-- What `CombPbStem` returns, the rest of the word, and the flags. -/
structure Combined where
  accepted : Bool
  restofs : Bytes
  pbflags : MorphFlags

/-- The `switch` of `CombPbStemG` on the last letter of a preverb with upsilon or epsilon
before it. -/
def combUpsilon (lastc lastc2 first : Byte) : Bool :=
  if lastc = 103 then isPalatal first || first == 99
  else if lastc = 109 then isLabial first || first == 121 || first == 109
  else if lastc = 108 then first == 108
  else if lastc = 114 then !(lastc2 == 117 && first != 114) && (first == 114 || isVowel first)
  else true

/-- The end of `CombPbStemG`: a preverb in a vowel before a vowel or rho. -/
def combVowel (noaccpb restofs : Bytes) (pbflags : MorphFlags) : Combined :=
  let lastc := noaccpb.getLastD 0
  let first := restofs.headD 0
  if isVowel lastc ∧ isVowel first ∧ noaccpb.drop (noaccpb.length - 2) ≠ ascii "di" then
    let pbflags := addMorphflag pbflags rawPreverb
    if noaccpb.reverse.getD 2 0 ≠ 112 ∧ noaccpb.reverse.getD 1 0 ≠ 114 then
      ⟨true, restofs, addMorphflag pbflags poetic⟩
    else ⟨true, restofs, pbflags⟩
  else if isVowel lastc ∧ first = 114 then
    if restofs.tail.headD 0 ≠ 114 then
      ⟨true, 114 :: 40 :: restofs.tail, addMorphflag (addMorphflag pbflags rawPreverb) poetic⟩
    else ⟨true, 114 :: 40 :: restofs.tail.tail, pbflags⟩
  else ⟨true, restofs, pbflags⟩

/-- `CombPbStemG` behind the breathings: the rules of euphony. -/
def combEuphony (noaccpb restofs : Bytes) (pbflags : MorphFlags) : Combined :=
  let lastc := noaccpb.getLastD 0
  let lastc2 := noaccpb.reverse.getD 1 0
  let first := restofs.headD 0
  if (isPalatal first ∨ isLabial first ∨ first ∈ ascii "cylrm") ∧ lastc = 110 then
    ⟨true, restofs, addMorphflag (addMorphflag pbflags rawPreverb) poetic⟩
  else if lastc = 105 ∧ lastc2 = 100 ∧ isVowel first = false then ⟨false, restofs, pbflags⟩
  else if lastc = 103 ∧ isPalatal first = false then ⟨false, restofs, pbflags⟩
  else if lastc2 = 117 ∨ lastc2 = 101 ∧ noaccpb.reverse.getD 2 0 ≠ 112 then
    ⟨combUpsilon lastc lastc2 first, restofs, pbflags⟩
  else combVowel noaccpb restofs pbflags

/-- The flag for an apocope such as in `a)n-sxeo`. -/
def apocopeFlag (noaccpb restofs : Bytes) (pbflags : MorphFlags) : MorphFlags :=
  let lastc := noaccpb.getLastD 0
  let lastc2 := noaccpb.reverse.getD 1 0
  let lastc3 := noaccpb.reverse.getD 2 0
  if isCons lastc ∧ lastc ≠ 115 ∧ lastc2 ≠ 101 ∧ isCons (restofs.headD 0) ∧
      lastc2 ≠ 117 ∧ lastc3 ≠ 115 then
    addMorphflag pbflags apocope
  else pbflags

/-- The last preverb decides: an older `UNASP_PREVERB` is given up. -/
def zapUnasp (pbflags : MorphFlags) : MorphFlags :=
  if hasMorphflag pbflags unaspPreverb then zapMorphflag pbflags unaspPreverb else pbflags

/-- `CombPbStemG` behind the apocope: the breathing, by the last letter of the preverb. -/
def combBreathing (noaccpb curpb restofs : Bytes) (dial : UInt16) (pbflags : MorphFlags) :
    Combined :=
  let lastc := noaccpb.getLastD 0
  let first := restofs.headD 0
  let curbreath := getbreath restofs
  if lastc = 113 ∨ lastc = 102 then
    if isVowel first = false then ⟨false, restofs, pbflags⟩
    else if curpb.reverse.getD 1 0 = 109 ∧ lastc = 102 then
      ⟨true, restofs, addMorphflag pbflags elidePreverb⟩
    else if curbreath = 32 then combEuphony noaccpb (withBreath restofs 40) (zapUnasp pbflags)
    else if curbreath = 41 then ⟨false, restofs, zapUnasp pbflags⟩
    else combEuphony noaccpb restofs (zapUnasp pbflags)
  else if (lastc = 116 ∨ lastc = 112) ∧ isVowel first then
    if negativeDialect (andDialect dial (aeolic ||| ionic)) = false ∧
        (curbreath = 40 ∨ curbreath = 32) then
      ⟨true, restofs, addMorphflag pbflags unaspPreverb⟩
    else if curbreath = 32 then ⟨true, restofs, pbflags⟩
    else if curbreath = 40 then ⟨false, restofs, pbflags⟩
    else combEuphony noaccpb restofs pbflags
  else if lastc = 99 ∧ isVowel first = false then ⟨false, restofs, pbflags⟩
  else if lastc = 117 ∧ first ≠ 115 ∧ first ≠ 122 then ⟨false, restofs, pbflags⟩
  else combEuphony noaccpb restofs pbflags

/-- `CombPbStemG` -/
def combPbStemG (curpb restofs : Bytes) (dial : UInt16) (pbflags : MorphFlags) : Combined :=
  if restofs = [] then ⟨true, restofs, pbflags⟩
  else if hasMorphflag pbflags dissimilation ∧ nextConsRough restofs = false then
    ⟨false, restofs, pbflags⟩
  else
    let noaccpb := stripbreath (stripacc (xstrncpy curpb maxWordSize))
    combBreathing noaccpb curpb restofs dial (apocopeFlag noaccpb restofs pbflags)

/-- The letters before which a Latin preverb gets `RAW_PREVERB`. -/
def latinRaw : List (Bytes × Bytes) :=
  [(ascii "circum", ascii "i"), (ascii "sub", ascii "cfgpmr"), (ascii "ob", ascii "cfgp"),
    (ascii "trans", ascii "ijdlmns"), (ascii "dis", ascii "bdglmnrvf"), (ascii "in", ascii "blpm"),
    (ascii "con", ascii "bpmrln"), (ascii "ad", ascii "cfglnprst")]

/-- Whether `CombPbStemL` sets `RAW_PREVERB`; `dis` stays as it is before `di`. -/
def setsRawPreverb (curpb restofs : Bytes) : Bool :=
  if curpb = ascii "ex" ∨ curpb = ascii "ec" then !(ascii "aeioucpqtf").contains (restofs.headD 0)
  else !(curpb == ascii "dis" && restofs.take 2 == ascii "di") &&
    latinRaw.any fun entry => entry.1 == curpb && entry.2.contains (restofs.headD 0)

/-- `CombPbStemL` -/
def combPbStemL (curpb restofs : Bytes) (pbflags : MorphFlags) : Combined :=
  if restofs = [] then ⟨true, restofs, pbflags⟩
  else if curpb = ascii "red" ∨ curpb = ascii "prod" then
    ⟨true, restofs, addMorphflag pbflags dPrevb⟩
  else if curpb = ascii "amb" ∧ restofs.headD 0 ∉ ascii "aeiou" then ⟨false, restofs, pbflags⟩
  else if setsRawPreverb curpb restofs then ⟨true, restofs, addMorphflag pbflags rawPreverb⟩
  else ⟨true, restofs, pbflags⟩

/-- `CombPbStem` -/
def combPbStem (language : ℤ) (curpb restofs : Bytes) (dial : UInt16) (pbflags : MorphFlags) :
    Combined :=
  if restofs = [] then ⟨true, restofs, pbflags⟩
  else if language = latin ∨ language = italian then combPbStemL curpb restofs pbflags
  else combPbStemG curpb restofs dial pbflags

section Flags

theorem hasMorphflag_addMorphflag (Mf : MorphFlags) {m n : ℕ} (hm : m < 112) :
    hasMorphflag (addMorphflag Mf (m + 1)) (n + 1) = (hasMorphflag Mf (n + 1) || decide (n = m)) := by
  rw [hasMorphflag_succ, hasMorphflag_succ, flagAt_addMorphflag Mf hm]

/-- None of the flags that `CombPbStem` sets is `DISSIMILATION`. -/
theorem dissimilation_addMorphflag (Mf : MorphFlags) {m : ℕ}
    (hm : m ∈ [apocope, poetic, elidePreverb, rawPreverb, unaspPreverb, dPrevb]) :
    hasMorphflag (addMorphflag Mf m) dissimilation = hasMorphflag Mf dissimilation := by
  simp only [List.mem_cons, List.not_mem_nil, or_false] at hm
  rcases hm with rfl | rfl | rfl | rfl | rfl | rfl <;>
    exact (hasMorphflag_addMorphflag Mf (by decide)).trans (by simp [dissimilation])

theorem dissimilation_zapUnasp (Mf : MorphFlags) :
    hasMorphflag (zapUnasp Mf) dissimilation = hasMorphflag Mf dissimilation := by
  unfold zapUnasp
  split_ifs <;> rfl

theorem dissimilation_apocopeFlag (noaccpb restofs : Bytes) (Mf : MorphFlags) :
    hasMorphflag (apocopeFlag noaccpb restofs Mf) dissimilation =
      hasMorphflag Mf dissimilation := by
  unfold apocopeFlag
  dsimp only
  split_ifs
  · exact dissimilation_addMorphflag Mf (by decide)
  · rfl

end Flags

section Answer
variable (noaccpb curpb restofs : Bytes) (dial : UInt16) (F G : MorphFlags)

theorem combVowel_flags :
    (combVowel noaccpb restofs F).accepted = (combVowel noaccpb restofs G).accepted ∧
      (combVowel noaccpb restofs F).restofs = (combVowel noaccpb restofs G).restofs := by
  unfold combVowel
  dsimp only
  split_ifs <;> exact ⟨rfl, rfl⟩

/-- The answer of the rules of euphony does not depend on the flags. -/
theorem combEuphony_flags :
    (combEuphony noaccpb restofs F).accepted = (combEuphony noaccpb restofs G).accepted ∧
      (combEuphony noaccpb restofs F).restofs = (combEuphony noaccpb restofs G).restofs := by
  unfold combEuphony
  dsimp only
  split_ifs <;> first | exact combVowel_flags .. | exact ⟨rfl, rfl⟩

theorem combBreathing_flags :
    (combBreathing noaccpb curpb restofs dial F).accepted =
        (combBreathing noaccpb curpb restofs dial G).accepted ∧
      (combBreathing noaccpb curpb restofs dial F).restofs =
        (combBreathing noaccpb curpb restofs dial G).restofs := by
  unfold combBreathing
  dsimp only
  split_ifs <;> first | exact combEuphony_flags .. | exact ⟨rfl, rfl⟩

theorem combPbStemL_flags :
    (combPbStemL curpb restofs F).accepted = (combPbStemL curpb restofs G).accepted ∧
      (combPbStemL curpb restofs F).restofs = (combPbStemL curpb restofs G).restofs := by
  unfold combPbStemL
  split_ifs <;> exact ⟨rfl, rfl⟩

/-- Without `DISSIMILATION` the answer of `CombPbStem` does not depend on the flags. -/
theorem combPbStem_flags (language : ℤ) {F G : MorphFlags}
    (hF : hasMorphflag F dissimilation = false) (hG : hasMorphflag G dissimilation = false) :
    (combPbStem language curpb restofs dial F).accepted =
        (combPbStem language curpb restofs dial G).accepted ∧
      (combPbStem language curpb restofs dial F).restofs =
        (combPbStem language curpb restofs dial G).restofs := by
  unfold combPbStem combPbStemG
  simp only [hF, hG, Bool.false_eq_true, false_and, if_false]
  split_ifs
  · exact ⟨rfl, rfl⟩
  · exact combPbStemL_flags ..
  · exact combBreathing_flags ..

theorem combVowel_dissimilation :
    hasMorphflag (combVowel noaccpb restofs F).pbflags dissimilation =
      hasMorphflag F dissimilation := by
  have hraw (F : MorphFlags) := dissimilation_addMorphflag F (m := rawPreverb) (by decide)
  have hpoetic (F : MorphFlags) := dissimilation_addMorphflag F (m := poetic) (by decide)
  unfold combVowel
  dsimp only
  split_ifs <;> simp only [hraw, hpoetic]

theorem combEuphony_dissimilation :
    hasMorphflag (combEuphony noaccpb restofs F).pbflags dissimilation =
      hasMorphflag F dissimilation := by
  have hraw (F : MorphFlags) := dissimilation_addMorphflag F (m := rawPreverb) (by decide)
  have hpoetic (F : MorphFlags) := dissimilation_addMorphflag F (m := poetic) (by decide)
  unfold combEuphony
  dsimp only
  split_ifs <;> simp only [hraw, hpoetic, combVowel_dissimilation]

theorem combBreathing_dissimilation :
    hasMorphflag (combBreathing noaccpb curpb restofs dial F).pbflags dissimilation =
      hasMorphflag F dissimilation := by
  have helide := dissimilation_addMorphflag F (m := elidePreverb) (by decide)
  have hunasp := dissimilation_addMorphflag F (m := unaspPreverb) (by decide)
  unfold combBreathing
  dsimp only
  split_ifs <;> simp only [combEuphony_dissimilation, dissimilation_zapUnasp, helide, hunasp]

theorem combPbStemL_dissimilation :
    hasMorphflag (combPbStemL curpb restofs F).pbflags dissimilation =
      hasMorphflag F dissimilation := by
  have hraw := dissimilation_addMorphflag F (m := rawPreverb) (by decide)
  have hprevb := dissimilation_addMorphflag F (m := dPrevb) (by decide)
  unfold combPbStemL
  split_ifs <;> simp only [hraw, hprevb]

/-- `CombPbStem` leaves `DISSIMILATION` as it is. -/
theorem combPbStem_dissimilation (language : ℤ) :
    hasMorphflag (combPbStem language curpb restofs dial F).pbflags dissimilation =
      hasMorphflag F dissimilation := by
  unfold combPbStem combPbStemG
  split_ifs
  · rfl
  · exact combPbStemL_dissimilation ..
  · rfl
  · rw [combBreathing_dissimilation, dissimilation_apocopeFlag]

end Answer

section Length

/-- The bytes that are no breathings. -/
def letters (s : Bytes) : ℕ := s.countP fun c => !isBreath c

theorem letters_append (s t : Bytes) : letters (s ++ t) = letters s + letters t :=
  List.countP_append

theorem letters_breath {c : Byte} (hc : isBreath c = true) (s : Bytes) :
    letters (c :: s) = letters s := by
  simp [letters, hc]

theorem letters_cons {c : Byte} (hc : isBreath c = false) (s : Bytes) :
    letters (c :: s) = letters s + 1 := by
  simp [letters, hc]

theorem letters_withBreath {c : Byte} (hc : isBreath c = true) (w : Bytes) :
    letters (withBreath w c) = letters w := by
  unfold withBreath
  split_ifs with hw
  · rfl
  · calc letters (w.take (breathPlace w) ++ c :: w.drop (breathPlace w))
        = letters (w.take (breathPlace w)) + letters (w.drop (breathPlace w)) := by
          rw [letters_append, letters_breath hc]
      _ = letters w := by rw [← letters_append, List.take_append_drop]

variable (noaccpb curpb restofs : Bytes) (dial : UInt16) (F : MorphFlags)

/-- The breathing after an initial rho is put in, or is written over a second rho. -/
theorem combVowel_letters : letters (combVowel noaccpb restofs F).restofs ≤ letters restofs := by
  have hrho (h : restofs.headD 0 = 114) :
      letters (114 :: 40 :: restofs.tail) = letters restofs := by
    cases restofs with
    | nil => exact absurd h (by decide)
    | cons c rest =>
      obtain rfl : c = 114 := h
      rw [List.tail_cons, letters_cons rfl, letters_breath rfl, letters_cons rfl]
  have htail : letters (114 :: 40 :: restofs.tail.tail) ≤ letters (114 :: 40 :: restofs.tail) := by
    rw [letters_cons rfl, letters_breath rfl, letters_cons rfl, letters_breath rfl]
    exact Nat.succ_le_succ (List.tail_sublist _).countP_le
  unfold combVowel
  dsimp only
  split_ifs with _ _ hfirst
  · exact le_rfl
  · exact le_rfl
  · exact (hrho hfirst.2).le
  · exact htail.trans (hrho hfirst.2).le
  · exact le_rfl

theorem combEuphony_letters : letters (combEuphony noaccpb restofs F).restofs ≤ letters restofs := by
  unfold combEuphony
  dsimp only
  split_ifs <;> first | exact combVowel_letters .. | exact le_rfl

theorem combBreathing_letters :
    letters (combBreathing noaccpb curpb restofs dial F).restofs ≤ letters restofs := by
  have hadded : letters (combEuphony noaccpb (withBreath restofs 40) (zapUnasp F)).restofs ≤
      letters restofs :=
    (combEuphony_letters ..).trans (letters_withBreath rfl restofs).le
  unfold combBreathing
  dsimp only
  split_ifs <;> first | exact hadded | exact combEuphony_letters .. | exact le_rfl

theorem combPbStemL_restofs : (combPbStemL curpb restofs F).restofs = restofs := by
  unfold combPbStemL
  split_ifs <;> rfl

/-- `CombPbStem` puts breathings into the rest of the word and no letters. -/
theorem combPbStem_letters (language : ℤ) :
    letters (combPbStem language curpb restofs dial F).restofs ≤ letters restofs := by
  unfold combPbStem combPbStemG
  split_ifs
  · exact le_rfl
  · rw [combPbStemL_restofs]
  · exact le_rfl
  · exact combBreathing_letters ..

end Length

end Morpheus
