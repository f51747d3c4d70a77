import Morpheus.GkString
import Morpheus.EndingCache

/-!
# The store of analyses of a word

`AddAnalysis` of `checkgenwds.c` fills the next free slot of the store from a
candidate, then keeps the slot, or drops the candidate, or merges it into an
equivalent analysis that is already there.
-/
namespace Morpheus

/-- `IONIC` -/
def ionic : UInt16 := 0o10

/-- `HOMERIC` -/
def homeric : UInt16 := 0o100

/-- `INDICATIVE` -/
def indicative : BitVec 4 := 1

/-- `APOCOPE` -/
def apocope : ℕ := 24

/-- `POETIC` -/
def poetic : ℕ := 31

/-- `UNASP_PREVERB` -/
def unaspPreverb : ℕ := 43

/-- `R_E_I_ALPHA` -/
def rEIAlpha : ℕ := 18

/-- `AndDialect`; no common dialect is -1. -/
def andDialect (dial1 dial2 : UInt16) : UInt16 :=
  if dial1 = 0 ∧ dial2 = 0 then 0
  else if dial1 ≠ 0 ∧ dial2 ≠ 0 then
    if dial1 &&& dial2 = 0 then 0xFFFF else dial1 &&& dial2
  else if dial1 = 0 then dial2
  else dial1

/-- The test `d < 0` on a `Dialect`, which is a `short`. -/
def negativeDialect (d : UInt16) : Bool := d ≥ 0x8000

/-- `getbreath`: the first breathing of a text, a blank without one. -/
def getbreath (p : Bytes) : Byte := (p.find? fun c => c = 40 ∨ c = 41).getD 32

/-- `append_text` -/
def appendText (dest : Bytes) (capacity : ℕ) (source : Bytes) : Option Bytes :=
  if dest.length ≥ capacity ∨ source.length ≥ capacity - dest.length then none
  else some (dest ++ source)

theorem appendText_eq {dest source out : Bytes} {capacity : ℕ}
    (h : appendText dest capacity source = some out) : out = dest ++ source := by
  unfold appendText at h
  split_ifs at h
  exact (Option.some.inj h).symm

theorem appendText_length {dest source out : Bytes} {capacity : ℕ}
    (h : appendText dest capacity source = some out) : out.length < capacity := by
  unfold appendText at h
  split_ifs at h with hfull
  rw [← Option.some.inj h, List.length_append]
  omega

theorem appendText_of_lt {dest source : Bytes} {capacity : ℕ}
    (h : dest.length + source.length < capacity) :
    appendText dest capacity source = some (dest ++ source) := by
  rw [appendText, if_neg (by omega)]

/-- The part of a text collected before, with a separator if there is one. -/
def joinHalf (tmphalf1 separator t : Bytes) : Option Bytes :=
  if tmphalf1 = [] then appendText tmphalf1 1024 t
  else (appendText tmphalf1 1024 separator).bind fun half => appendText half 1024 t

/-- The lookup loop for a compound lemma: the first tail of the text, cut at commas, that
the compound-verb index knows is replaced by its entry. -/
def compoundLookup (chckcmpvb : Bytes → Bytes) (tmphalf1 s : Bytes) : Option Bytes :=
  if s.length ≥ maxWordSize - 1 then none
  else
    let cmplem := chckcmpvb s
    if cmplem ≠ [] then
      if tmphalf1 = [] then some cmplem
      else joinHalf tmphalf1 (ascii "-") cmplem
    else if _h : 44 ∈ s then
      (joinHalf tmphalf1 (ascii ",") (s.takeWhile (· ≠ 44))).bind fun half =>
        compoundLookup chckcmpvb half (s.dropWhile (· ≠ 44)).tail
    else joinHalf tmphalf1 (ascii ",") s
  termination_by s.length
  decreasing_by
    have hle := (List.dropWhile_suffix (l := s) (· ≠ 44)).length_le
    have hpos : 0 < s.length := List.length_pos_of_mem _h
    simp only [List.length_tail]
    omega

/-- The surroundings that stay fixed for a word: the language and the word's own dialect. -/
structure WordEnv where
  language : ℤ
  dialect : UInt16

/-- One call of `AddAnalysis`: the candidate, the compound-verb index, and whether memory is
there for the storage handle, the first slots and more slots. -/
structure Offer where
  gkform : GkWord
  chckcmpvb : Bytes → Bytes
  ensured : Bool
  created : Bool
  grown : Bool

/-- The lemma of an analysis; a compound that does not fit is refused. -/
def analysisLemma (chckcmpvb : Bytes → Bytes) (gkform : GkWord) : Option Bytes :=
  if gkform.preverb.gkstring ≠ [] then
    let tmplem := gkform.preverb.gkstring ++ ascii "-" ++ gkform.stLemma
    if tmplem.length ≥ 1024 then none
    else (compoundLookup chckcmpvb [] tmplem).bind fun compound =>
      if compound.length ≥ maxWordSize then none else some compound
  else some (xstrncpy gkform.stLemma maxWordSize)

/-- The fields copied before the dialect of the analysis is adjusted. -/
def copyForm (gkform : GkWord) (stLemma : Bytes) (curanal : GkAnalysis) : GkAnalysis :=
  { curanal with
    stLemma
    preverb := gkform.preverb
    aug1 := gkform.aug1
    stem := gkform.stem
    endstring := gkform.endstring
    rawword := xstrncpy gkform.rawword maxWordSize
    workword := xstrncpy gkform.workword maxWordSize
    forminfo := gkform.forminfo
    geogregion := gkform.geogregion
    dialect := gkform.preverb.dialect ||| gkform.aug1.dialect ||| gkform.stem.dialect |||
      gkform.endstring.dialect }

/-- The adjustment for a preverb with apocope. -/
def adjustApocope (env : WordEnv) (gkform : GkWord) (curanal : GkAnalysis) : GkAnalysis :=
  if hasMorphflag gkform.preverb.morphflags apocope then
    let curanal :=
      if env.dialect &&& homeric ≠ 0 then
        { curanal with dialect := curanal.dialect ||| homeric }
      else curanal
    if env.dialect ≠ homeric then
      { curanal with morphflags := addMorphflag curanal.morphflags poetic }
    else curanal
  else curanal

/-- The adjustment for an unaugmented stem. -/
def adjustUnaugmented (curanal : GkAnalysis) : GkAnalysis :=
  if curanal.dialect ≠ 0 then
    { curanal with
      dialect := curanal.dialect ||| (curanal.dialect &&& (homeric ||| ionic)) }
  else { curanal with dialect := curanal.dialect ||| (homeric ||| ionic) }

/-- The types and flags, copied last. -/
def copyFlags (gkform : GkWord) (curanal : GkAnalysis) : GkAnalysis :=
  { curanal with
    stemtype := gkform.stemtype
    derivtype := gkform.derivtype
    morphflags := addMorphflags (addMorphflags (addMorphflags gkform.morphflags
      gkform.preverb.morphflags) gkform.stem.morphflags) gkform.endstring.morphflags }

/-- The test for a preverb kept unaspirated before a rough breathing. -/
def unaspirated (gkform : GkWord) : Bool :=
  hasMorphflag gkform.preverb.morphflags unaspPreverb && getbreath gkform.stem.gkstring = 40

/-- The crasis string is copied when the candidate has one; `do_crasis` accepts every
string and leaves it as it is. -/
def copyCrasis (gkform : GkWord) (curanal : GkAnalysis) : GkAnalysis :=
  if gkform.crasis ≠ [] then
    { curanal with crasis := xstrncpy gkform.crasis maxWordSize }
  else curanal

/-- The part of the filling after the fields are copied. -/
def finishAnalysis (env : WordEnv) (gkform : GkWord) (curanal : GkAnalysis) :
    GkAnalysis × Bool :=
  if unaspirated gkform && negativeDialect (andDialect gkform.preverb.dialect ionic) then
    (curanal, false)
  else
    let curanal :=
      if unaspirated gkform then
        { curanal with dialect := andDialect curanal.dialect ionic }
      else curanal
    if env.language ≠ latin ∧ hasMorphflag gkform.stem.morphflags unaugmented then
      let curanal := adjustUnaugmented curanal
      if curanal.forminfo.mood ≠ indicative then (curanal, false)
      else (copyFlags gkform curanal, true)
    else (copyFlags gkform curanal, true)

/-- Filling a slot from a candidate. A refused candidate leaves the slot as far as it got. -/
def fillAnalysis (env : WordEnv) (chckcmpvb : Bytes → Bytes) (gkform : GkWord)
    (curanal : GkAnalysis) : GkAnalysis × Bool :=
  let curanal := copyCrasis gkform curanal
  match analysisLemma chckcmpvb gkform with
  | none => (curanal, false)
  | some stLemma =>
    finishAnalysis env gkform (adjustApocope env gkform (copyForm gkform stLemma curanal))

/-- `eq_forminfo` -/
def eqForminfo (f1 f2 : WordForm) : Bool :=
  f1.voice = f2.voice && f1.mood = f2.mood && f1.tense = f2.tense && f1.person = f2.person &&
    f1.number = f2.number && f1.degree = f2.degree && f1.gender = f2.gender &&
    f1.case_ = f2.case_

/-- `equiv_anal` -/
def equivAnal (anal1 anal2 : GkAnalysis) : Bool :=
  anal1.stLemma = anal2.stLemma && anal1.aug1.gkstring = anal2.aug1.gkstring &&
    anal1.preverb.gkstring = anal2.preverb.gkstring && anal1.workword = anal2.workword &&
    anal1.endstring.gkstring = anal2.endstring.gkstring &&
    eqForminfo anal1.forminfo anal2.forminfo &&
    hasMorphflag anal1.stem.morphflags rEIAlpha = hasMorphflag anal2.stem.morphflags rEIAlpha &&
    anal1.stemtype = anal2.stemtype

/-- The dialect of an analysis after another is merged into it; an analysis without
dialects stays unrestricted. -/
def mergeDialect (dial1 dial2 : UInt16) : UInt16 := if dial1 ≠ 0 then dial1 ||| dial2 else dial1

/-- `merge_anal_dialects` -/
def mergeAnalDialects (anal1 anal2 : GkAnalysis) : GkAnalysis :=
  { anal1 with dialect := mergeDialect anal1.dialect anal2.dialect }

/-- The search for an equivalent analysis, which takes over the dialects. -/
def mergeInto (curanal : GkAnalysis) : List GkAnalysis → Option (List GkAnalysis)
  | [] => none
  | a :: rest =>
    if equivAnal curanal a then some (mergeAnalDialects a curanal :: rest)
    else (mergeInto curanal rest).map (a :: ·)

/-- The slots of a word, the first `totanal` of them stored and the others free, and the
counters of the context. There is no array yet when both lists are empty. -/
structure AnalysisStore where
  stored : List GkAnalysis
  free : List GkAnalysis
  storageError : ℕ
  totalAnalyses : ℕ
  totalLemmas : ℕ

def AnalysisStore.empty : AnalysisStore := ⟨[], [], 0, 0, 0⟩

/-- Making room for one more analysis: four slots at first, then twice as many. -/
def AnalysisStore.reserve (store : AnalysisStore) (offer : Offer) : AnalysisStore × Bool :=
  if store.stored = [] ∧ store.free = [] then
    if offer.created then ({ store with free := List.replicate 4 .zero }, true)
    else ({ store with storageError := store.storageError + 1 }, false)
  else if store.free = [] then
    let capacity := store.stored.length
    if capacity > intMax / 2 ∨ !offer.grown then (store, false)
    else ({ store with free := List.replicate capacity .zero }, true)
  else (store, true)

/-- The slot the next candidate is written to; a new one is cleared. -/
def AnalysisStore.nextSlot (store : AnalysisStore) : GkAnalysis := store.free.headD .zero

/-- The part of `AddAnalysis` after a slot is there: fill it, then merge or keep. -/
def storeCandidate (env : WordEnv) (store : AnalysisStore) (offer : Offer) :
    AnalysisStore × Bool :=
  let filled := fillAnalysis env offer.chckcmpvb offer.gkform store.nextSlot
  let curanal := filled.1
  if !filled.2 then ({ store with free := curanal :: store.free.tail }, false)
  else
    match mergeInto curanal store.stored with
    | some stored => ({ store with stored, free := curanal :: store.free.tail }, false)
    | none =>
      let newlem := !store.stored.any fun a => a.stLemma = curanal.stLemma
      ({ store with
          stored := store.stored ++ [curanal]
          free := store.free.tail
          totalAnalyses := store.totalAnalyses + 1
          totalLemmas := store.totalLemmas + newlem.toNat }, true)

/-- `AddAnalysis`: the store afterwards and the return value. -/
def addAnalysis (env : WordEnv) (store : AnalysisStore) (offer : Offer) :
    AnalysisStore × Bool :=
  if store.storageError ≠ 0 then (store, false)
  else if !offer.ensured then (store, false)
  else
    let reserved := store.reserve offer
    if !reserved.2 then (reserved.1, false)
    else storeCandidate env reserved.1 offer

/-- The fields of a slot that `AddAnalysis` never writes. -/
def unwritten (a : GkAnalysis) : Bytes × Bytes × Bytes × GkString × Bytes × Bytes :=
  (a.domains, a.dictform, a.engform, a.suffix, a.rawprvb, a.z)

/-- A slot whose unwritten fields are cleared. -/
def Blank (slot : GkAnalysis) : Prop := unwritten slot = unwritten .zero

/-- The analysis a candidate gives in a cleared slot. -/
def ownAnalysis (env : WordEnv) (chckcmpvb : Bytes → Bytes) (gkform : GkWord) :
    Option GkAnalysis :=
  match fillAnalysis env chckcmpvb gkform .zero with
  | (a, true) => some a
  | (_, false) => none

/-- An analysis with older contents in the fields that are written last or not always. -/
def patch (a : GkAnalysis) (crasis : Bytes) (stemtype derivtype : UInt32)
    (morphflags : MorphFlags) : GkAnalysis :=
  { a with crasis, stemtype, derivtype, morphflags }

theorem finishAnalysis_patch (env : WordEnv) (gkform : GkWord) (a : GkAnalysis) (crasis : Bytes)
    (stemtype derivtype : UInt32) (morphflags : MorphFlags) :
    finishAnalysis env gkform (patch a crasis stemtype derivtype morphflags) =
      if (finishAnalysis env gkform a).2 then
        ({ (finishAnalysis env gkform a).1 with crasis }, true)
      else (patch (finishAnalysis env gkform a).1 crasis stemtype derivtype morphflags, false) := by
  simp only [finishAnalysis, patch, adjustUnaugmented, copyFlags]
  split_ifs <;> simp_all

theorem adjustApocope_patch (env : WordEnv) (gkform : GkWord) (a : GkAnalysis) (crasis : Bytes)
    (stemtype derivtype : UInt32) (morphflags : MorphFlags) :
    ∃ morphflags', adjustApocope env gkform (patch a crasis stemtype derivtype morphflags) =
      patch (adjustApocope env gkform a) crasis stemtype derivtype morphflags' := by
  simp only [adjustApocope, patch]
  split_ifs <;> exact ⟨_, rfl⟩

/-- Copying into any blank slot is copying into a cleared one, apart from what comes last. -/
theorem copyForm_patch {slot : GkAnalysis} (hslot : Blank slot) (gkform : GkWord)
    (stLemma : Bytes) :
    copyForm gkform stLemma slot =
      patch (copyForm gkform stLemma .zero) slot.crasis slot.stemtype slot.derivtype
        slot.morphflags := by
  simp only [Blank, unwritten, Prod.mk.injEq] at hslot
  obtain ⟨h1, h2, h3, h4, h5, h6⟩ := hslot
  simp only [patch, copyForm, h1, h2, h3, h4, h5, h6]

theorem finishAnalysis_unwritten (env : WordEnv) (gkform : GkWord) (a : GkAnalysis) :
    unwritten (finishAnalysis env gkform a).1 = unwritten a := by
  simp only [finishAnalysis, adjustUnaugmented, copyFlags]
  split_ifs <;> rfl

theorem adjustApocope_unwritten (env : WordEnv) (gkform : GkWord) (a : GkAnalysis) :
    unwritten (adjustApocope env gkform a) = unwritten a := by
  simp only [adjustApocope]
  split_ifs <;> rfl

theorem copyCrasis_unwritten (gkform : GkWord) (a : GkAnalysis) :
    unwritten (copyCrasis gkform a) = unwritten a := by
  simp only [copyCrasis]
  split_ifs <;> rfl

theorem fillAnalysis_unwritten (env : WordEnv) (chckcmpvb : Bytes → Bytes) (gkform : GkWord)
    (slot : GkAnalysis) :
    unwritten (fillAnalysis env chckcmpvb gkform slot).1 = unwritten slot := by
  simp only [fillAnalysis]
  split
  · exact copyCrasis_unwritten gkform slot
  · rw [finishAnalysis_unwritten, adjustApocope_unwritten]
    exact copyCrasis_unwritten gkform slot

/-- Two blank slots with the same crasis string after the copy are filled alike. -/
theorem fillAnalysis_blank (env : WordEnv) (chckcmpvb : Bytes → Bytes) (gkform : GkWord)
    {slot : GkAnalysis} (hslot : Blank slot) :
    (fillAnalysis env chckcmpvb gkform slot).2 = (fillAnalysis env chckcmpvb gkform .zero).2 ∧
      ((fillAnalysis env chckcmpvb gkform .zero).2 = true →
        (fillAnalysis env chckcmpvb gkform slot).1 =
          { (fillAnalysis env chckcmpvb gkform .zero).1 with
            crasis := (copyCrasis gkform slot).crasis }) := by
  simp only [fillAnalysis]
  cases analysisLemma chckcmpvb gkform with
  | none => simp
  | some stLemma =>
    -- both runs finish patched copies of one analysis
    have hrun : ∀ s, Blank s → ∃ flags, finishAnalysis env gkform
        (adjustApocope env gkform (copyForm gkform stLemma (copyCrasis gkform s))) =
        finishAnalysis env gkform (patch (adjustApocope env gkform
          (copyForm gkform stLemma .zero)) (copyCrasis gkform s).crasis
            (copyCrasis gkform s).stemtype (copyCrasis gkform s).derivtype flags) := by
      intro s hs
      have hb : Blank (copyCrasis gkform s) := by
        rw [Blank, copyCrasis_unwritten]
        exact hs
      rw [copyForm_patch hb]
      obtain ⟨flags, hflags⟩ := adjustApocope_patch env gkform (copyForm gkform stLemma .zero)
        (copyCrasis gkform s).crasis (copyCrasis gkform s).stemtype
        (copyCrasis gkform s).derivtype (copyCrasis gkform s).morphflags
      exact ⟨flags, by rw [hflags]⟩
    obtain ⟨flags, h1⟩ := hrun slot hslot
    obtain ⟨flags', h2⟩ := hrun .zero rfl
    simp only [h1, h2, finishAnalysis_patch]
    split <;> simp

/-- The crasis string a candidate brings along. -/
def ownCrasis (offer : Offer) : Bytes := xstrncpy offer.gkform.crasis maxWordSize

/-- The analysis of an offer in a cleared slot. -/
def Offer.own (env : WordEnv) (offer : Offer) : Option GkAnalysis :=
  ownAnalysis env offer.chckcmpvb offer.gkform

theorem copyCrasis_crasis (gkform : GkWord) (slot : GkAnalysis) :
    (copyCrasis gkform slot).crasis =
      if gkform.crasis = [] then slot.crasis else xstrncpy gkform.crasis maxWordSize := by
  simp only [copyCrasis]
  split_ifs <;> simp_all

section
variable {env : WordEnv} {offer : Offer} {slot a : GkAnalysis}

/-- Filling a blank slot gives the analysis of the candidate, up to a crasis string that
was in the slot before. -/
theorem fillAnalysis_own (hslot : Blank slot) (h : offer.own env = some a) :
    fillAnalysis env offer.chckcmpvb offer.gkform slot =
      ({ a with crasis := (copyCrasis offer.gkform slot).crasis }, true) := by
  obtain ⟨hflag, hval⟩ := fillAnalysis_blank env offer.chckcmpvb offer.gkform hslot
  simp only [Offer.own, ownAnalysis] at h
  split at h
  · rename_i b hb
    rw [hb] at hflag hval
    rw [Option.some.inj h] at hval
    exact Prod.ext (hval rfl) hflag
  · simp at h

theorem fillAnalysis_refused (hslot : Blank slot) (h : offer.own env = none) :
    (fillAnalysis env offer.chckcmpvb offer.gkform slot).2 = false := by
  obtain ⟨hflag, -⟩ := fillAnalysis_blank env offer.chckcmpvb offer.gkform hslot
  simp only [Offer.own, ownAnalysis] at h
  split at h
  · simp at h
  · rename_i b hb
    rw [hflag, hb]

/-- A candidate's own analysis has the crasis string of the candidate. -/
theorem Offer.own_crasis (h : offer.own env = some a) : a.crasis = ownCrasis offer := by
  have hfill := fillAnalysis_own rfl h
  simp only [Offer.own, ownAnalysis, hfill, Option.some.injEq] at h
  rw [← h, ownCrasis, copyCrasis_crasis]
  split
  · rename_i hc
    simp [hc, GkAnalysis.zero, xstrncpy]
  · rfl

end

/-- The free slots hold nothing in the fields that are never written. -/
def AnalysisStore.FreeBlank (store : AnalysisStore) : Prop := ∀ slot ∈ store.free, Blank slot

theorem AnalysisStore.FreeBlank.nextSlot {store : AnalysisStore} (h : store.FreeBlank) :
    Blank store.nextSlot := by
  cases hf : store.free with
  | nil =>
    rw [AnalysisStore.nextSlot, hf]
    rfl
  | cons slot rest =>
    have hs := h slot (by simp [hf])
    rwa [AnalysisStore.nextSlot, hf]

theorem AnalysisStore.FreeBlank.tail {store : AnalysisStore} (h : store.FreeBlank) :
    ∀ slot ∈ store.free.tail, Blank slot :=
  fun slot hs => h slot (List.mem_of_mem_tail hs)

theorem AnalysisStore.reserve_stored (store : AnalysisStore) (offer : Offer) :
    (store.reserve offer).1.stored = store.stored := by
  unfold AnalysisStore.reserve
  dsimp only
  split_ifs <;> rfl

/-- Making room keeps the analyses and the next slot. -/
theorem AnalysisStore.reserve_spec {store : AnalysisStore} (h : store.FreeBlank) (offer : Offer) :
    (store.reserve offer).1.stored = store.stored ∧ (store.reserve offer).1.FreeBlank ∧
      (store.reserve offer).1.nextSlot = store.nextSlot ∧
      ((store.reserve offer).2 = false → store.free = []) := by
  have hzeros : ∀ n, ∀ slot ∈ List.replicate n GkAnalysis.zero, Blank slot := by
    intro n slot hs
    rw [List.eq_of_mem_replicate hs]
    rfl
  have hhead : ∀ n, (List.replicate n GkAnalysis.zero).headD .zero = .zero := by
    intro n
    cases n <;> rfl
  simp only [AnalysisStore.reserve, AnalysisStore.nextSlot, AnalysisStore.FreeBlank]
  split_ifs with h0 hc hf hg
  · exact ⟨rfl, hzeros 4, by rw [hhead, h0.2]; rfl, by simp⟩
  · exact ⟨rfl, h, rfl, fun _ => h0.2⟩
  · exact ⟨rfl, h, rfl, fun _ => hf⟩
  · exact ⟨rfl, hzeros _, by rw [hhead, hf]; rfl, by simp⟩
  · exact ⟨rfl, h, rfl, by simp⟩

/-- The candidate passes the checks and is equivalent to no stored analysis, in a store that
still works. -/
def takesSlot (env : WordEnv) (store : AnalysisStore) (offer : Offer) : Bool :=
  store.storageError = 0 && offer.ensured &&
    match offer.own env with
    | some a => !store.stored.any (equivAnal a)
    | none => false

theorem mergeInto_none {curanal : GkAnalysis} {l : List GkAnalysis}
    (h : mergeInto curanal l = none) : l.any (equivAnal curanal) = false := by
  induction l with
  | nil => rfl
  | cons a l ih =>
    simp only [mergeInto] at h
    split at h
    · simp at h
    · rename_i ha
      rw [List.any_cons, ih (Option.map_eq_none_iff.mp h)]
      simpa using ha

theorem mergeInto_some {curanal : GkAnalysis} {l l' : List GkAnalysis}
    (h : mergeInto curanal l = some l') :
    l.any (equivAnal curanal) = true ∧ l'.map (·.crasis) = l.map (·.crasis) := by
  induction l generalizing l' with
  | nil => simp [mergeInto] at h
  | cons a l ih =>
    simp only [mergeInto] at h
    split at h
    · rename_i ha
      rw [← Option.some.inj h]
      exact ⟨by simp [ha], rfl⟩
    · obtain ⟨rest, hrest, rfl⟩ := Option.map_eq_some_iff.mp h
      obtain ⟨hany, hmap⟩ := ih hrest
      exact ⟨by simp [hany], by simp [hmap]⟩

/-- What a call did: nothing to the stored analyses, a merge into an equivalent one, or one
more analysis with the crasis string of the candidate or of the slot. -/
inductive AddOutcome (env : WordEnv) (store : AnalysisStore) (offer : Offer) :
    AnalysisStore × Bool → Prop
  | refused {store'} (same : store'.stored = store.stored)
      (why : takesSlot env store offer = true → (store.reserve offer).2 = false) :
      AddOutcome env store offer (store', false)
  | merged {store' a crasis} (own : offer.own env = some a)
      (merge : mergeInto { a with crasis } store.stored = some store'.stored) :
      AddOutcome env store offer (store', false)
  | kept {store' a} (own : offer.own env = some a) (takes : takesSlot env store offer = true)
      (one : store'.stored = store.stored ++
        [{ a with crasis := (copyCrasis offer.gkform store.nextSlot).crasis }]) :
      AddOutcome env store offer (store', true)

theorem storeCandidate_blank (env : WordEnv) {store : AnalysisStore} (h : store.FreeBlank)
    (offer : Offer) : (storeCandidate env store offer).1.FreeBlank := by
  have hfilled : ∀ slot ∈ (fillAnalysis env offer.chckcmpvb offer.gkform store.nextSlot).1 ::
      store.free.tail, Blank slot := by
    intro slot hs
    rcases List.mem_cons.mp hs with rfl | hs
    · rw [Blank, fillAnalysis_unwritten]
      exact h.nextSlot
    · exact h.tail slot hs
  simp only [storeCandidate]
  split
  · exact hfilled
  · split
    · exact hfilled
    · exact h.tail

theorem storeCandidate_outcome (env : WordEnv) {store room : AnalysisStore} (offer : Offer)
    (hroom : room.FreeBlank) (hstored : room.stored = store.stored)
    (hnext : room.nextSlot = store.nextSlot)
    (hready : store.storageError = 0 ∧ offer.ensured = true) :
    AddOutcome env store offer (storeCandidate env room offer) := by
  have htakes : takesSlot env store offer =
      match offer.own env with
      | some a => !store.stored.any (equivAnal a)
      | none => false := by
    simp [takesSlot, hready.1, hready.2]
  cases hown : offer.own env with
  | none =>
    have hflag := fillAnalysis_refused hroom.nextSlot hown
    simp only [hown] at htakes
    simp only [storeCandidate, hflag, Bool.not_false, ↓reduceIte]
    exact .refused hstored (by simp [htakes])
  | some a =>
    have hfill := fillAnalysis_own hroom.nextSlot hown
    simp only [hown] at htakes
    simp only [storeCandidate, hfill, Bool.not_true, Bool.false_eq_true, ↓reduceIte]
    split
    · rename_i stored hmerge
      rw [hstored] at hmerge
      exact .merged hown hmerge
    · rename_i hmerge
      rw [hstored] at hmerge
      have hno := mergeInto_none hmerge
      refine .kept hown ?_ (by simp only [hstored, hnext])
      rw [htakes]
      exact congrArg (! ·) hno

theorem addAnalysis_outcome (env : WordEnv) {store : AnalysisStore} (h : store.FreeBlank)
    (offer : Offer) :
    (addAnalysis env store offer).1.FreeBlank ∧
      AddOutcome env store offer (addAnalysis env store offer) := by
  obtain ⟨hstored, hfree, hnext, -⟩ := AnalysisStore.reserve_spec h offer
  simp only [addAnalysis]
  split_ifs with herr hens hres
  · exact ⟨h, .refused rfl (by simp [takesSlot, herr])⟩
  · exact ⟨h, .refused rfl (by simp_all [takesSlot])⟩
  · exact ⟨hfree, .refused hstored fun _ => by simpa using hres⟩
  · exact ⟨storeCandidate_blank env hfree offer, storeCandidate_outcome env offer hfree hstored
      hnext ⟨by simpa using herr, by simpa using hens⟩⟩

/-- What `AddAnalysis` stores for the candidate alone, in an empty store with memory. -/
def Offer.alone (env : WordEnv) (offer : Offer) : Option GkAnalysis :=
  (addAnalysis env .empty { offer with ensured := true, created := true }).1.stored.head?

theorem freeBlank_empty : AnalysisStore.empty.FreeBlank := by
  intro slot hs
  simp [AnalysisStore.empty] at hs

theorem Offer.alone_eq_own (env : WordEnv) (offer : Offer) :
    offer.alone env = offer.own env := by
  obtain ⟨-, h⟩ := addAnalysis_outcome env freeBlank_empty
    { offer with ensured := true, created := true }
  have hown : Offer.own env { offer with ensured := true, created := true } = offer.own env := rfl
  rw [Offer.alone]
  generalize addAnalysis env .empty { offer with ensured := true, created := true } = r at h
  cases h with
  | refused same why =>
    cases ho : offer.own env with
    | none => rw [same]; rfl
    | some a =>
      have hno := why (by simp [takesSlot, AnalysisStore.empty, hown, ho])
      simp [AnalysisStore.reserve, AnalysisStore.empty] at hno
  | merged own merge => simp [AnalysisStore.empty, mergeInto] at merge
  | kept own takes one =>
    rename_i store' a
    rw [hown] at own
    have hc : a.crasis = (copyCrasis offer.gkform AnalysisStore.empty.nextSlot).crasis := by
      rw [Offer.own_crasis own, copyCrasis_crasis, ownCrasis]
      split
      · rename_i hc
        simp [hc, AnalysisStore.nextSlot, AnalysisStore.empty, GkAnalysis.zero, xstrncpy]
      · rfl
    rw [one, own, ← hc]
    rfl

/-- The store after a sequence of calls. -/
def runOffers (env : WordEnv) (store : AnalysisStore) (offers : List Offer) : AnalysisStore :=
  offers.foldl (fun store offer => (addAnalysis env store offer).1) store

/-- The offers whose candidates were stored, in the order of the stored analyses. -/
def keptOffers (env : WordEnv) : AnalysisStore → List Offer → List Offer
  | _, [] => []
  | store, offer :: offers =>
    let result := addAnalysis env store offer
    (if result.2 then [offer] else []) ++ keptOffers env result.1 offers

/-- The dialects `ds` come from offers equivalent to `a`. -/
def FromEquivalents (env : WordEnv) (offers : List Offer) (a : GkAnalysis) (ds : List UInt16) :
    Prop :=
  ∀ d ∈ ds, ∃ offer ∈ offers, ∃ b, offer.alone env = some b ∧ equivAnal b a = true ∧
    b.dialect = d

/-- A stored analysis is what its candidate gives alone, with a dialect widened by the
equivalents merged into it, and perhaps another crasis string. -/
def Widened (env : WordEnv) (offers : List Offer) (offer : Offer) (slot : GkAnalysis) : Prop :=
  ∃ a ds, offer.alone env = some a ∧ FromEquivalents env offers a ds ∧
    slot = { a with dialect := ds.foldl mergeDialect a.dialect, crasis := slot.crasis }

/-- A stored analysis is what its candidate gives alone, with a dialect widened by the
equivalents merged into it. -/
def Independent (env : WordEnv) (offers : List Offer) (offer : Offer) (slot : GkAnalysis) :
    Prop :=
  ∃ a ds, offer.alone env = some a ∧ FromEquivalents env offers a ds ∧
    slot = { a with dialect := ds.foldl mergeDialect a.dialect }

/-- A candidate that is going to be stored brings its own crasis string, or finds none in
the slot. -/
def CleanFor (env : WordEnv) (store : AnalysisStore) (offer : Offer) : Prop :=
  takesSlot env store offer = true →
    offer.gkform.crasis ≠ [] ∨ store.nextSlot.crasis = []

def RunClean (env : WordEnv) : AnalysisStore → List Offer → Prop
  | _, [] => True
  | store, offer :: offers =>
    CleanFor env store offer ∧ RunClean env (addAnalysis env store offer).1 offers

theorem independent_iff {env : WordEnv} {offers : List Offer} {offer : Offer} {slot : GkAnalysis}
    (h : Widened env offers offer slot) :
    Independent env offers offer slot ↔ slot.crasis = ownCrasis offer := by
  obtain ⟨a, ds, halone, hds, hslot⟩ := h
  rw [Offer.alone_eq_own] at halone
  have hcrasis := Offer.own_crasis halone
  constructor
  · rintro ⟨a', ds', halone', -, hslot'⟩
    rw [Offer.alone_eq_own] at halone'
    rw [hslot', ← Offer.own_crasis halone']
  · intro hc
    refine ⟨a, ds, by rw [Offer.alone_eq_own, halone], hds, ?_⟩
    rw [hc, ← hcrasis] at hslot
    exact hslot

theorem independent_all_iff {env : WordEnv} {offers kept : List Offer} {stored : List GkAnalysis}
    (h : List.Forall₂ (Widened env offers) kept stored) :
    List.Forall₂ (Independent env offers) kept stored ↔
      stored.map (·.crasis) = kept.map ownCrasis := by
  induction h with
  | nil => simp
  | cons hw _ ih => simp [independent_iff hw, ih]

section
variable {env : WordEnv} {offers kept : List Offer} {offer : Offer}

/-- Merging a candidate of the run widens one dialect. -/
theorem widened_merge {a slot : GkAnalysis} {crasis : Bytes} (hoffer : offer ∈ offers)
    (hown : offer.own env = some a) (hequiv : equivAnal { a with crasis } slot = true)
    {o : Offer} (h : Widened env offers o slot) :
    Widened env offers o (mergeAnalDialects slot { a with crasis }) := by
  obtain ⟨b, ds, halone, hds, hslot⟩ := h
  refine ⟨b, ds ++ [a.dialect], halone, ?_, ?_⟩
  · intro d hd
    rcases List.mem_append.mp hd with hd | hd
    · exact hds d hd
    · have hab : equivAnal a b = true := by
        rw [hslot] at hequiv
        exact hequiv
      exact ⟨offer, hoffer, a, by rw [Offer.alone_eq_own, hown], hab,
        (List.mem_singleton.mp hd).symm⟩
  · rw [hslot]
    simp [mergeAnalDialects]

theorem widened_mergeInto {a : GkAnalysis} {crasis : Bytes} {stored stored' : List GkAnalysis}
    (hoffer : offer ∈ offers) (hown : offer.own env = some a)
    (hmerge : mergeInto { a with crasis } stored = some stored')
    (h : List.Forall₂ (Widened env offers) kept stored) :
    List.Forall₂ (Widened env offers) kept stored' := by
  induction h generalizing stored' with
  | nil => simp [mergeInto] at hmerge
  | cons hw hrest ih =>
    simp only [mergeInto] at hmerge
    split at hmerge
    · rename_i hequiv
      rw [← Option.some.inj hmerge]
      exact .cons (widened_merge hoffer hown hequiv hw) hrest
    · obtain ⟨rest, hr, rfl⟩ := Option.map_eq_some_iff.mp hmerge
      exact .cons hw (ih hr)

/-- One call keeps the stored analyses those of their candidates, and it keeps their crasis
strings right exactly when the candidate does not take over a foreign one. -/
theorem outcome_step {store : AnalysisStore} {result : AnalysisStore × Bool}
    (hblank : store.FreeBlank) (hoffer : offer ∈ offers) (h : AddOutcome env store offer result)
    (hw : List.Forall₂ (Widened env offers) kept store.stored) :
    List.Forall₂ (Widened env offers) (kept ++ if result.2 then [offer] else [])
        result.1.stored ∧
      (result.1.stored.map (·.crasis) =
          (kept ++ if result.2 then [offer] else []).map ownCrasis ↔
        store.stored.map (·.crasis) = kept.map ownCrasis ∧ CleanFor env store offer) := by
  cases h with
  | refused same why =>
    have hclean : CleanFor env store offer := by
      intro htakes
      have hnil := (AnalysisStore.reserve_spec hblank offer).2.2.2 (why htakes)
      right
      rw [AnalysisStore.nextSlot, hnil]
      rfl
    simp [same, hw, hclean]
  | merged own merge =>
    obtain ⟨hany, hmap⟩ := mergeInto_some merge
    have hno : takesSlot env store offer = false := by
      simp only [takesSlot, own, Bool.and_eq_false_iff, Bool.not_eq_false']
      exact Or.inr hany
    have hclean : CleanFor env store offer := by simp [CleanFor, hno]
    simp [widened_mergeInto hoffer own merge hw, hmap, hclean]
  | kept own takes one =>
    rename_i a
    have hown := Offer.own_crasis own
    constructor
    · simp only [one, ↓reduceIte]
      refine List.rel_append hw (.cons ?_ .nil)
      exact ⟨a, [], by rw [Offer.alone_eq_own, own], by simp [FromEquivalents], rfl⟩
    · have htook : (copyCrasis offer.gkform store.nextSlot).crasis = ownCrasis offer ↔
          offer.gkform.crasis ≠ [] ∨ store.nextSlot.crasis = [] := by
        rw [copyCrasis_crasis, ownCrasis]
        split <;> rename_i hc <;> simp [hc, xstrncpy]
      simp only [one, ↓reduceIte, List.map_append, List.map_cons, List.map_nil, CleanFor, takes,
        forall_const, ← htook]
      constructor
      · intro heq
        have hinj := List.append_inj' heq rfl
        exact ⟨hinj.1, List.singleton_inj.mp hinj.2⟩
      · rintro ⟨h1, h2⟩
        rw [h1, h2]

/-- In any run, what is stored is what the candidates give alone exactly when no candidate
takes over a foreign crasis string. -/
theorem run_independent_iff {store : AnalysisStore} (os : List Offer)
    (hblank : store.FreeBlank) (hoffers : ∀ offer ∈ os, offer ∈ offers)
    (hw : List.Forall₂ (Widened env offers) kept store.stored) :
    List.Forall₂ (Independent env offers) (kept ++ keptOffers env store os)
        (runOffers env store os).stored ↔
      List.Forall₂ (Independent env offers) kept store.stored ∧ RunClean env store os := by
  induction os generalizing store kept with
  | nil => simp [keptOffers, runOffers, RunClean]
  | cons offer os ih =>
    obtain ⟨hblank', hout⟩ := addAnalysis_outcome env hblank offer
    obtain ⟨hw', hcrasis⟩ := outcome_step hblank (hoffers offer (by simp)) hout hw
    have hrest := ih hblank' (fun o ho => hoffers o (by simp [ho])) hw'
    rw [independent_all_iff hw', hcrasis, ← independent_all_iff hw, and_assoc] at hrest
    simpa only [keptOffers, runOffers, RunClean, List.foldl_cons, List.append_assoc] using hrest

end

/-- For every word and every sequence of candidates, each stored analysis is the one its
candidate gives alone, up to the dialects of merged equivalents, exactly when every candidate
that is to be stored has its own crasis string or finds none left in the slot. -/
theorem addAnalysis_independent_iff (env : WordEnv) (offers : List Offer) :
    List.Forall₂ (Independent env offers) (keptOffers env .empty offers)
        (runOffers env .empty offers).stored ↔
      RunClean env .empty offers := by
  have h := run_independent_iff offers freeBlank_empty (fun _ ho => ho)
    (List.Forall₂.nil (R := Widened env offers))
  simpa [AnalysisStore.empty] using h

/-- A noun form with a crasis string, and two forms without. -/
def crasisForm : GkWord :=
  { GkWord.zero with stLemma := ascii "a)nh/r", workword := ascii "a(nh/r", crasis := ascii "o(" }

def plainForm : GkWord := { GkWord.zero with stLemma := ascii "a)nh/r", workword := ascii "a(nh/r" }

def laterForm : GkWord := { GkWord.zero with stLemma := ascii "e)gw/", workword := ascii "a(nh/r" }

/-- An offer without a compound-verb index, with all the memory it needs. -/
def Offer.plain (gkform : GkWord) : Offer := ⟨gkform, fun _ => [], true, true, true⟩

/-- A merged candidate with a crasis string leaves it to the next one that has none. -/
theorem addAnalysis_staleCrasis :
    ¬ List.Forall₂ (Independent ⟨0, 0⟩ [.plain plainForm, .plain crasisForm, .plain laterForm])
      (keptOffers ⟨0, 0⟩ .empty [.plain plainForm, .plain crasisForm, .plain laterForm])
      (runOffers ⟨0, 0⟩ .empty [.plain plainForm, .plain crasisForm, .plain laterForm]).stored := by
  intro h
  have hclean := (run_independent_iff _ freeBlank_empty (fun _ ho => ho)
    (List.Forall₂.nil (R := Widened ⟨0, 0⟩ _))).mp h
  have hlast := hclean.2.2.2.1
  revert hlast
  simp only [CleanFor]
  decide +kernel

end Morpheus
