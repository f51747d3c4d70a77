import Morpheus.StoredDialect

/-!
# The flags of a stored analysis

`AddAnalysis` adds `POETIC` for an apocopated preverb, and later assigns the flags of the analysis
from those of the candidate and its parts.
-/
namespace Morpheus

/-- A flag that `AddAnalysis` itself adds: `POETIC`, for a preverb with apocope in a word that is
not purely Homeric. -/
def decidedFlag (env : WordEnv) (gkform : GkWord) (n : ℕ) : Prop :=
  n = poetic ∧ hasMorphflag gkform.preverb.morphflags apocope = true ∧ env.dialect ≠ homeric

/-- A flag of the candidate's form, preverb, stem or ending. -/
def partsFlag (gkform : GkWord) (n : ℕ) : Prop :=
  hasMorphflag gkform.morphflags n = true ∨ hasMorphflag gkform.preverb.morphflags n = true ∨
    hasMorphflag gkform.stem.morphflags n = true ∨ hasMorphflag gkform.endstring.morphflags n = true

/-- `POETIC` is added to the analysis, and no part of the candidate brings it along. -/
def LosesPoetic (env : WordEnv) (gkform : GkWord) : Prop :=
  decidedFlag env gkform poetic ∧ ¬ partsFlag gkform poetic

theorem hasMorphflag_addMorphflags (Mf flags : MorphFlags) (n : ℕ) :
    hasMorphflag (addMorphflags Mf flags) n = true ↔
      hasMorphflag Mf n = true ∨ hasMorphflag flags n = true := by
  unfold hasMorphflag addMorphflags
  cases mflagNumToBits n with
  | none => simp
  | some found =>
    obtain ⟨index, setbit⟩ := found
    have hor : (Mf index ||| flags index) &&& setbit =
        (Mf index &&& setbit) ||| (flags index &&& setbit) := by
      apply UInt8.toBitVec_inj.mp
      exact BitVec.and_or_distrib_right
    have hzero : ∀ a b : Byte, a ||| b = 0 ↔ a = 0 ∧ b = 0 := fun a b => UInt8.or_eq_zero_iff
    simp only [bne_iff_ne, ne_eq]
    rw [hor, hzero, not_and_or]

/-- The flags are assigned as a whole after `POETIC` was added. -/
theorem fillAnalysis_flags (env : WordEnv) (chckcmpvb : Bytes → Bytes) (gkform : GkWord)
    (slot : GkAnalysis) (hfill : (fillAnalysis env chckcmpvb gkform slot).2 = true) :
    (fillAnalysis env chckcmpvb gkform slot).1.morphflags =
      addMorphflags (addMorphflags (addMorphflags gkform.morphflags gkform.preverb.morphflags)
        gkform.stem.morphflags) gkform.endstring.morphflags := by
  have hcopy : ∀ b : GkAnalysis, (copyFlags gkform b).morphflags =
      addMorphflags (addMorphflags (addMorphflags gkform.morphflags gkform.preverb.morphflags)
        gkform.stem.morphflags) gkform.endstring.morphflags := fun b => rfl
  unfold fillAnalysis at hfill ⊢
  cases hlemma : analysisLemma chckcmpvb gkform with
  | none => simp [hlemma] at hfill
  | some stLemma =>
    simp only [hlemma] at hfill ⊢
    generalize adjustApocope env gkform (copyForm gkform stLemma (copyCrasis gkform slot)) = a
      at hfill ⊢
    unfold finishAnalysis at hfill ⊢
    by_cases hrefused : (unaspirated gkform &&
        negativeDialect (andDialect gkform.preverb.dialect ionic)) = true
    · rw [if_pos hrefused] at hfill
      cases hfill
    · rw [if_neg hrefused] at hfill ⊢
      dsimp only at hfill ⊢
      generalize (if unaspirated gkform then
        { a with dialect := andDialect a.dialect ionic } else a) = b at hfill ⊢
      split_ifs at hfill ⊢ with hunaug hmood
      · exact hcopy _
      · exact hcopy _

theorem fillAnalysis_partsFlag {env : WordEnv} {chckcmpvb : Bytes → Bytes} {gkform : GkWord}
    {slot : GkAnalysis} (hfill : (fillAnalysis env chckcmpvb gkform slot).2 = true) (n : ℕ) :
    hasMorphflag (fillAnalysis env chckcmpvb gkform slot).1.morphflags n = true ↔
      partsFlag gkform n := by
  rw [fillAnalysis_flags env chckcmpvb gkform slot hfill, hasMorphflag_addMorphflags,
    hasMorphflag_addMorphflags, hasMorphflag_addMorphflags]
  unfold partsFlag
  rw [or_assoc, or_assoc]

/-- The analysis an accepted candidate stores has every flag that `AddAnalysis` decides on and
every flag of the candidate's parts exactly when `POETIC` is not lost. -/
theorem addAnalysis_flags_iff (env : WordEnv) (store : AnalysisStore) (offer : Offer)
    (haccept : (addAnalysis env store offer).2 = true) :
    ∃ a, (addAnalysis env store offer).1.stored = store.stored ++ [a] ∧
      ((∀ n, decidedFlag env offer.gkform n ∨ partsFlag offer.gkform n →
        hasMorphflag a.morphflags n = true) ↔ ¬ LosesPoetic env offer.gkform) := by
  obtain ⟨slot, hfill, hstored⟩ := addAnalysis_accepted haccept
  have hflags := fillAnalysis_partsFlag hfill
  refine ⟨_, hstored, ?_⟩
  constructor
  · intro hall hlost
    obtain ⟨hdecided, hnone⟩ := hlost
    have hposted := hall poetic (.inl hdecided)
    exact hnone ((hflags poetic).mp hposted)
  · intro hkept n hn
    apply (hflags n).mpr
    rcases hn with hdecided | hpart
    · have hpoetic := hdecided.1
      rw [hpoetic] at hdecided ⊢
      by_contra hnone
      exact hkept ⟨hdecided, hnone⟩
    · exact hpart

/-- An apocopated preverb. -/
def apocopatedForm : GkWord :=
  { GkWord.zero with
    stLemma := ascii "bai/nw"
    preverb := { GkString.zero with
      gkstring := ascii "a)na/"
      morphflags := addMorphflag GkString.zero.morphflags apocope } }

theorem addAnalysis_flags_kept :
    ∃ a, (addAnalysis ⟨0, homeric⟩ .empty (.plain apocopatedForm)).1.stored =
        AnalysisStore.empty.stored ++ [a] ∧
      ((∀ n, decidedFlag ⟨0, homeric⟩ apocopatedForm n ∨ partsFlag apocopatedForm n →
        hasMorphflag a.morphflags n = true) ↔ ¬ LosesPoetic ⟨0, homeric⟩ apocopatedForm) :=
  addAnalysis_flags_iff ⟨0, homeric⟩ .empty (.plain apocopatedForm) (by decide +kernel)

/-- In a word of any dialect the candidate is accepted, and its analysis is not poetic. -/
theorem addAnalysis_poetic_lost :
    ¬ ∀ (env : WordEnv) (store : AnalysisStore) (offer : Offer),
      (addAnalysis env store offer).2 = true →
        ∃ a, (addAnalysis env store offer).1.stored = store.stored ++ [a] ∧
          ∀ n, decidedFlag env offer.gkform n ∨ partsFlag offer.gkform n →
            hasMorphflag a.morphflags n = true := by
  intro h
  obtain ⟨a, hstored, hall⟩ := h ⟨0, 0⟩ .empty (.plain apocopatedForm) (by decide +kernel)
  have hnone : (addAnalysis ⟨0, 0⟩ .empty (.plain apocopatedForm)).1.stored.map
      (fun a => hasMorphflag a.morphflags poetic) = [false] := by decide +kernel
  have hposted := hall poetic (.inl ⟨rfl, by decide, by decide⟩)
  rw [hstored] at hnone
  simp [AnalysisStore.empty, hposted] at hnone

end Morpheus
