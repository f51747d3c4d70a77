import Morpheus.AnalysisStore

/-!
# The dialect of a stored analysis

`AddAnalysis` joins the dialects of the parts of a candidate, adds the Homeric and Ionic
bits for some preverbs and stems, and narrows the result with `AndDialect`, which answers
-1 when two dialect sets have nothing in common.
-/
namespace Morpheus

/-- A dialect set that is not the failure value of `AndDialect`. -/
def Genuine (d : UInt16) : Prop := negativeDialect d = false

instance (d : UInt16) : Decidable (Genuine d) := inferInstanceAs (Decidable (_ = _))

/-- Every dialect of the first set is in the second. -/
def DialectWithin (d u : UInt16) : Prop := d ||| u = u

instance (d u : UInt16) : Decidable (DialectWithin d u) := inferInstanceAs (Decidable (_ = _))

/-- The dialects of the preverb, the augment, the stem and the ending together. -/
def partsDialect (gkform : GkWord) : UInt16 :=
  gkform.preverb.dialect ||| gkform.aug1.dialect ||| gkform.stem.dialect |||
    gkform.endstring.dialect

/-- Each part carries a dialect set. -/
def GenuineParts (gkform : GkWord) : Prop :=
  Genuine gkform.preverb.dialect ∧ Genuine gkform.aug1.dialect ∧ Genuine gkform.stem.dialect ∧
    Genuine gkform.endstring.dialect

/-- The bits the code adds of its own. -/
def ownDialects : UInt16 := homeric ||| ionic

/-- The dialect after the adjustment for apocope. -/
def joinedDialect (env : WordEnv) (gkform : GkWord) : UInt16 :=
  if hasMorphflag gkform.preverb.morphflags apocope = true ∧ env.dialect &&& homeric ≠ 0 then
    partsDialect gkform ||| homeric
  else partsDialect gkform

/-- A preverb is kept unaspirated before a rough breathing, and the joined dialects are
restricted to sets without Ionic. -/
def LosesDialect (env : WordEnv) (gkform : GkWord) : Prop :=
  unaspirated gkform = true ∧ joinedDialect env gkform ≠ 0 ∧
    joinedDialect env gkform &&& ionic = 0

instance (env : WordEnv) (gkform : GkWord) : Decidable (LosesDialect env gkform) :=
  inferInstanceAs (Decidable (_ ∧ _ ∧ _))

theorem dialectWithin_iff {d u : UInt16} :
    DialectWithin d u ↔ ∀ i, d.toBitVec.getLsbD i = true → u.toBitVec.getLsbD i = true := by
  rw [DialectWithin, ← UInt16.toBitVec_inj, UInt16.toBitVec_or]
  constructor
  · intro h i hi
    rw [← h, BitVec.getLsbD_or, hi, Bool.true_or]
  · intro h
    apply BitVec.eq_of_getLsbD_eq
    intro i _
    rw [BitVec.getLsbD_or]
    have hi := h i
    cases hd : d.toBitVec.getLsbD i <;> simp_all

theorem DialectWithin.trans {d u v : UInt16} (h : DialectWithin d u) (hu : DialectWithin u v) :
    DialectWithin d v := by
  rw [dialectWithin_iff] at *
  intro i hi
  exact hu i (h i hi)

theorem dialectWithin_or {d e u : UInt16} :
    DialectWithin (d ||| e) u ↔ DialectWithin d u ∧ DialectWithin e u := by
  simp only [dialectWithin_iff, UInt16.toBitVec_or, BitVec.getLsbD_or, Bool.or_eq_true]
  constructor
  · intro h
    exact ⟨fun i hi => h i (.inl hi), fun i hi => h i (.inr hi)⟩
  · intro h i hi
    exact hi.elim (h.1 i) (h.2 i)

theorem dialectWithin_left (d u : UInt16) : DialectWithin d (d ||| u) :=
  (dialectWithin_or.mp (by rw [DialectWithin, UInt16.or_self])).1

theorem dialectWithin_right (d u : UInt16) : DialectWithin u (d ||| u) :=
  (dialectWithin_or.mp (by rw [DialectWithin, UInt16.or_self])).2

theorem dialectWithin_and (d u : UInt16) : DialectWithin (d &&& u) d := by
  rw [dialectWithin_iff]
  intro i hi
  rw [UInt16.toBitVec_and, BitVec.getLsbD_and, Bool.and_eq_true] at hi
  exact hi.1

theorem genuine_iff {d : UInt16} : Genuine d ↔ d.toBitVec.getLsbD 15 = false := by
  have hlt : d.toNat < 65536 := d.toNat_lt
  rw [Genuine, negativeDialect, decide_eq_false_iff_not, ge_iff_le, UInt16.le_iff_toNat_le,
    BitVec.getLsbD, UInt16.toNat_toBitVec, Nat.testBit_eq_decide_div_mod_eq,
    decide_eq_false_iff_not]
  have hbound : (0x8000 : UInt16).toNat = 32768 := rfl
  rw [hbound]
  omega

theorem Genuine.of_within {d u : UInt16} (hu : Genuine u) (h : DialectWithin d u) : Genuine d := by
  rw [genuine_iff] at *
  have h15 := dialectWithin_iff.mp h 15
  cases hd : d.toBitVec.getLsbD 15
  · rfl
  · rw [h15 hd] at hu
    cases hu

theorem Genuine.or {d e : UInt16} (hd : Genuine d) (he : Genuine e) : Genuine (d ||| e) := by
  rw [genuine_iff] at *
  rw [UInt16.toBitVec_or, BitVec.getLsbD_or, hd, he, Bool.or_self]

theorem ownDialects_genuine : Genuine ownDialects := by decide

/-- The joined dialects are among those of the parts and the bits added. -/
theorem joinedDialect_within (env : WordEnv) (gkform : GkWord) :
    DialectWithin (joinedDialect env gkform) (partsDialect gkform ||| ownDialects) := by
  have hhomeric : DialectWithin homeric ownDialects := dialectWithin_left homeric ionic
  unfold joinedDialect
  split_ifs with hadd
  · rw [dialectWithin_or]
    exact ⟨dialectWithin_left _ _, hhomeric.trans (dialectWithin_right _ _)⟩
  · exact dialectWithin_left _ _

theorem partsDialect_genuine {gkform : GkWord} (h : GenuineParts gkform) :
    Genuine (partsDialect gkform ||| ownDialects) := by
  obtain ⟨hpreverb, haug1, hstem, hend⟩ := h
  exact (((hpreverb.or haug1).or hstem).or hend).or ownDialects_genuine

/-- `AndDialect` fails exactly on two sets without a common dialect, and otherwise stays
within the two. -/
theorem andDialect_within {d e u : UInt16} (hd : DialectWithin d u) (he : DialectWithin e u)
    (hcommon : ¬ (d ≠ 0 ∧ e ≠ 0 ∧ d &&& e = 0)) : DialectWithin (andDialect d e) u := by
  unfold andDialect
  split_ifs with hnone hboth hempty hfirst
  · rw [DialectWithin, UInt16.zero_or]
  · exact absurd ⟨hboth.1, hboth.2, hempty⟩ hcommon
  · exact (dialectWithin_and d e).trans hd
  · exact he
  · exact hd

theorem andDialect_fails {d e : UInt16} (hd : d ≠ 0) (he : e ≠ 0) (hcommon : d &&& e = 0) :
    andDialect d e = 0xFFFF := by
  rw [andDialect, if_neg (fun h => hd h.1), if_pos ⟨hd, he⟩, if_pos hcommon]

/-- The dialect after the test of the preverb. -/
def narrowedDialect (env : WordEnv) (gkform : GkWord) : UInt16 :=
  if unaspirated gkform then andDialect (joinedDialect env gkform) ionic
  else joinedDialect env gkform

theorem adjustApocope_dialect (env : WordEnv) (gkform : GkWord) (stLemma : Bytes)
    (slot : GkAnalysis) :
    (adjustApocope env gkform (copyForm gkform stLemma slot)).dialect =
      joinedDialect env gkform := by
  unfold adjustApocope joinedDialect
  split_ifs <;> simp_all [copyForm, partsDialect]

theorem adjustUnaugmented_dialect (curanal : GkAnalysis) :
    (adjustUnaugmented curanal).dialect = curanal.dialect ∨
      (curanal.dialect = 0 ∧ (adjustUnaugmented curanal).dialect = ownDialects) := by
  unfold adjustUnaugmented
  by_cases hset : curanal.dialect = 0
  · right
    simp [hset, ownDialects]
  · left
    rw [if_pos hset]
    have hwithin := dialectWithin_and curanal.dialect (homeric ||| ionic)
    rw [DialectWithin, UInt16.or_comm] at hwithin
    exact hwithin

/-- The dialect an accepted candidate leaves in its slot. -/
theorem fillAnalysis_dialect (env : WordEnv) (chckcmpvb : Bytes → Bytes) (gkform : GkWord)
    (slot : GkAnalysis) (hfill : (fillAnalysis env chckcmpvb gkform slot).2 = true) :
    (fillAnalysis env chckcmpvb gkform slot).1.dialect = narrowedDialect env gkform ∨
      (narrowedDialect env gkform = 0 ∧
        (fillAnalysis env chckcmpvb gkform slot).1.dialect = ownDialects) := by
  unfold fillAnalysis at hfill ⊢
  cases hlemma : analysisLemma chckcmpvb gkform with
  | none => simp [hlemma] at hfill
  | some stLemma =>
    simp only [hlemma] at hfill ⊢
    have hjoined := adjustApocope_dialect env gkform stLemma (copyCrasis gkform slot)
    generalize adjustApocope env gkform (copyForm gkform stLemma (copyCrasis gkform slot)) = a
      at hfill hjoined ⊢
    unfold finishAnalysis at hfill ⊢
    have hcopy : ∀ b : GkAnalysis, (copyFlags gkform b).dialect = b.dialect := fun b => rfl
    have hnarrowed : (if unaspirated gkform then
        { a with dialect := andDialect a.dialect ionic } else a).dialect =
          narrowedDialect env gkform := by
      unfold narrowedDialect
      split <;> simp [hjoined]
    by_cases hrefused : (unaspirated gkform &&
        negativeDialect (andDialect gkform.preverb.dialect ionic)) = true
    · rw [if_pos hrefused] at hfill
      cases hfill
    · rw [if_neg hrefused] at hfill ⊢
      dsimp only at hfill ⊢
      rw [← hnarrowed]
      generalize (if unaspirated gkform then
        { a with dialect := andDialect a.dialect ionic } else a) = b at hfill ⊢
      split_ifs at hfill ⊢ with hunaug hmood
      · rw [hcopy]
        exact adjustUnaugmented_dialect b
      · exact .inl (hcopy b)

/-- A candidate that keeps its dialects leaves a dialect set within those of its parts and
the bits added; one that loses them leaves -1. -/
theorem narrowedDialect_within {env : WordEnv} {gkform : GkWord} (h : ¬ LosesDialect env gkform) :
    DialectWithin (narrowedDialect env gkform) (partsDialect gkform ||| ownDialects) := by
  have hionic : DialectWithin ionic ownDialects := dialectWithin_right homeric ionic
  unfold narrowedDialect
  by_cases hunasp : unaspirated gkform = true
  · rw [if_pos hunasp]
    apply andDialect_within (joinedDialect_within env gkform)
      (hionic.trans (dialectWithin_right _ _))
    intro hcommon
    exact h ⟨hunasp, hcommon.1, hcommon.2.2⟩
  · rw [if_neg hunasp]
    exact joinedDialect_within env gkform

theorem narrowedDialect_lost {env : WordEnv} {gkform : GkWord} (h : LosesDialect env gkform) :
    narrowedDialect env gkform = 0xFFFF := by
  rw [narrowedDialect, if_pos h.1]
  exact andDialect_fails h.2.1 (by decide) h.2.2

/-- An accepted candidate is filled into a slot, which is stored last. -/
theorem addAnalysis_accepted {env : WordEnv} {store : AnalysisStore} {offer : Offer}
    (haccept : (addAnalysis env store offer).2 = true) :
    ∃ slot, (fillAnalysis env offer.chckcmpvb offer.gkform slot).2 = true ∧
      (addAnalysis env store offer).1.stored =
        store.stored ++ [(fillAnalysis env offer.chckcmpvb offer.gkform slot).1] := by
  have hroom : (store.reserve offer).1.stored = store.stored := by
    unfold AnalysisStore.reserve
    dsimp only
    split_ifs <;> rfl
  unfold addAnalysis at haccept ⊢
  by_cases herror : store.storageError ≠ 0
  · rw [if_pos herror] at haccept
    cases haccept
  rw [if_neg herror] at haccept ⊢
  by_cases hensured : (!offer.ensured) = true
  · rw [if_pos hensured] at haccept
    cases haccept
  rw [if_neg hensured] at haccept ⊢
  dsimp only at haccept ⊢
  by_cases hreserved : (!(store.reserve offer).2) = true
  · rw [if_pos hreserved] at haccept
    cases haccept
  rw [if_neg hreserved] at haccept ⊢
  refine ⟨(store.reserve offer).1.nextSlot, ?_⟩
  unfold storeCandidate at haccept ⊢
  dsimp only at haccept ⊢
  cases hfill : (fillAnalysis env offer.chckcmpvb offer.gkform
      (store.reserve offer).1.nextSlot).2 with
  | false =>
    rw [hfill] at haccept
    cases haccept
  | true =>
    rw [hfill] at haccept
    simp only [Bool.not_true, Bool.false_eq_true, ↓reduceIte] at haccept ⊢
    cases hmerge : mergeInto (fillAnalysis env offer.chckcmpvb offer.gkform
        (store.reserve offer).1.nextSlot).1 (store.reserve offer).1.stored with
    | some stored =>
      rw [hmerge] at haccept
      cases haccept
    | none =>
      dsimp only
      rw [hroom]
      exact ⟨trivial, rfl⟩

/-- The analysis an accepted candidate stores has a genuine dialect set, of dialects of its
parts and Homeric and Ionic, exactly when the candidate does not lose its dialects. -/
theorem addAnalysis_dialect_iff (env : WordEnv) (store : AnalysisStore) (offer : Offer)
    (hparts : GenuineParts offer.gkform)
    (haccept : (addAnalysis env store offer).2 = true) :
    ∃ a, (addAnalysis env store offer).1.stored = store.stored ++ [a] ∧
      (Genuine a.dialect ∧
          DialectWithin a.dialect (partsDialect offer.gkform ||| ownDialects) ↔
        ¬ LosesDialect env offer.gkform) := by
  obtain ⟨slot, hfill, hstored⟩ := addAnalysis_accepted haccept
  refine ⟨_, hstored, ?_⟩
  have hdialect := fillAnalysis_dialect env offer.chckcmpvb offer.gkform slot hfill
  constructor
  · intro ⟨hgenuine, _⟩ hlost
    have hnarrowed := narrowedDialect_lost hlost
    rw [hnarrowed] at hdialect
    rcases hdialect with hd | ⟨hzero, _⟩
    · rw [hd] at hgenuine
      exact absurd hgenuine (by decide)
    · exact absurd hzero (by decide)
  · intro hkept
    have hwithin : DialectWithin (fillAnalysis env offer.chckcmpvb offer.gkform slot).1.dialect
        (partsDialect offer.gkform ||| ownDialects) := by
      rcases hdialect with hd | ⟨_, hd⟩
      · rw [hd]
        exact narrowedDialect_within hkept
      · rw [hd]
        exact dialectWithin_right _ _
    exact ⟨(partsDialect_genuine hparts).of_within hwithin, hwithin⟩

/-- A Doric stem with a rough breathing, after a preverb kept unaspirated. -/
def unaspiratedForm : GkWord :=
  { GkWord.zero with
    stLemma := ascii "i(/sthmi"
    preverb := { GkString.zero with
      gkstring := ascii "a)po"
      morphflags := addMorphflag GkString.zero.morphflags unaspPreverb }
    stem := { GkString.zero with gkstring := ascii "i(sta", dialect := 0o200 } }

/-- The same with an Ionic preverb cut by apocope and an Attic ending. -/
def ionicPreverbForm : GkWord :=
  { unaspiratedForm with
    preverb := { unaspiratedForm.preverb with
      dialect := ionic
      morphflags := addMorphflag unaspiratedForm.preverb.morphflags apocope }
    endstring := { GkString.zero with gkstring := ascii "mi", dialect := 0o2 } }

/-- In a Homeric word the Ionic bit of the parts is kept. -/
theorem addAnalysis_dialect_kept :
    (addAnalysis ⟨0, homeric⟩ .empty (.plain ionicPreverbForm)).1.stored.map (·.dialect) = [ionic] ∧
      ∃ a, (addAnalysis ⟨0, homeric⟩ .empty (.plain ionicPreverbForm)).1.stored =
          AnalysisStore.empty.stored ++ [a] ∧
        Genuine a.dialect ∧ DialectWithin a.dialect (partsDialect ionicPreverbForm ||| ownDialects) := by
  refine ⟨by decide +kernel, ?_⟩
  obtain ⟨a, hstored, hkept⟩ := addAnalysis_dialect_iff ⟨0, homeric⟩ .empty (.plain ionicPreverbForm)
    (by unfold GenuineParts; decide) (by decide +kernel)
  exact ⟨a, hstored, hkept.mpr (by decide +kernel)⟩

/-- The candidate is accepted, and -1 is stored. -/
theorem addAnalysis_dialect_lost :
    ¬ ∀ (env : WordEnv) (store : AnalysisStore) (offer : Offer), GenuineParts offer.gkform →
      (addAnalysis env store offer).2 = true →
        ∃ a, (addAnalysis env store offer).1.stored = store.stored ++ [a] ∧ Genuine a.dialect ∧
          DialectWithin a.dialect (partsDialect offer.gkform ||| ownDialects) := by
  intro h
  have haccept : (addAnalysis ⟨0, 0⟩ .empty (.plain unaspiratedForm)).2 = true := by
    decide +kernel
  obtain ⟨a, hstored, hgenuine, _⟩ := h ⟨0, 0⟩ .empty (.plain unaspiratedForm)
    (by unfold GenuineParts; decide) haccept
  have hdialect : (addAnalysis ⟨0, 0⟩ .empty (.plain unaspiratedForm)).1.stored.map
      (fun a => a.dialect) = [0xFFFF] := by decide +kernel
  rw [hstored] at hdialect
  have hfailed : a.dialect = 0xFFFF := by simpa [AnalysisStore.empty] using hdialect
  rw [hfailed] at hgenuine
  exact absurd hgenuine (by decide)

end Morpheus
