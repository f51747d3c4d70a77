import Morpheus.Crasis
import Morpheus.DictionaryFrame

/-!
# What `checkstring2` leaves in the word

`checkstring2` looks a word up, tries crasis when nothing is found, and repeats both with other
dialects and flags. It saves what it sets for that, but the flags of the stem from the wrong place,
and it does not save what the first attempt and the lower case of Latin crasis change.
-/
namespace Morpheus

/-- `PROSE` -/
def prose : UInt16 := 0o4000

/-- The language, whether crasis is disabled, and `checkstring3`: what it does to the analyses, its
return value, and the word it leaves. -/
structure StringAttempts where
  language : ℤ
  crasisDisabled : Bool
  search : Checkstring3
  left : GkWord → AnalysisStore → GkWord

/-- A word, its analyses and the return value. -/
structure StringResult where
  gkword : GkWord
  store : AnalysisStore
  rval : ℤ

section Attempts
variable (attempts : StringAttempts) (gkword : GkWord) (store : AnalysisStore)

def StringAttempts.plain : StringResult :=
  let called := attempts.search gkword store
  ⟨attempts.left gkword store, (called.1.foldl SearchRun.act (.start store)).store, called.2⟩

/-- `checkstring3` found nothing. -/
def StringAttempts.triesCrasis : Bool :=
  (attempts.plain gkword store).rval == 0 && (attempts.plain gkword store).store.stored.isEmpty

/-- `checkstring3`, and `checkcrasis` if it finds nothing. -/
def StringAttempts.plainOrCrasis : StringResult :=
  let first := attempts.plain gkword store
  if attempts.triesCrasis gkword store then
    let crasis := checkcrasis attempts.search attempts.language attempts.crasisDisabled first.gkword
      first.store
    ⟨crasis.1, crasis.2.1, crasis.2.2⟩
  else first

/-- The dialect of the word may be widened. -/
def StringAttempts.widens : Bool :=
  attempts.language ≠ latin && (!negativeDialect (andDialect gkword.dialect (homeric ||| ionic)) ||
    gkword.dialect &&& prose == 0)

end Attempts

def unaugmentedWord (gkword : GkWord) : GkWord :=
  let dialect := if gkword.dialect &&& (ionic ||| prose) = 0 then gkword.dialect ||| (ionic ||| epic)
    else gkword.dialect
  { gkword with
    morphflags := addMorphflag gkword.morphflags unaugmented
    stem := { gkword.stem with morphflags := addMorphflag gkword.stem.morphflags unaugmented }
    dialect := dialect ||| ionic ||| epic }

def poeticWord (gkword : GkWord) : GkWord :=
  { gkword with
    morphflags := addMorphflag (addMorphflag gkword.morphflags poetic) unaugmented
    stem := { gkword.stem with morphflags := addMorphflag gkword.stem.morphflags unaugmented } }

/-- What is put back: the flags of the stem are those that were saved from the word. -/
def putBack (saved gkword : GkWord) : GkWord :=
  { gkword with
    dialect := saved.dialect
    morphflags := saved.morphflags
    stem := { gkword.stem with morphflags := saved.morphflags } }

/-- `checkstring2`: the word and its analyses. -/
def StringAttempts.checkstring2 (attempts : StringAttempts) (gkword : GkWord)
    (store : AnalysisStore) : GkWord × AnalysisStore :=
  let first := attempts.plainOrCrasis gkword store
  if attempts.widens first.gkword then
    let second := attempts.plainOrCrasis (unaugmentedWord first.gkword) first.store
    let back := putBack first.gkword second.gkword
    if second.rval = 0 ∧ back.dialect &&& (ionic ||| prose) = 0 then
      let third := attempts.plainOrCrasis (poeticWord back) second.store
      (putBack first.gkword third.gkword, third.store)
    else (back, second.store)
  else (first.gkword, first.store)

/-- The working word, the dialect, and the flags of the word and of its stem are as they were. -/
structure StringFrame (gkword after : GkWord) : Prop where
  workword : after.workword = gkword.workword
  dialect : after.dialect = gkword.dialect
  morphflags : after.morphflags = gkword.morphflags
  stemflags : after.stem.morphflags = gkword.stem.morphflags

/-- The working word after an attempt: crasis in Latin makes it lower case. -/
def StringAttempts.leftWord (attempts : StringAttempts) (gkword : GkWord) (store : AnalysisStore) :
    Bytes :=
  if attempts.triesCrasis gkword store ∧ attempts.crasisDisabled = false ∧
      attempts.language = latin then
    (attempts.left gkword store).workword.map tolower
  else (attempts.left gkword store).workword

/-- The word and the analyses with which the last attempt begins. -/
def StringAttempts.lastAttempt (attempts : StringAttempts) (gkword : GkWord) (store : AnalysisStore) :
    GkWord × AnalysisStore :=
  let first := attempts.plainOrCrasis gkword store
  if attempts.widens first.gkword then
    let second := attempts.plainOrCrasis (unaugmentedWord first.gkword) first.store
    let back := putBack first.gkword second.gkword
    if second.rval = 0 ∧ back.dialect &&& (ionic ||| prose) = 0 then (poeticWord back, second.store)
    else (unaugmentedWord first.gkword, first.store)
  else (gkword, store)

/-- What the attempts have to leave, and the flags of the stem at the beginning. -/
structure StringAttempts.Undisturbed (attempts : StringAttempts) (gkword : GkWord)
    (store : AnalysisStore) : Prop where
  dialect : (attempts.left gkword store).dialect = gkword.dialect
  morphflags : (attempts.left gkword store).morphflags = gkword.morphflags
  stemflags : if attempts.widens (attempts.left gkword store) then
      gkword.stem.morphflags = gkword.morphflags
    else (attempts.left gkword store).stem.morphflags = gkword.stem.morphflags
  workword : attempts.leftWord (attempts.lastAttempt gkword store).1
    (attempts.lastAttempt gkword store).2 = gkword.workword

section Frame
variable (attempts : StringAttempts) (gkword : GkWord) (store : AnalysisStore)

theorem checkcrasis_word (search : Checkstring3) (language : ℤ) (crasisDisabled : Bool) :
    (checkcrasis search language crasisDisabled gkword store).1 =
      if crasisDisabled = false ∧ language = latin then
        { gkword with workword := gkword.workword.map tolower }
      else gkword := by
  unfold checkcrasis crasisInput
  cases crasisDisabled with
  | true => rfl
  | false =>
    dsimp only
    rw [if_neg Bool.false_ne_true]
    by_cases hlatin : language = latin
    · rw [if_pos hlatin, if_pos ⟨rfl, hlatin⟩]
    · rw [if_neg hlatin, if_neg fun h => hlatin h.2]

theorem plainOrCrasis_gkword :
    (attempts.plainOrCrasis gkword store).gkword =
      { attempts.left gkword store with workword := attempts.leftWord gkword store } := by
  unfold StringAttempts.plainOrCrasis StringAttempts.leftWord
  dsimp only
  by_cases htries : attempts.triesCrasis gkword store = true
  · rw [if_pos htries, checkcrasis_word]
    by_cases hlower : attempts.crasisDisabled = false ∧ attempts.language = latin
    · rw [if_pos hlower, if_pos ⟨htries, hlower⟩]
      rfl
    · rw [if_neg hlower, if_neg fun h => hlower h.2]
      rfl
  · rw [if_neg htries, if_neg fun h => htries h.1]
    rfl

theorem widens_plainOrCrasis :
    attempts.widens (attempts.plainOrCrasis gkword store).gkword =
      attempts.widens (attempts.left gkword store) := by
  rw [plainOrCrasis_gkword]
  rfl

theorem leftWord_plainOrCrasis :
    (attempts.plainOrCrasis gkword store).gkword.workword = attempts.leftWord gkword store := by
  rw [plainOrCrasis_gkword]

/-- With other dialects, what was saved after the first attempt is put back in the word that the
last attempt leaves. -/
theorem checkstring2_widened
    (h : attempts.widens (attempts.plainOrCrasis gkword store).gkword = true) :
    ∃ last : GkWord, (attempts.checkstring2 gkword store).1 =
        putBack (attempts.plainOrCrasis gkword store).gkword last ∧
      last.workword = attempts.leftWord (attempts.lastAttempt gkword store).1
        (attempts.lastAttempt gkword store).2 := by
  unfold StringAttempts.checkstring2 StringAttempts.lastAttempt
  dsimp only
  rw [if_pos h, if_pos h]
  split_ifs
  · exact ⟨_, rfl, leftWord_plainOrCrasis attempts _ _⟩
  · exact ⟨_, rfl, leftWord_plainOrCrasis attempts _ _⟩

theorem checkstring2_stringFrame :
    StringFrame gkword (attempts.checkstring2 gkword store).1 ↔
      attempts.Undisturbed gkword store := by
  have hfirst := plainOrCrasis_gkword attempts gkword store
  have hwidens := widens_plainOrCrasis attempts gkword store
  have hdialect : (attempts.plainOrCrasis gkword store).gkword.dialect =
      (attempts.left gkword store).dialect := by rw [hfirst]
  have hflags : (attempts.plainOrCrasis gkword store).gkword.morphflags =
      (attempts.left gkword store).morphflags := by rw [hfirst]
  by_cases hwide : attempts.widens (attempts.left gkword store) = true
  · obtain ⟨last, hresult, hlast⟩ :=
      checkstring2_widened attempts gkword store (by rw [hwidens]; exact hwide)
    constructor
    · rintro ⟨hword, hdial, hmorph, hstem⟩
      rw [hresult] at hword hdial hmorph hstem
      have hkept : (attempts.left gkword store).morphflags = gkword.morphflags :=
        hflags.symm.trans hmorph
      have hsaved : (attempts.left gkword store).morphflags = gkword.stem.morphflags :=
        hflags.symm.trans hstem
      exact ⟨hdialect.symm.trans hdial, hkept, by rw [if_pos hwide, ← hsaved, hkept],
        hlast.symm.trans hword⟩
    · rintro ⟨hdial, hmorph, hstem, hword⟩
      rw [if_pos hwide] at hstem
      rw [hresult]
      exact ⟨hlast.trans hword, hdialect.trans hdial, hflags.trans hmorph,
        (hflags.trans hmorph).trans hstem.symm⟩
  · have hnarrow : ¬ attempts.widens (attempts.plainOrCrasis gkword store).gkword = true := by
      rwa [hwidens]
    have hresult : (attempts.checkstring2 gkword store).1 =
        (attempts.plainOrCrasis gkword store).gkword := by
      unfold StringAttempts.checkstring2
      dsimp only
      rw [if_neg hnarrow]
    have hlast : attempts.lastAttempt gkword store = (gkword, store) := by
      unfold StringAttempts.lastAttempt
      dsimp only
      rw [if_neg hnarrow]
    constructor
    · rintro ⟨hword, hdial, hmorph, hstem⟩
      rw [hresult, hfirst] at hword hdial hmorph hstem
      exact ⟨hdial, hmorph, by rwa [if_neg hwide], by rwa [hlast]⟩
    · rintro ⟨hdial, hmorph, hstem, hword⟩
      rw [if_neg hwide] at hstem
      rw [hlast] at hword
      rw [hresult, hfirst]
      exact ⟨hword, hdial, hmorph, hstem⟩

variable {attempts gkword store}

theorem leftWord_of_left (hleft : ∀ gkword store, attempts.left gkword store = gkword)
    (hnot : ¬ attempts.language = latin) (gkword : GkWord) (store : AnalysisStore) :
    attempts.leftWord gkword store = gkword.workword := by
  unfold StringAttempts.leftWord
  rw [if_neg fun h => hnot h.2.2, hleft]

/-- In Latin the dialects are not widened, so that the first attempt is the last one. -/
theorem lastAttempt_latin (hlatin : attempts.language = latin) :
    attempts.lastAttempt gkword store = (gkword, store) := by
  unfold StringAttempts.lastAttempt
  dsimp only
  rw [if_neg (by simp [StringAttempts.widens, hlatin])]

theorem lastAttempt_workword (hleft : ∀ gkword store, attempts.left gkword store = gkword)
    (hnot : ¬ attempts.language = latin) :
    (attempts.lastAttempt gkword store).1.workword = gkword.workword := by
  have hkept (gkword : GkWord) (store : AnalysisStore) :
      (attempts.plainOrCrasis gkword store).gkword.workword = gkword.workword := by
    rw [leftWord_plainOrCrasis, leftWord_of_left hleft hnot]
  unfold StringAttempts.lastAttempt
  dsimp only
  split_ifs
  · exact (hkept _ _).trans (hkept _ _)
  · exact hkept _ _
  · rfl

/-- Attempts that give the record back as they got it disturb it only by the lower case of Latin
crasis and by the flags that are put back to the stem. -/
theorem undisturbed_of_left (hleft : ∀ gkword store, attempts.left gkword store = gkword) :
    attempts.Undisturbed gkword store ↔
      (attempts.widens gkword = true → gkword.stem.morphflags = gkword.morphflags) ∧
        (attempts.language = latin → attempts.crasisDisabled = true ∨
          attempts.triesCrasis gkword store = false ∨
          gkword.workword.map tolower = gkword.workword) := by
  have hword : attempts.leftWord (attempts.lastAttempt gkword store).1
      (attempts.lastAttempt gkword store).2 = gkword.workword ↔
      (attempts.language = latin → attempts.crasisDisabled = true ∨
        attempts.triesCrasis gkword store = false ∨
        gkword.workword.map tolower = gkword.workword) := by
    by_cases hlatin : attempts.language = latin
    · rw [lastAttempt_latin hlatin, StringAttempts.leftWord, hleft]
      cases attempts.crasisDisabled <;> cases attempts.triesCrasis gkword store <;> simp [hlatin]
    · rw [leftWord_of_left hleft hlatin, lastAttempt_workword hleft hlatin]
      exact iff_of_true rfl fun h => absurd h hlatin
  constructor
  · rintro ⟨-, -, hstem, hlast⟩
    refine ⟨fun hwide => ?_, hword.mp hlast⟩
    rwa [hleft, if_pos hwide] at hstem
  · rintro ⟨hstem, hlast⟩
    refine ⟨by rw [hleft], by rw [hleft], ?_, hword.mpr hlast⟩
    rw [hleft]
    split_ifs with hwide
    · exact hstem hwide
    · rfl

end Frame

section Analyses
variable {attempts : StringAttempts} {search : Checkstring3}

/-- The attempts add analyses and take none away, as the filter of an enclitic would. -/
def Checkstring3.Adds (search : Checkstring3) : Prop :=
  ∀ gkword store, ∀ action ∈ (search gkword store).1, ∃ env offer, action = .offer env offer

theorem foldl_act_onlyAdds {actions : List SearchAction}
    (h : ∀ action ∈ actions, ∃ env offer, action = .offer env offer) (run : SearchRun) :
    run.store.OnlyAdds (actions.foldl SearchRun.act run).store := by
  induction actions generalizing run with
  | nil => exact onlyAdds_of_stored rfl
  | cons action actions ih =>
    obtain ⟨env, offer, rfl⟩ := h action List.mem_cons_self
    have hone : run.store.OnlyAdds (run.act (.offer env offer)).store :=
      addAnalysis_onlyAdds env run.store offer
    exact hone.trans (ih (fun other hother => h other (List.mem_cons_of_mem _ hother)) _)

theorem addDialects_onlyAdds (store : AnalysisStore) (possdial : UInt16) :
    store.OnlyAdds (addDialects store possdial) := by
  intro i a ha
  refine ⟨a.dialect ||| possdial, ?_⟩
  unfold addDialects
  dsimp only
  rw [List.getElem?_map, ha]
  rfl

theorem testcrasis_onlyAdds (h : search.Adds) (row : PossCrasis) (gkword : GkWord)
    (store : AnalysisStore) : store.OnlyAdds (testcrasis search row gkword store).after := by
  have hfound := foldl_act_onlyAdds (h (crasisWord row gkword) store) (.start store)
  unfold testcrasis
  dsimp only
  split_ifs
  · exact hfound.trans (addDialects_onlyAdds _ _)
  · exact hfound

theorem testRows_onlyAdds (h : search.Adds) (gkword : GkWord) (rows : List PossCrasis)
    (store : AnalysisStore) :
    store.OnlyAdds (((testRows search gkword store rows).getLast?.map (·.after)).getD store) := by
  induction rows generalizing store with
  | nil => exact onlyAdds_of_stored rfl
  | cons row rows ih =>
    have hone := testcrasis_onlyAdds h row gkword store
    have hrest := ih (testcrasis search row gkword store).after
    rw [testRows, List.getLast?_cons]
    generalize testRows search gkword (testcrasis search row gkword store).after rows = runs at hrest ⊢
    cases hlast : runs.getLast? with
    | none => exact hone
    | some run =>
      rw [hlast] at hrest
      exact hone.trans hrest

theorem checkcrasis_onlyAdds (h : search.Adds) (language : ℤ) (crasisDisabled : Bool)
    (gkword : GkWord) (store : AnalysisStore) :
    store.OnlyAdds (checkcrasis search language crasisDisabled gkword store).2.1 := by
  unfold checkcrasis crasisRuns
  by_cases hdisabled : crasisDisabled = true
  · rw [if_pos hdisabled]
    exact onlyAdds_of_stored rfl
  · rw [if_neg hdisabled, if_neg hdisabled]
    exact testRows_onlyAdds h _ _ _

theorem plainOrCrasis_onlyAdds (h : attempts.search.Adds) (gkword : GkWord) (store : AnalysisStore) :
    store.OnlyAdds (attempts.plainOrCrasis gkword store).store := by
  have hplain : store.OnlyAdds (attempts.plain gkword store).store :=
    foldl_act_onlyAdds (h gkword store) (.start store)
  unfold StringAttempts.plainOrCrasis
  dsimp only
  split_ifs
  · exact hplain.trans (checkcrasis_onlyAdds h _ _ _ _)
  · exact hplain

theorem checkstring2_onlyAdds (h : attempts.search.Adds) (gkword : GkWord) (store : AnalysisStore) :
    store.OnlyAdds (attempts.checkstring2 gkword store).2 := by
  have hfirst := plainOrCrasis_onlyAdds h gkword store
  unfold StringAttempts.checkstring2
  dsimp only
  split_ifs
  · exact (hfirst.trans (plainOrCrasis_onlyAdds h _ _)).trans (plainOrCrasis_onlyAdds h _ _)
  · exact hfirst.trans (plainOrCrasis_onlyAdds h _ _)
  · exact hfirst

end Analyses

/-- `checkstring2` leaves the working word, the dialect and the flags when and only when the first
attempt leaves the dialect and the flags, the flags of the stem are those of the word in case the
dialects are widened, and the last attempt leaves the working word. Of attempts that leave the whole
record, only the stem flags under widened dialects and a capital under Latin crasis are asked. The
analyses only grow if they do so in the attempts. -/
theorem checkstring2_frame_iff (attempts : StringAttempts) (gkword : GkWord) (store : AnalysisStore) :
    (StringFrame gkword (attempts.checkstring2 gkword store).1 ↔
        attempts.Undisturbed gkword store) ∧
      ((∀ gkword store, attempts.left gkword store = gkword) →
        (StringFrame gkword (attempts.checkstring2 gkword store).1 ↔
          (attempts.widens gkword = true → gkword.stem.morphflags = gkword.morphflags) ∧
            (attempts.language = latin → attempts.crasisDisabled = true ∨
              attempts.triesCrasis gkword store = false ∨
              gkword.workword.map tolower = gkword.workword))) ∧
      (attempts.search.Adds → store.OnlyAdds (attempts.checkstring2 gkword store).2) :=
  ⟨checkstring2_stringFrame attempts gkword store,
    fun hleft => (checkstring2_stringFrame attempts gkword store).trans (undisturbed_of_left hleft),
    fun h => checkstring2_onlyAdds h gkword store⟩

/-- Attempts that find nothing and leave the word as it is. -/
def quietAttempts (language : ℤ) : StringAttempts :=
  ⟨language, false, fun _ _ => ([], 0), fun gkword _ => gkword⟩

/-- A Latin word with a capital becomes lower case; the flags of a Greek stem get lost. -/
theorem checkstring2_capital_and_stemflags :
    ¬ StringFrame { GkWord.zero with workword := ascii "Xqz" }
        ((quietAttempts latin).checkstring2 { GkWord.zero with workword := ascii "Xqz" } .empty).1 ∧
      ¬ StringFrame { GkWord.zero with
          stem := { GkString.zero with morphflags := addMorphflag (fun _ => 0) syllAugment } }
        ((quietAttempts 0).checkstring2 { GkWord.zero with
          stem := { GkString.zero with morphflags := addMorphflag (fun _ => 0) syllAugment } }
            .empty).1 := by
  constructor
  · intro h
    exact absurd h.workword (by decide +kernel)
  · intro h
    exact absurd h.stemflags (by decide +kernel)

end Morpheus
