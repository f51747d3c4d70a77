import Morpheus.DerivationSearch
import Morpheus.EndIndex
import Morpheus.StoreInvariant
import Morpheus.StoredPreverb

/-!
# What `checkdict` leaves in the word

`checkdict` enters a dictionary entry in the record of the word, generates forms, and gives the
parts of the word back. It does not do so when the entry stores a preverb and the word has none.
-/
namespace Morpheus

/-- What `checkdict` calls: the generator with its tests of the accent, which read the word and
write a copy of it, and the comparison of the word with the forms, which adds analyses. The memory
is what stands in front of the preverbs. -/
structure FormGenerator where
  language : ℤ
  memory : Bytes
  genStemForms : GkWord → Bytes → Option (List GkWord)
  isUltimaAccent : MorphFlags → Bool
  nsylls : Bytes → ℕ
  possThirdmono : GkWord → Bool
  matching : GkWord → List GkWord → List Offer

/-- The text from the preverb on that the keys of an entry store. -/
def storedPb (stemkeys : Bytes) : Option Bytes :=
  match isSubstring (ascii "pb:") (getLemmStem (xstrncpy stemkeys longString)).2.2 with
  | none => none
  | some (before, text) => if before.getLast? = some 114 then none else some text

/-- The stem part for an entry, with the text of its stem. -/
def entryStem (stem : GkString) (stemkeys : Bytes) : GkString :=
  { stem with
    gkstring := (getLemmStem (xstrncpy stemkeys longString)).2.1
    morphflags := if hasMorphflag stem.morphflags syllAugment then
      zapMorphflag stem.morphflags syllAugment else stem.morphflags }

/-- The word with an entry: its stem part, its lemma, and the flag of its stem. -/
def enterEntry (gkword : GkWord) (stem : GkString) (stemkeys : Bytes) : GkWord :=
  { gkword with
    stem := entryStem stem stemkeys
    stLemma := (getLemmStem (xstrncpy stemkeys longString)).1
    morphflags := if hasMorphflag stem.morphflags syllAugment then
      addMorphflag gkword.morphflags syllAugment else zapMorphflag gkword.morphflags syllAugment }

/-- The parts of the word that `checkdict` gives back at its end. -/
def giveBack (saved gkword : GkWord) : GkWord :=
  { gkword with
    preverb := saved.preverb
    aug1 := saved.aug1
    stem := saved.stem
    endstring := saved.endstring }

/-- The word and the forms for it, with the ending as it is or without its accent. -/
def FormGenerator.forms (generator : FormGenerator) (gkword : GkWord) (keyp : Bytes) :
    Option (GkWord × List GkWord) :=
  match generator.genStemForms gkword keyp with
  | some gkforms => some (gkword, gkforms)
  | none =>
    if generator.isUltimaAccent gkword.morphflags || generator.nsylls gkword.stem.gkstring == 0 ||
        generator.possThirdmono gkword then
      let gkword := { gkword with
        endstring := { gkword.endstring with gkstring := stripacc gkword.endstring.gkstring } }
      (generator.genStemForms gkword keyp).map fun gkforms => (gkword, gkforms)
    else none

/-- `CheckGenWords`: the number of hits and the analyses. -/
def FormGenerator.checkGenWords (generator : FormGenerator) (gkword : GkWord)
    (gkforms : List GkWord) (store : AnalysisStore) : ℕ × AnalysisStore :=
  (generator.matching gkword gkforms).foldl (fun result offer =>
    let added := addAnalysis ⟨generator.language, gkword.dialect⟩ result.2 offer
    (result.1 + added.2.toNat, added.1)) (0, store)

/-- The result of `checkdict`: the word, its analyses, and the number of hits. -/
structure DictResult where
  gkword : GkWord
  store : AnalysisStore
  hits : ℕ

/-- `checkdict` on a word and the stem and the keys of an entry. -/
def FormGenerator.checkdict (generator : FormGenerator) (gkword : GkWord) (store : AnalysisStore)
    (stem : GkString) (stemkeys : Bytes) : DictResult :=
  let saved := gkword
  let gkword := enterEntry gkword stem stemkeys
  if (storedPb stemkeys).isSome ∧ gkword.preverb.gkstring = [] then ⟨gkword, store, 0⟩
  else
    match Morpheus.checkdict generator.memory gkword.preverb.gkstring stemkeys with
    | none => ⟨giveBack saved gkword, store, 0⟩
    | some keyp =>
      match generator.forms gkword keyp with
      | none => ⟨saved, store, 0⟩
      | some (gkword, gkforms) =>
        let checked := generator.checkGenWords gkword gkforms store
        ⟨giveBack saved gkword, checked.2, checked.1⟩

/-- The stored analyses stay in their places, but for the dialects that are merged into them. -/
def AnalysisStore.OnlyAdds (store after : AnalysisStore) : Prop :=
  ∀ (i : ℕ) (a : GkAnalysis), store.stored[i]? = some a →
    ∃ dialect, after.stored[i]? = some { a with dialect }

/-- The four parts of a word are as they were. -/
structure PartsKept (gkword after : GkWord) : Prop where
  preverb : after.preverb = gkword.preverb
  aug1 : after.aug1 = gkword.aug1
  stem : after.stem = gkword.stem
  endstring : after.endstring = gkword.endstring

/-- The entry stores a preverb, and the word has none. -/
def UnwantedPreverb (gkword : GkWord) (stemkeys : Bytes) : Prop :=
  (storedPb stemkeys).isSome ∧ gkword.preverb.gkstring = []

/-- The keys of the entry agree with the word, but there are no forms for them. -/
def FormGenerator.Formless (generator : FormGenerator) (gkword : GkWord) (stem : GkString)
    (stemkeys : Bytes) : Prop :=
  ∃ keyp, Morpheus.checkdict generator.memory gkword.preverb.gkstring stemkeys = some keyp ∧
    generator.forms (enterEntry gkword stem stemkeys) keyp = none

/-- The lemma and the flag of the entry are those of the word. -/
def EntryMarks (gkword : GkWord) (stem : GkString) (stemkeys : Bytes) : Prop :=
  (enterEntry gkword stem stemkeys).stLemma = gkword.stLemma ∧
    (enterEntry gkword stem stemkeys).morphflags = gkword.morphflags

section
variable {store after : AnalysisStore}

theorem onlyAdds_of_stored (h : after.stored = store.stored) : store.OnlyAdds after := by
  intro i a ha
  exact ⟨a.dialect, by rw [h, ha]⟩

theorem AnalysisStore.OnlyAdds.trans {last : AnalysisStore} (h : store.OnlyAdds after)
    (h' : after.OnlyAdds last) : store.OnlyAdds last := by
  intro i a ha
  obtain ⟨d, hd⟩ := h i a ha
  obtain ⟨d', hd'⟩ := h' i _ hd
  exact ⟨d', hd'⟩

theorem storeCandidate_onlyAdds (env : WordEnv) (store : AnalysisStore) (offer : Offer) :
    store.OnlyAdds (storeCandidate env store offer).1 := by
  unfold storeCandidate
  dsimp only
  split
  · exact onlyAdds_of_stored rfl
  · split
    · rename_i merged hmerged
      obtain ⟨front, old, back, hsplit, -, -, hwidened⟩ := mergeInto_split hmerged
      intro i a ha
      rw [hsplit] at ha
      dsimp only
      rw [hwidened]
      rcases lt_trichotomy i front.length with hi | rfl | hi
      · rw [List.getElem?_append_left hi] at ha ⊢
        exact ⟨a.dialect, ha⟩
      · rw [List.getElem?_append_right le_rfl, Nat.sub_self] at ha ⊢
        rw [← Option.some.inj ha]
        exact ⟨_, rfl⟩
      · obtain ⟨k, hk⟩ := Nat.exists_eq_add_of_lt hi
        have hback : i - front.length = k + 1 := by omega
        rw [List.getElem?_append_right hi.le, hback, List.getElem?_cons_succ] at ha ⊢
        exact ⟨a.dialect, ha⟩
    · intro i a ha
      dsimp only
      rw [List.getElem?_append_left (List.getElem?_eq_some_iff.mp ha).1]
      exact ⟨a.dialect, ha⟩

theorem addAnalysis_onlyAdds (env : WordEnv) (store : AnalysisStore) (offer : Offer) :
    store.OnlyAdds (addAnalysis env store offer).1 := by
  have hroom := onlyAdds_of_stored (store.reserve_stored offer)
  unfold addAnalysis
  dsimp only
  split_ifs
  · exact onlyAdds_of_stored rfl
  · exact onlyAdds_of_stored rfl
  · exact hroom
  · exact hroom.trans (storeCandidate_onlyAdds env _ offer)

theorem checkGenWords_onlyAdds (generator : FormGenerator) (gkword : GkWord) (gkforms : List GkWord)
    (store : AnalysisStore) :
    store.OnlyAdds (generator.checkGenWords gkword gkforms store).2 := by
  unfold FormGenerator.checkGenWords
  generalize generator.matching gkword gkforms = offers
  have hall : ∀ (hits : ℕ) (store : AnalysisStore), store.OnlyAdds
      (offers.foldl (fun (result : ℕ × AnalysisStore) offer =>
        let added := addAnalysis ⟨generator.language, gkword.dialect⟩ result.2 offer
        (result.1 + added.2.toNat, added.1)) (hits, store)).2 := by
    induction offers with
    | nil => exact fun hits store => onlyAdds_of_stored rfl
    | cons offer offers ih =>
      intro hits store
      exact (addAnalysis_onlyAdds _ store offer).trans (ih _ _)
  exact hall 0 store

end

section
variable (generator : FormGenerator) (gkword : GkWord) (store : AnalysisStore) (stem : GkString)
  (stemkeys : Bytes)

theorem FormGenerator.forms_same {generator : FormGenerator} {gkword after : GkWord} {keyp : Bytes}
    {gkforms : List GkWord} (h : generator.forms gkword keyp = some (after, gkforms)) :
    ∃ ending, after = { gkword with endstring := ending } := by
  unfold FormGenerator.forms at h
  split at h
  · cases h
    exact ⟨gkword.endstring, rfl⟩
  · split_ifs at h
    · obtain ⟨forms, -, heq⟩ := Option.map_eq_some_iff.mp h
      cases heq
      exact ⟨_, rfl⟩

theorem checkdict_unwanted (h : UnwantedPreverb gkword stemkeys) :
    generator.checkdict gkword store stem stemkeys = ⟨enterEntry gkword stem stemkeys, store, 0⟩ :=
  if_pos h

theorem checkdict_formless (hwanted : ¬ UnwantedPreverb gkword stemkeys)
    (h : generator.Formless gkword stem stemkeys) :
    generator.checkdict gkword store stem stemkeys = ⟨gkword, store, 0⟩ := by
  obtain ⟨keyp, hkeyp, hforms⟩ := h
  have hkept : ¬ ((storedPb stemkeys).isSome ∧
      (enterEntry gkword stem stemkeys).preverb.gkstring = []) := hwanted
  unfold FormGenerator.checkdict
  dsimp only
  rw [if_neg hkept]
  have hentered : Morpheus.checkdict generator.memory
      (enterEntry gkword stem stemkeys).preverb.gkstring stemkeys = some keyp := hkeyp
  rw [hentered]
  dsimp only
  rw [hforms]

/-- An entry that is not refused for its preverb and has forms, or keys that do not agree with the
word, leaves its lemma and its flag. -/
theorem checkdict_entered (hwanted : ¬ UnwantedPreverb gkword stemkeys)
    (h : ¬ generator.Formless gkword stem stemkeys) :
    (generator.checkdict gkword store stem stemkeys).gkword =
      { gkword with
        stLemma := (enterEntry gkword stem stemkeys).stLemma
        morphflags := (enterEntry gkword stem stemkeys).morphflags } := by
  have hkept : ¬ ((storedPb stemkeys).isSome ∧
      (enterEntry gkword stem stemkeys).preverb.gkstring = []) := hwanted
  unfold FormGenerator.checkdict
  dsimp only
  rw [if_neg hkept]
  cases hkeyp : Morpheus.checkdict generator.memory
      (enterEntry gkword stem stemkeys).preverb.gkstring stemkeys with
  | none => rfl
  | some keyp =>
    dsimp only
    cases hforms : generator.forms (enterEntry gkword stem stemkeys) keyp with
    | none => exact absurd ⟨keyp, hkeyp, hforms⟩ h
    | some result =>
      obtain ⟨after, gkforms⟩ := result
      obtain ⟨ending, rfl⟩ := FormGenerator.forms_same hforms
      rfl

theorem checkdict_onlyAdds :
    store.OnlyAdds (generator.checkdict gkword store stem stemkeys).store := by
  unfold FormGenerator.checkdict
  dsimp only
  split_ifs
  · exact onlyAdds_of_stored rfl
  · split
    · exact onlyAdds_of_stored rfl
    · split
      · exact onlyAdds_of_stored rfl
      · exact checkGenWords_onlyAdds generator _ _ store

theorem checkdict_none_of_unwanted {gkword : GkWord} {stemkeys : Bytes} (memory : Bytes)
    (h : UnwantedPreverb gkword stemkeys) :
    Morpheus.checkdict memory gkword.preverb.gkstring stemkeys = none := by
  unfold Morpheus.checkdict
  exact if_pos h

theorem enterEntry_eq {gkword : GkWord} {stem : GkString} {stemkeys : Bytes}
    (hstem : entryStem stem stemkeys = gkword.stem) (hmarks : EntryMarks gkword stem stemkeys) :
    enterEntry gkword stem stemkeys = gkword := by
  have hentered : enterEntry gkword stem stemkeys =
      { gkword with
        stem := entryStem stem stemkeys
        stLemma := (enterEntry gkword stem stemkeys).stLemma
        morphflags := (enterEntry gkword stem stemkeys).morphflags } := rfl
  rw [hentered, hstem, hmarks.1, hmarks.2]

/-- The parts of the word are kept unless an entry is refused for its preverb and has another stem
than the word; the rest of the word is kept where there are no forms, and else where the entry has
the lemma and the flag of the word. Analyses are only added. -/
theorem checkdict_frame_iff :
    (PartsKept gkword (generator.checkdict gkword store stem stemkeys).gkword ∧
        store.OnlyAdds (generator.checkdict gkword store stem stemkeys).store ↔
      (UnwantedPreverb gkword stemkeys → entryStem stem stemkeys = gkword.stem)) ∧
    ((generator.checkdict gkword store stem stemkeys).gkword = gkword ∧
        store.OnlyAdds (generator.checkdict gkword store stem stemkeys).store ↔
      (UnwantedPreverb gkword stemkeys → entryStem stem stemkeys = gkword.stem) ∧
        (generator.Formless gkword stem stemkeys ∨ EntryMarks gkword stem stemkeys)) := by
  have honly := checkdict_onlyAdds generator gkword store stem stemkeys
  rw [and_iff_left honly, and_iff_left honly]
  by_cases hunwanted : UnwantedPreverb gkword stemkeys
  · have hformed : ¬ generator.Formless gkword stem stemkeys := by
      rintro ⟨keyp, hkeyp, -⟩
      rw [checkdict_none_of_unwanted generator.memory hunwanted] at hkeyp
      cases hkeyp
    rw [checkdict_unwanted generator gkword store stem stemkeys hunwanted]
    constructor
    · exact ⟨fun h _ => h.stem, fun h => ⟨rfl, rfl, h hunwanted, rfl⟩⟩
    · constructor
      · intro h
        have hlemma := congrArg GkWord.stLemma h
        have hflags := congrArg GkWord.morphflags h
        exact ⟨fun _ => congrArg GkWord.stem h, .inr ⟨hlemma, hflags⟩⟩
      · rintro ⟨hstem, hmarks⟩
        exact enterEntry_eq (hstem hunwanted) (hmarks.resolve_left hformed)
  · by_cases hformless : generator.Formless gkword stem stemkeys
    · rw [checkdict_formless generator gkword store stem stemkeys hunwanted hformless]
      exact ⟨iff_of_true ⟨rfl, rfl, rfl, rfl⟩ fun h => absurd h hunwanted,
        iff_of_true rfl ⟨fun h => absurd h hunwanted, .inl hformless⟩⟩
    · rw [checkdict_entered generator gkword store stem stemkeys hunwanted hformless]
      refine ⟨iff_of_true ⟨rfl, rfl, rfl, rfl⟩ fun h => absurd h hunwanted, ?_⟩
      constructor
      · intro h
        have hlemma := congrArg GkWord.stLemma h
        have hflags := congrArg GkWord.morphflags h
        exact ⟨fun h => absurd h hunwanted, .inr ⟨hlemma, hflags⟩⟩
      · rintro ⟨-, hmarks⟩
        obtain ⟨hlemma, hflags⟩ := hmarks.resolve_left hformless
        rw [hlemma, hflags]

end

/-- A generator without forms. -/
def silentGenerator : FormGenerator :=
  ⟨0, [], fun _ _ => none, fun _ => false, fun _ => 1, fun _ => false, fun _ _ => []⟩

def simpleStem : GkString := { GkString.zero with gkstring := ascii "a)l" }

/-- The stem of the word is found without its quantity, and the entry stores a preverb; the long
vowel of the entry stays in the word. -/
theorem checkdict_unwanted_quantity :
    ¬ PartsKept { GkWord.zero with stem := simpleStem }
      (silentGenerator.checkdict { GkWord.zero with stem := simpleStem } .empty simpleStem
        (ascii "a)nali/skw:a)_l:iskw:pb:a)na/")).gkword := by
  intro h
  exact absurd (congrArg GkString.gkstring h.stem) (by decide +kernel)

end Morpheus
