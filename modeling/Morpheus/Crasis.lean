import Morpheus.AnalysisStore

/-!
# Crasis

`checkcrasis` tries every row of a table that the word begins with: the row's ending
replaces the beginning, `checkstring3` analyses the new word, and the row's dialect is
added (`checkcrasis.c`). What `checkstring3` does to the shared store is given by the
calls of `AddAnalysis` it makes and by the filter of its enclitics.
-/
namespace Morpheus

/-- `DORIC` -/
def doric : UInt16 := 0o200

/-- `EPIC`: `NON_HOMERIC_EPIC|HOMERIC` -/
def epic : UInt16 := 0o2000 ||| homeric

/-- `MAXCRASIS` -/
def maxCrasis : ℕ := 12

/-- `poss_crasis` -/
structure PossCrasis where
  mungedword : Bytes
  wordstart : Bytes
  preword : Bytes
  possdial : UInt16

/-- A row of a table. A text that fills its field has no NUL, so reading it runs on into the
next field. -/
def PossCrasis.row (mungedword wordstart preword : String) (possdial : UInt16) : PossCrasis :=
  let start := ascii wordstart
  let munged := ascii mungedword
  ⟨if munged.length < maxCrasis then munged else munged ++ start, start, ascii preword, possdial⟩

/-- `PossCras` -/
def possCras : List PossCrasis := [
  .row "*)=w" "*)/a" "w)=" 0,
  .row "*)=w" "*)e" "w)=" 0,
  .row "ka)" "*)a" "kai/" 0,
  .row "a(=" "a)/" "o(" 0,
  .row "a(" "a)" "o(" 0,
  .row "a(" "e)" "a(/" 0,
  .row "ei(" "ei)" "a(/" 0,
  .row "au(" "au)" "o(" 0,
  .row "dau)" "au)" "de/" 0,
  .row "dh)" "e)" "dh/" 0,
  .row "da)" "a)" "dh/" 0,
  .row "hu(" "eu)" "h(" 0,
  .row "qat" "e(t" "tou=" 0,
  .row "qa)/" "e(/" "to/" 0,
  .row "qoi)" "i(" "to/" 0,
  .row "qai)" "i(" "ta/" 0,
  .row "qou)" "u(" "to/" 0,
  .row "qou(" "e(" "to/" 0,
  .row "qou)" "e(" "to/" 0,
  .row "qh)" "h(" "th=|" 0,
  .row "qh)" "h(" "tou=" 0,
  .row "qh)" "h(" "to/" 0,
  .row "qa)" "e(" "th=|" 0,
  .row "qa)" "a(" "ta/" 0,
  .row "qa)" "e(" "tou=" 0,
  .row "qa/t" "e(/t" "to/" 0,
  .row "kai)" "ai)" "kai/" (doric ||| epic),
  .row "kei)" "ei)" "kai/" 0,
  .row "kei)" "ei)" "kai/" 0,
  .row "keu)" "eu)" "kai/" 0,
  .row "ka)=|" "ei)=" "kai/" 0,
  .row "ka)|" "ai)" "kai/" 0,
  .row "ta)|" "ai)" "ta/" 0,
  .row "ka)=" "a)/" "kai/" 0,
  .row "ka)" "a)" "kai/" 0,
  .row "katta" "ta" "kata/" doric,
  .row "kadd" "d" "kata/" epic,
  .row "ka)" "e)" "kai/" 0,
  .row "kw)" "o)" "kai/" 0,
  .row "kw)" "w)" "kai/" 0,
  .row "kou)" "ou)" "kai/" 0,
  .row "kau)" "au)" "kai/" 0,
  .row "khu)" "hu)" "kai/" 0,
  .row "moi)" "oi)" "mou" 0,
  .row "ma)" "a)" "mh/" 0,
  .row "mh)/" "e)" "mh/" 0,
  .row "mou)" "e)" "mou" 0,
  .row "ou(" "e)" "o(/" 0,
  .row "ou(" "o)" "o(" 0,
  .row "ou(" "e(" "o(" 0,
  .row "ou(" "u(" "o(" 0,
  .row "qw)/" "o(/" "ta/" 0,
  .row "pottw/s" "tw/s" "poti/" doric,
  .row "ta)/|" "ai)/" "to/" 0,
  .row "ta)=" "a)/" "ta/" 0,
  .row "ta)" "a)" "ta/" 0,
  .row "ta)" "a)" "tou=" 0,
  .row "ta)" "a)" "to/" 0,
  .row "ta)/" "*)/a" "to/" 0,
  .row "ta)" "e)" "ta/" 0,
  .row "th)" "e)" "th=|" 0,
  .row "tau)" "au)" "tou=" 0,
  .row "tau)" "au)" "to/" 0,
  .row "tu/xa)gaqh=|" "a)gaqh=|" "tu/xh|" 0,
  .row "tu/xa)gaqh|" "a)gaqh=|" "tu/xh|" 0,
  .row "tw)" "*)a" "tou=" 0,
  .row "tw)" "a)" "tou=" 0,
  .row "tw)" "a)" "tou=" 0,
  .row "tw)=" "a)/" "toi/" doric,
  .row "tw)" "w)" "to/" 0,
  .row "tw)" "h(" "to/" 0,
  .row "tw)" "o)" "tw=|" 0,
  .row "sou)" "o(" "sou" 0,
  .row "sou)" "e(" "sou" 0,
  .row "sou)" "e)" "sou" 0,
  .row "tou)" "o)" "to/" 0,
  .row "tou)" "e)" "to/" 0,
  .row "tou)" "e)" "to/" 0,
  .row "tou)" "e)" "tou=" 0,
  .row "tou)=" "e)/" "tou=" 0,
  .row "tou)=" "o)/" "to/" 0,
  .row "tw)" "e)" "tw=|" 0,
  .row "tou)" "ou)" "tou=" 0,
  .row "tou)" "e(" "to/" 0,
  .row "tw)u" "au)" "ta/" ionic,
  .row "tw)u" "au)" "to/" ionic,
  .row "tw)u" "au)" "tou=" ionic,
  .row "twu)" "au)" "ta/" ionic,
  .row "twu)" "au)" "to/" ionic,
  .row "twu)" "au)" "tou=" ionic,
  .row "tw)" "a)" "to/" ionic,
  .row "tw)" "a)" "toi/" doric,
  .row "tau)" "au)" "to/" 0,
  .row "ou(" "e)" "o(" 0,
  .row "prou)" "proe" "" 0,
  .row "sumprou" "sumproe" "" 0,
  .row "cumprou" "cumproe" "" 0,
  .row "a)ntiprou" "a)ntiproe" "" 0,
  .row "prou" "proe" "" 0,
  .row "prou" "proo" "" 0,
  .row "prwu" "proau" "" 0,
  .row "e)gw)=i" "oi)=" "e)gw/" 0,
  .row "e)gw)=|" "oi)=" "e)gw/" 0,
  .row "e)gw=|" "oi)=" "e)gw/" 0,
  .row "e)mou)" "e)" "e)moi" 0,
  .row "kh)" "E)" "kai/" 0,
  .row "kh)" "e)" "kai/" 0,
  .row "xh)" "h(" "kai/" 0,
  .row "xh(" "h(" "kai/" 0,
  .row "xa)" "a(" "kai/" doric,
  .row "xa)" "e(" "kai/" 0,
  .row "xai)" "ai(" "kai/" 0,
  .row "xoi)" "oi(" "kai/" 0,
  .row "xau)" "au(" "kai/" 0,
  .row "xou)" "ou(" "kai/" 0,
  .row "xu)" "u(" "kai/" 0,
  .row "xw)" "o(" "kai/" 0,
  .row "xw(" "o(" "kai/" 0,
  .row "xw)" "w(" "kai/" 0,
  .row "w(n" "a)n" "o(" 0,
  .row "w(/n" "a)/n" "oi(" 0,
  .row "w(u" "au)" "o(" 0,
  .row "wu)" "au)" "o(" 0,
  .row "w(u" "au)" "oi(" 0,
  .row "w)=gaqe" "a)gaqe/" "w)=" 0,
  .row "w)=" "a)/" "w)=" 0,
  .row "w)|" "oi)" "w)=" 0,
  .row "w)=" "o)/" "w)=" 0,
  .row "w)" "a)" "w)=" 0,
  .row "w(=" "a)/" "oi(" 0,
  .row "w)/" "a)/" "w)=" 0]

/-- `LatSync` -/
def latSync : List PossCrasis := [
  .row "cognor" "cognover" "" 0,
  .row "ignor" "ignover" "" 0,
  .row "cognoss" "cognoviss" "" 0,
  .row "nosse" "novisse" "" 0,
  .row "copt" "coopt" "" 0,
  .row "der" "deer" "" 0,
  .row "des" "dees" "" 0,
  .row "abin" "abis" "ne" 0,
  .row "adeon" "adeo" "ne" 0,
  .row "ain" "ais" "ne" 0,
  .row "eccam" "ecce" "eam" 0,
  .row "eccum" "ecce" "eum" 0,
  .row "eccas" "ecce" "eas" 0,
  .row "eccos" "ecce" "eos" 0,
  .row "eccillum" "ecce" "illum" 0,
  .row "eccillam" "ecce" "illam" 0,
  .row "eccistum" "ecce" "istum" 0,
  .row "eccistam" "ecce" "istam" 0]

/-- What a search does to the store of analyses: a call of `AddAnalysis`, or the filter of an
enclitic, which keeps the analyses with one of the stem types of a mask. -/
inductive SearchAction where
  | offer (env : WordEnv) (offer : Offer)
  | keepStems (mask : UInt32)

/-- A store during a search, with the place each analysis had when the search began; none
for an analysis that was added or merged into since. -/
structure SearchRun where
  store : AnalysisStore
  origin : List (Option ℕ)

def SearchRun.start (store : AnalysisStore) : SearchRun :=
  ⟨store, (List.range store.stored.length).map some⟩

/-- The stored analysis that takes over the dialects of a candidate. -/
def mergeTarget (env : WordEnv) (store : AnalysisStore) (offer : Offer) : Option ℕ :=
  if store.storageError ≠ 0 ∨ !offer.ensured then none
  else
    let reserved := store.reserve offer
    if !reserved.2 then none
    else
      let filled := fillAnalysis env offer.chckcmpvb offer.gkform reserved.1.nextSlot
      if !filled.2 then none else reserved.1.stored.findIdx? (equivAnal filled.1)

/-- The analyses of the filter move to the front of the array, and the rest stays in the
slots that become free. -/
def SearchRun.keepStems (run : SearchRun) (mask : UInt32) : SearchRun :=
  let kept := (run.store.stored.zip run.origin).filter fun p => p.1.stemtype &&& mask ≠ 0
  let stored := kept.map (·.1)
  ⟨{ run.store with
      stored, free := run.store.stored.drop stored.length ++ run.store.free }, kept.map (·.2)⟩

def SearchRun.act (run : SearchRun) : SearchAction → SearchRun
  | .offer env offer =>
    let result := addAnalysis env run.store offer
    let origin :=
      if result.2 then run.origin ++ [none]
      else match mergeTarget env run.store offer with
        | some i => run.origin.set i none
        | none => run.origin
    ⟨result.1, origin⟩
  | .keepStems mask => run.keepStems mask

/-- `checkstring3` on a word and its store: what it does to the store and what it returns. -/
abbrev Checkstring3 := GkWord → AnalysisStore → List SearchAction × ℤ

/-- One row: the store before, after `checkstring3`, and after the row. -/
structure RowRun where
  row : PossCrasis
  before : AnalysisStore
  called : SearchRun
  rval : ℤ
  after : AnalysisStore

/-- `Xstrncat` -/
def xstrncat (dest source : Bytes) (len : ℕ) : Bytes := (appendText dest len source).getD dest

/-- The copy of the word on which `testcrasis` calls `checkstring3`. -/
def crasisWord (row : PossCrasis) (word : GkWord) : GkWord :=
  { word with
    workword := xstrncat (xstrncpy row.wordstart maxWordSize)
      (word.workword.drop row.mungedword.length) maxWordSize
    crasis := xstrncpy row.preword maxWordSize
    dialect := word.dialect ||| row.possdial
    stem := { word.stem with dialect := word.stem.dialect ||| row.possdial } }

/-- `add_dialect` on every stored analysis. -/
def addDialects (store : AnalysisStore) (possdial : UInt16) : AnalysisStore :=
  { store with stored := store.stored.map fun a => { a with dialect := a.dialect ||| possdial } }

/-- `testcrasis`; the copy and the word share the store. -/
def testcrasis (checkstring3 : Checkstring3) (row : PossCrasis) (word : GkWord)
    (store : AnalysisStore) : RowRun :=
  let call := checkstring3 (crasisWord row word) store
  let called := call.1.foldl SearchRun.act (.start store)
  { row, before := store, called, rval := call.2
    after := if call.2 ≠ 0 then addDialects called.store row.possdial else called.store }

/-- The rows one after the other. -/
def testRows (checkstring3 : Checkstring3) (word : GkWord) :
    AnalysisStore → List PossCrasis → List RowRun
  | _, [] => []
  | store, row :: rows =>
    let run := testcrasis checkstring3 row word store
    run :: testRows checkstring3 word run.after rows

/-- The test for a row: the first bytes agree, and so does the whole text. -/
def rowMatches (string : Bytes) (row : PossCrasis) : Bool :=
  string.headD 0 = row.mungedword.headD 0 &&
    strncmpBy id row.mungedword.length row.mungedword string = 0

/-- The word `checkcrasis` leaves: in Latin its text is made lower case. -/
def crasisInput (language : ℤ) (word : GkWord) : GkWord :=
  if language = latin then { word with workword := word.workword.map tolower } else word

/-- The rows `checkcrasis` tries. -/
def crasisRuns (checkstring3 : Checkstring3) (language : ℤ) (crasisDisabled : Bool)
    (word : GkWord) (store : AnalysisStore) : List RowRun :=
  if crasisDisabled then []
  else
    let word := crasisInput language word
    let table := if language = latin then latSync else possCras
    testRows checkstring3 word store (table.filter (rowMatches word.workword))

/-- `checkcrasis`: the word, the store and the value it returns. -/
def checkcrasis (checkstring3 : Checkstring3) (language : ℤ) (crasisDisabled : Bool)
    (word : GkWord) (store : AnalysisStore) : GkWord × AnalysisStore × ℤ :=
  if crasisDisabled then (word, store, 0)
  else
    let runs := crasisRuns checkstring3 language crasisDisabled word store
    (crasisInput language word, (runs.getLast?.map (·.after)).getD store, (runs.map (·.rval)).sum)

/-- An analysis that was neither added nor merged into is as it was when the search began. -/
def SearchRun.Keeps (before : AnalysisStore) (run : SearchRun) : Prop :=
  run.origin.length = run.store.stored.length ∧
    ∀ i j : ℕ, run.origin[i]? = some (some j) → run.store.stored[i]? = before.stored[j]?

theorem mergeInto_findIdx? (curanal : GkAnalysis) (l : List GkAnalysis) :
    match l.findIdx? (equivAnal curanal) with
    | some i => ∃ a, mergeInto curanal l = some (l.set i a)
    | none => mergeInto curanal l = none := by
  induction l with
  | nil => rfl
  | cons a l ih =>
    rw [List.findIdx?_cons, mergeInto]
    by_cases heq : equivAnal curanal a = true
    · rw [if_pos heq, if_pos heq]
      exact ⟨mergeAnalDialects a curanal, rfl⟩
    · rw [if_neg heq, if_neg heq]
      cases hfind : l.findIdx? (equivAnal curanal) with
      | none =>
        rw [hfind] at ih
        simp [ih]
      | some i =>
        rw [hfind] at ih
        obtain ⟨b, hb⟩ := ih
        exact ⟨b, by simp [hb]⟩

/-- A call of `AddAnalysis` adds one analysis, or changes the one it merges into, or leaves
the stored analyses alone. -/
theorem addAnalysis_stored (env : WordEnv) (store : AnalysisStore) (offer : Offer) :
    (∃ a, (addAnalysis env store offer).2 = true ∧
      (addAnalysis env store offer).1.stored = store.stored ++ [a]) ∨
    (∃ i a, (addAnalysis env store offer).2 = false ∧ mergeTarget env store offer = some i ∧
      (addAnalysis env store offer).1.stored = store.stored.set i a) ∨
    ((addAnalysis env store offer).2 = false ∧ mergeTarget env store offer = none ∧
      (addAnalysis env store offer).1.stored = store.stored) := by
  have hstored := store.reserve_stored offer
  unfold addAnalysis mergeTarget
  by_cases hready : store.storageError ≠ 0 ∨ !offer.ensured
  · right; right
    rcases hready with herror | hensured
    · simp [herror]
    · simp [hensured]
  · rw [if_neg hready]
    rw [not_or] at hready
    rw [if_neg hready.1, if_neg hready.2]
    dsimp only
    cases hroom : (store.reserve offer).2 with
    | false => simp [hstored]
    | true =>
      simp only [Bool.not_true, Bool.false_eq_true, if_false]
      unfold storeCandidate
      dsimp only
      cases hfill : (fillAnalysis env offer.chckcmpvb offer.gkform (store.reserve offer).1.nextSlot).2 with
      | false => simp [hstored]
      | true =>
        simp only [Bool.not_true, Bool.false_eq_true, if_false]
        have hmerge := mergeInto_findIdx?
          (fillAnalysis env offer.chckcmpvb offer.gkform (store.reserve offer).1.nextSlot).1
          (store.reserve offer).1.stored
        rw [hstored] at hmerge ⊢
        cases hfind : store.stored.findIdx? (equivAnal (fillAnalysis env offer.chckcmpvb
            offer.gkform (store.reserve offer).1.nextSlot).1) with
        | none =>
          rw [hfind] at hmerge
          dsimp only at hmerge
          rw [hmerge]
          exact Or.inl ⟨_, rfl, rfl⟩
        | some i =>
          rw [hfind] at hmerge
          obtain ⟨a, ha⟩ := hmerge
          rw [ha]
          exact Or.inr (Or.inl ⟨i, a, rfl, rfl, rfl⟩)

theorem SearchRun.keeps_start (store : AnalysisStore) : (SearchRun.start store).Keeps store := by
  refine ⟨by simp [SearchRun.start], ?_⟩
  intro i j h
  simp only [SearchRun.start, List.getElem?_map, Option.map_eq_some_iff] at h
  obtain ⟨k, hk, hkj⟩ := h
  obtain ⟨hlt, hik⟩ := List.getElem?_eq_some_iff.mp hk
  rw [List.getElem_range] at hik
  cases hkj
  rw [hik]
  rfl

theorem SearchRun.Keeps.keepStems {before : AnalysisStore} {run : SearchRun}
    (h : run.Keeps before) (mask : UInt32) : (run.keepStems mask).Keeps before := by
  refine ⟨by simp [SearchRun.keepStems], ?_⟩
  intro i j hij
  simp only [SearchRun.keepStems, List.getElem?_map, Option.map_eq_some_iff] at hij ⊢
  obtain ⟨p, hp, horigin⟩ := hij
  have hmem := List.mem_of_mem_filter (List.mem_of_getElem? hp)
  obtain ⟨k, hk⟩ := List.getElem?_of_mem hmem
  rw [List.getElem?_zip_eq_some] at hk
  obtain ⟨hstored, hk⟩ := hk
  rw [horigin] at hk
  rw [hp, Option.map_some, ← h.2 k j hk, hstored]

theorem SearchRun.Keeps.act {before : AnalysisStore} {run : SearchRun} (h : run.Keeps before)
    (action : SearchAction) : (run.act action).Keeps before := by
  cases action with
  | keepStems mask => exact h.keepStems mask
  | offer env offer =>
    obtain ⟨hlength, hkeep⟩ := h
    unfold SearchRun.act
    dsimp only
    rcases addAnalysis_stored env run.store offer with
      ⟨a, hkept, hstored⟩ | ⟨k, a, hmerged, htarget, hstored⟩ | ⟨hrefused, htarget, hstored⟩
    · -- a new analysis at the end, which has no place in the store before
      rw [hkept, if_pos rfl]
      refine ⟨by simp [hstored, hlength], ?_⟩
      intro i j hij
      dsimp only at hij ⊢
      rw [hstored]
      by_cases hi : i < run.origin.length
      · rw [List.getElem?_append_left hi] at hij
        rw [List.getElem?_append_left (by omega)]
        exact hkeep i j hij
      · rw [List.getElem?_append_right (by omega)] at hij
        have hnone := List.mem_of_getElem? hij
        simp at hnone
    · rw [hmerged, htarget, if_neg (by simp)]
      refine ⟨by simp [hstored, hlength], ?_⟩
      intro i j hij
      dsimp only at hij ⊢
      rw [hstored]
      rw [List.getElem?_set] at hij ⊢
      by_cases hi : k = i
      · rw [if_pos hi] at hij
        split at hij <;> cases hij
      · rw [if_neg hi] at hij ⊢
        exact hkeep i j hij
    · rw [hrefused, htarget, if_neg (by simp)]
      refine ⟨by simp [hstored, hlength], ?_⟩
      dsimp only
      rw [hstored]
      exact hkeep

theorem SearchRun.Keeps.run {before : AnalysisStore} {run : SearchRun} (h : run.Keeps before)
    (actions : List SearchAction) : (actions.foldl SearchRun.act run).Keeps before := by
  induction actions generalizing run with
  | nil => exact h
  | cons action actions ih => exact ih (h.act action)

/-- The row leaves the dialects of every analysis alone that its own search neither added nor
merged into. -/
def RowRun.LeavesOthers (run : RowRun) : Prop :=
  ∀ i j : ℕ, run.called.origin[i]? = some (some j) →
    (run.after.stored[i]?).map (·.dialect) = (run.before.stored[j]?).map (·.dialect)

/-- A row that succeeds meets no earlier analysis, beside those its search merged into, that
lacks a dialect of the row. -/
def RowRun.FindsDialects (run : RowRun) : Prop :=
  run.rval ≠ 0 → ∀ j a, some j ∈ run.called.origin → run.before.stored[j]? = some a →
    a.dialect ||| run.row.possdial = a.dialect

theorem testcrasis_leavesOthers_iff (checkstring3 : Checkstring3) (row : PossCrasis)
    (word : GkWord) (store : AnalysisStore) :
    (testcrasis checkstring3 row word store).LeavesOthers ↔
      (testcrasis checkstring3 row word store).FindsDialects := by
  have hkeeps := (SearchRun.keeps_start store).run (checkstring3 (crasisWord row word) store).1
  unfold RowRun.LeavesOthers RowRun.FindsDialects testcrasis
  dsimp only
  generalize (checkstring3 (crasisWord row word) store).1.foldl SearchRun.act (.start store) =
    called at hkeeps ⊢
  by_cases hrval : (checkstring3 (crasisWord row word) store).2 ≠ 0
  · simp only [if_pos hrval, addDialects, List.getElem?_map, Option.map_map]
    constructor
    · intro h _ j a horigin ha
      obtain ⟨i, hi⟩ := List.getElem?_of_mem horigin
      have hsame := h i j hi
      rw [hkeeps.2 i j hi, ha] at hsame
      simpa using hsame
    · intro h i j hij
      rw [hkeeps.2 i j hij]
      cases ha : store.stored[j]? with
      | none => rfl
      | some a => simp [h hrval j a (List.mem_of_getElem? hij) ha]
  · simp only [if_neg hrval]
    constructor
    · intro _ h
      exact absurd h hrval
    · intro _ i j hij
      rw [hkeeps.2 i j hij]

/-- Crasis leaves the dialects of other readings alone exactly when no row succeeds while an
analysis of another reading lacks its dialect. -/
theorem checkcrasis_leavesOthers_iff (checkstring3 : Checkstring3) (language : ℤ)
    (crasisDisabled : Bool) (word : GkWord) (store : AnalysisStore) :
    (∀ run ∈ crasisRuns checkstring3 language crasisDisabled word store, run.LeavesOthers) ↔
      ∀ run ∈ crasisRuns checkstring3 language crasisDisabled word store, run.FindsDialects := by
  have hrows : ∀ rows word store, ∀ run ∈ testRows checkstring3 word store rows,
      ∃ row store', run = testcrasis checkstring3 row word store' := by
    intro rows word
    induction rows with
    | nil => 
      intro store run h
      cases h
    | cons row rows ih =>
      intro store run h
      rcases List.mem_cons.mp h with h | h
      · exact ⟨row, store, h⟩
      · exact ih _ run h
  have hiff : ∀ run ∈ crasisRuns checkstring3 language crasisDisabled word store,
      run.LeavesOthers ↔ run.FindsDialects := by
    intro run hrun
    unfold crasisRuns at hrun
    split at hrun
    · cases hrun
    · obtain ⟨row, store', rfl⟩ := hrows _ _ _ run hrun
      exact testcrasis_leavesOthers_iff checkstring3 row _ store'
  constructor
  · intro h run hrun
    exact (hiff run hrun).mp (h run hrun)
  · intro h run hrun
    exact (hiff run hrun).mpr (h run hrun)

/-- A dictionary that has every word, with one reading. -/
def everyWord : Checkstring3 := fun word _ =>
  ([.offer ⟨0, 0⟩ (.plain { GkWord.zero with stLemma := word.workword, workword := word.workword })],
    1)

/-- The rows for `tw)galma`: the last one is Doric `toi/` with `a)galma`, an earlier one `to/`
with `w)galma`. -/
def galmaRuns : List RowRun :=
  crasisRuns everyWord 0 false { GkWord.zero with workword := ascii "tw)galma" } .empty

/-- The Doric row makes the reading with `w)galma` Doric, too. -/
theorem checkcrasis_doric : ¬ ∀ run ∈ galmaRuns, run.LeavesOthers := by
  intro h
  have hdialect := h (galmaRuns.getLast (by decide +kernel)) (List.getLast_mem _) 2 2
    (by decide +kernel)
  revert hdialect
  decide +kernel

end Morpheus
