import Morpheus.AnalysisStore
import Morpheus.EndIndex

/-!
# The search for derived verb stems

`checkforderiv` splits a stem into a stem and an ending of a derivation in every way
(`derivio.c`). The buffer for its result also takes the keys of each ending it looks up.
What `checkcomderiv` makes of a stem with an ending, `unaugment` and `SprintGkFlags` are
given; the cache of results is written but never read.
-/
namespace Morpheus

/-- `SYLL_AUGMENT` -/
def syllAugment : ℕ := 1

/-- `Is_alph` -/
def isAlph (c : Byte) : Bool := isAlpha c && c ≠ 106 && c ≠ 118 && c ≠ 74 && c ≠ 86

/-- `Is_cons` -/
def isCons (c : Byte) : Bool := isAlph c && !isVowel c

/-- `un_redupl` -/
def unRedupl (src : Bytes) (redupc : Byte) : Option Bytes :=
  let sbuf := stripacc (xstrncpy src maxWordSize)
  if sbuf.getD 1 0 ≠ redupc then none
  else
    let c := sbuf.getD 2 0
    let p := if c = 113 then 116 else if c = 120 then 107 else if c = 102 then 112 else c
    if sbuf.getD 0 0 = p then some (xstrncpy (src.drop 2) maxWordSize) else none

/-- A key of a derived stem: the stem, the lemma and the flags (`%s:%s%s`). -/
structure DerivedKey where
  stembuf : Bytes
  lemma_ : Bytes
  flags : Bytes

def DerivedKey.text (key : DerivedKey) : Bytes := key.stembuf ++ 58 :: (key.lemma_ ++ key.flags)

/-- The arguments of `checkcomderiv`: the keys of the ending, the stem, the ending, one entry of
the stem, how the stem was reduplicated, and its form with a quantity. -/
structure Comderiv where
  derivstr : Bytes
  defstem : Bytes
  suffix : Bytes
  lkeys : Bytes
  hadRedupl : Bytes
  redupstem : Bytes

/-- A candidate of `unaugment`: the stem, whether its augment was syllabic, and the stem with a
quantity. -/
structure Unaugmented where
  stem : GkString
  quantity : Bytes

/-- The two indexes of derivations and the functions that are given. -/
structure DerivContext where
  language : ℤ
  derivationEndings : List Bytes
  verbStems : List Bytes
  comderiv : Comderiv → List DerivedKey
  unaugment : Bytes → List Unaugmented
  sprintGkFlags : GkString → Bytes

theorem nextkey_length {keylist : Bytes} (h : (nextkey keylist).1 ≠ []) :
    (nextkey keylist).2.length < keylist.length := by
  unfold nextkey at h ⊢
  by_cases hstart : keylist.dropWhile isSpace = []
  · simp [hstart] at h
  · simp only [if_neg hstart] at h ⊢
    have hrest := (List.dropWhile_suffix (l :=
      (keylist.dropWhile isSpace).dropWhile fun c => !isSpace c) isSpace).length_le
    have hskip := (List.dropWhile_suffix (l := keylist) isSpace).length_le
    have hpos := List.length_pos_iff.mpr h
    have hsplit := congrArg List.length (List.takeWhile_append_dropWhile
      (p := fun c => !isSpace c) (l := keylist.dropWhile isSpace))
    rw [List.length_append] at hsplit
    omega

/-- The words of a list, as `nextkey` takes them. -/
def keyWords (keylist : Bytes) : List Bytes :=
  if _h : (nextkey keylist).1 = [] then [] else (nextkey keylist).1 :: keyWords (nextkey keylist).2
  termination_by keylist.length
  decreasing_by exact nextkey_length _h

/-- One key appended to the result of `checkcomderiv2`, if there is room, and the number of
keys that were appended. -/
def addKey (rkeys key : Bytes) : Bytes × ℕ :=
  if rkeys.length ≥ longString ∨
      key.length + (if rkeys = [] then 0 else 1) ≥ longString - rkeys.length then (rkeys, 0)
  else (if rkeys = [] then key else rkeys ++ 32 :: key, 1)

def addKeys (rkeys : Bytes) : List Bytes → Bytes × ℕ
  | [] => (rkeys, 0)
  | key :: keys =>
    let added := addKey rkeys key
    let rest := addKeys added.1 keys
    (rest.1, added.2 + rest.2)

/-- `append_derivation_keys` -/
def appendDerivationKeys (destination addition : Bytes) : Option Bytes :=
  if destination.length ≥ longString then none
  else
    (if destination = [] then some [] else appendText destination longString [32]).bind
      fun merged => appendText merged longString addition

section
variable (context : DerivContext)

/-- `chckdvend`: whether the ending is in the index, and the buffer of its keys. -/
def chckdvend (endstr keys : Bytes) : ℤ × Bytes :=
  checkendind morphstrncmp context.derivationEndings endstr keys

/-- `chckderiv`: the entries of a stem, if the index has it. -/
def chckderiv (derivstr : Bytes) : Option Bytes :=
  let tmpderivstr := stripdiaer (stripquant (51 :: xstrncpy derivstr maxWordSize))
  let found := checkendind morphstrncmp context.verbStems tmpderivstr []
  if found.1 ≠ 0 then some found.2 else none

/-- The keys `checkcomderiv` has for every entry of a stem with an ending. -/
def comderivs (derivs defstem suffix lemmkeys hadRedupl redupstem : Bytes) : List Bytes :=
  (keyWords (xstrncpy lemmkeys longString)).flatMap fun lkeys =>
    (context.comderiv ⟨derivs, defstem, suffix, lkeys, hadRedupl, redupstem⟩).map DerivedKey.text

/-- `checkcomderivs` -/
def checkcomderivs (derivs defstem suffix lemmkeys nkeys hadRedupl redupstem : Bytes) :
    Bytes × ℕ :=
  addKeys nkeys (comderivs context derivs defstem suffix lemmkeys hadRedupl redupstem)

/-- The buffer `stemkeys`, the result so far, and the number of splits with a result. -/
structure SplitState where
  stemkeys : Bytes
  resbuf : Bytes
  sofar : ℕ

/-- The stem of a split is looked up, and what `checkcomderivs` finds is added. -/
def SplitState.search (state : SplitState) (derivstr suffix hadRedupl redupstem : Bytes) :
    SplitState :=
  match chckderiv context derivstr with
  | none => state
  | some derivkeys2 =>
    let result := checkcomderivs context state.stemkeys derivstr suffix derivkeys2 state.resbuf
      hadRedupl redupstem
    { state with
      resbuf := result.1, sofar := if result.2 ≠ 0 then state.sofar + 1 else state.sofar }

/-- The split of a stem at one place. -/
def SplitState.trySplit (stemstr hadRedupl redupstem : Bytes) (state : SplitState) (slen : ℕ) :
    SplitState :=
  let ep := stemstr.drop slen
  let ending := chckdvend context ep state.stemkeys
  let state := { state with stemkeys := ending.2 }
  if ending.1 ≠ 0 then
    state.search context ((xstrncpy stemstr longString).take slen) ep hadRedupl redupstem
  else state

/-- The places where a stem is split, from the last one to the first. -/
def splitPoints (stemstr : Bytes) : List ℕ := (List.range stemstr.length).tail.reverse

/-- `checkforderiv2`, which uses the buffer of the result for the keys of the endings. -/
def checkforderiv2 (stemstr stemkeys hadRedupl redupstem : Bytes) : Bytes × ℕ :=
  if stemstr = [] then (stemkeys, 0)
  else
    let star : SplitState := ⟨(chckdvend context (ascii "*") stemkeys).2, [], 0⟩
    let start := star.search context (xstrncpy stemstr longString) [] hadRedupl redupstem
    let final := (splitPoints stemstr).foldl
      (SplitState.trySplit context stemstr hadRedupl redupstem) start
    if final.sofar ≠ 0 then (xstrncpy final.resbuf longString, final.sofar)
    else (final.stemkeys, 0)

/-- The text that tells `checkcomderiv` of an augment and its dialect. -/
def hadRedupl (candidate : Unaugmented) : Option Bytes :=
  let had :=
    if hasMorphflag candidate.stem.morphflags syllAugment then ascii "syll_aug"
    else ascii "temp_aug"
  let tmpkeys := context.sprintGkFlags candidate.stem
  if tmpkeys = [] then some had
  else (appendText had maxWordSize [32]).bind fun had => appendText had maxWordSize tmpkeys

/-- The loop of `checkaugredup`, with the number of candidates that have derivations. -/
def augredupLoop : List Unaugmented → Bytes → ℕ → Bytes × ℕ
  | [], stemkeys, hits => (stemkeys, hits)
  | candidate :: rest, stemkeys, hits =>
    match hadRedupl context candidate with
    | none => (stemkeys, hits)
    | some had =>
      let found := checkforderiv2 context candidate.stem.gkstring
        (context.sprintGkFlags candidate.stem) had candidate.quantity
      if found.2 ≠ 0 then
        match appendDerivationKeys stemkeys found.1 with
        | none => (stemkeys, hits)
        | some stemkeys => augredupLoop rest stemkeys (hits + 1)
      else augredupLoop rest stemkeys hits

/-- A stem in `e)` that cannot be augmented: no two consonants and no double one follow. -/
def noAugment (stemstr : Bytes) : Bool :=
  stemstr.take 2 = ascii "e)" && !isCons (stemstr.getD 3 0) &&
    !(ascii "zcy").contains (stemstr.getD 2 0)

/-- `checkaugredup` -/
def checkaugredup (stemstr stemkeys : Bytes) : Bytes × ℕ :=
  if noAugment stemstr then (stemkeys, 0)
  else augredupLoop context (context.unaugment stemstr) stemkeys 0

/-- `checkforredupderiv` -/
def checkforredupderiv (stemstr stemkeys : Bytes) : Bytes × ℕ :=
  if isCons (stemstr.headD 0) && context.language ≠ latin && context.language ≠ italian then
    match unRedupl stemstr 101 with
    | none => (stemkeys, 0)
    | some noredup => checkforderiv2 context noredup stemkeys (ascii "redupl") []
  else checkaugredup context stemstr stemkeys

/-- `checkforderiv`: the buffer of the keys and the value it returns. -/
def checkforderiv (stemstr stemkeys : Bytes) : Bytes × ℕ :=
  let first := checkforderiv2 context stemstr stemkeys [] []
  let second := checkforredupderiv context stemstr []
  if second.2 ≠ 0 then
    match appendDerivationKeys first.1 second.1 with
    | none => first
    | some stemkeys => (stemkeys, first.2 + second.2)
  else first

/-! ### The derivations of a stem -/

/-- The derivations of a stem with an ending. -/
def withEnding (derivs defstem suffix had redupstem : Bytes) : List Bytes :=
  match chckderiv context defstem with
  | none => []
  | some derivkeys2 => comderivs context derivs defstem suffix derivkeys2 had redupstem

/-- The derivations of one split. -/
def ofSplit (stemstr had redupstem : Bytes) (slen : ℕ) : List Bytes :=
  let ending := chckdvend context (stemstr.drop slen) []
  if ending.1 ≠ 0 then
    withEnding context ending.2 ((xstrncpy stemstr longString).take slen) (stemstr.drop slen) had
      redupstem
  else []

/-- The derivations of a stem: with the `*` rule and of every split, in order. -/
def derivations (stemstr had redupstem : Bytes) : List Bytes :=
  if stemstr = [] then []
  else
    withEnding context (chckdvend context (ascii "*") []).2 (xstrncpy stemstr longString) [] had
      redupstem ++ (splitPoints stemstr).flatMap (ofSplit context stemstr had redupstem)

/-- The derivations of the stem without its reduplication or augment. -/
def derivationsWithout (stemstr : Bytes) : List Bytes :=
  if isCons (stemstr.headD 0) && context.language ≠ latin && context.language ≠ italian then
    match unRedupl stemstr 101 with
    | none => []
    | some noredup => derivations context noredup (ascii "redupl") []
  else if noAugment stemstr then []
  else (context.unaugment stemstr).flatMap fun candidate =>
    derivations context candidate.stem.gkstring ((hadRedupl context candidate).getD [])
      candidate.quantity

/-- The buffer after the last ending a search looks up, all of the stem but its first byte. -/
def scratch (stemstr stemkeys : Bytes) : Bytes :=
  if stemstr = [] then stemkeys
  else if stemstr.length = 1 then (chckdvend context (ascii "*") []).2
  else (chckdvend context stemstr.tail []).2

end

theorem joinKeys_append_of_ne_nil {keys more : List Bytes} (hkeys : keys ≠ []) (hmore : more ≠ []) :
    joinKeys (keys ++ more) = joinKeys keys ++ 32 :: joinKeys more := by
  induction more using List.reverseRecOn with
  | nil => exact absurd rfl hmore
  | append_singleton more key ih =>
    rw [← List.append_assoc, joinKeys_append (by simp [hkeys])]
    by_cases hnil : more = []
    · simp [hnil, joinKeys, List.intercalate]
    · rw [ih hnil, joinKeys_append hnil]
      simp

theorem joinKeys_eq_nil {keys : List Bytes} (hne : ∀ key ∈ keys, key ≠ [])
    (h : joinKeys keys = []) : keys = [] := by
  cases keys with
  | nil => rfl
  | cons key keys =>
    have hle := length_le_joinKeys (List.mem_cons_self (a := key) (l := keys))
    rw [h] at hle
    exact absurd (List.length_eq_zero_iff.mp (Nat.le_zero.mp hle)) (hne key (by simp))

theorem joinKeys_length_append (keys more : List Bytes) :
    (joinKeys keys).length ≤ (joinKeys (keys ++ more)).length := by
  by_cases hkeys : keys = []
  · simp [hkeys, joinKeys, List.intercalate]
  · by_cases hmore : more = []
    · simp [hmore]
    · rw [joinKeys_append_of_ne_nil hkeys hmore]
      simp

/-- Keys that fit are all appended. -/
theorem addKeys_joinKeys {acc keys : List Bytes} (hacc : ∀ key ∈ acc, key ≠ [])
    (hne : ∀ key ∈ keys, key ≠ []) (hfit : (joinKeys (acc ++ keys)).length < longString) :
    addKeys (joinKeys acc) keys = (joinKeys (acc ++ keys), keys.length) := by
  induction keys generalizing acc with
  | nil => simp [addKeys]
  | cons key keys ih =>
    rw [List.append_cons] at hfit ⊢
    have hone : (joinKeys (acc ++ [key])).length < longString :=
      (joinKeys_length_append _ _).trans_lt hfit
    have hadd : addKey (joinKeys acc) key = (joinKeys (acc ++ [key]), 1) := by
      unfold addKey
      by_cases hnil : acc = []
      · rw [hnil] at hone ⊢
        have hjoin : joinKeys ([] ++ [key]) = key := by simp [joinKeys, List.intercalate]
        rw [hjoin] at hone ⊢
        have hempty : joinKeys [] = [] := rfl
        simp only [hempty, List.length_nil, if_true]
        rw [if_neg]
        omega
      · have hjoin : joinKeys acc ≠ [] := fun h => hnil (joinKeys_eq_nil hacc h)
        rw [joinKeys_append hnil] at hone ⊢
        simp only [if_neg hjoin]
        rw [if_neg]
        simp only [List.length_append, List.length_cons] at hone
        omega
    rw [addKeys, hadd]
    dsimp only
    rw [ih _ (fun k hk => hne k (List.mem_cons_of_mem _ hk)) hfit]
    · simp only [List.length_cons, Prod.mk.injEq, true_and]
      omega
    · intro k hk
      rcases List.mem_append.mp hk with hk | hk
      · exact hacc k hk
      · rw [List.mem_singleton.mp hk]
        exact hne key (by simp)

section
variable {context : DerivContext}

theorem comderivs_ne_nil {derivs defstem suffix lemmkeys had redupstem : Bytes} :
    ∀ key ∈ comderivs context derivs defstem suffix lemmkeys had redupstem, key ≠ [] := by
  intro key hkey
  obtain ⟨lkeys, -, hkey⟩ := List.mem_flatMap.mp hkey
  obtain ⟨derived, -, rfl⟩ := List.mem_map.mp hkey
  simp [DerivedKey.text]

theorem withEnding_ne_nil {derivs defstem suffix had redupstem : Bytes} :
    ∀ key ∈ withEnding context derivs defstem suffix had redupstem, key ≠ [] := by
  unfold withEnding
  split
  · simp
  · exact comderivs_ne_nil

theorem ofSplit_ne_nil {stemstr had redupstem : Bytes} {slen : ℕ} :
    ∀ key ∈ ofSplit context stemstr had redupstem slen, key ≠ [] := by
  unfold ofSplit
  dsimp only
  split
  · exact withEnding_ne_nil
  · simp

theorem derivations_ne_nil {stemstr had redupstem : Bytes} :
    ∀ key ∈ derivations context stemstr had redupstem, key ≠ [] := by
  intro key hkey
  unfold derivations at hkey
  split at hkey
  · cases hkey
  · rcases List.mem_append.mp hkey with hkey | hkey
    · exact withEnding_ne_nil key hkey
    · obtain ⟨slen, -, hkey⟩ := List.mem_flatMap.mp hkey
      exact ofSplit_ne_nil key hkey

/-- What a search has found: the keys so far, and how many splits had some. -/
structure SplitState.Found (state : SplitState) (found : List Bytes) : Prop where
  result : state.resbuf = joinKeys found
  keys : ∀ key ∈ found, key ≠ []
  some_iff : state.sofar ≠ 0 ↔ found ≠ []

theorem SplitState.Found.search {state : SplitState} {found : List Bytes} (h : state.Found found)
    {derivstr suffix had redupstem : Bytes}
    (hfit : (joinKeys (found ++ withEnding context state.stemkeys derivstr suffix had redupstem)).length
      < longString) :
    (state.search context derivstr suffix had redupstem).Found
        (found ++ withEnding context state.stemkeys derivstr suffix had redupstem) ∧
      (state.search context derivstr suffix had redupstem).stemkeys = state.stemkeys := by
  have hkeys := @withEnding_ne_nil context state.stemkeys derivstr suffix had redupstem
  unfold SplitState.search withEnding at *
  cases hfind : chckderiv context derivstr with
  | none => simpa [hfind] using h
  | some derivkeys2 =>
    rw [hfind] at hfit hkeys
    dsimp only at hfit hkeys ⊢
    unfold checkcomderivs
    rw [h.result, addKeys_joinKeys h.keys hkeys hfit]
    refine ⟨⟨rfl, ?_, ?_⟩, rfl⟩
    · intro key hkey
      rcases List.mem_append.mp hkey with hkey | hkey
      · exact h.keys key hkey
      · exact hkeys key hkey
    · have hsome := h.some_iff
      dsimp only
      by_cases hnil : comderivs context state.stemkeys derivstr suffix derivkeys2 had redupstem = []
      · simpa [hnil] using hsome
      · have hpos := List.length_pos_iff.mpr hnil
        simp only [List.append_ne_nil_of_right_ne_nil _ hnil, ne_eq, not_false_eq_true, iff_true]
        rw [if_pos (by omega)]
        omega

/-- The keys of an ending that is found do not depend on what was in the buffer. -/
theorem chckdvend_found (endstr keys : Bytes) :
    (chckdvend context endstr keys).1 = (chckdvend context endstr []).1 ∧
      ((chckdvend context endstr []).1 ≠ 0 →
        (chckdvend context endstr keys).2 = (chckdvend context endstr []).2) := by
  unfold chckdvend checkendind
  dsimp only
  split
  · exact ⟨rfl, fun h => absurd rfl h⟩
  · split <;> exact ⟨rfl, fun _ => rfl⟩

/-- An ending that fits its buffer always overwrites the keys. -/
theorem chckdvend_short {endstr : Bytes} (h : endstr.length + 1 < maxWordSize) (keys : Bytes) :
    chckdvend context endstr keys = chckdvend context endstr [] := by
  have hguard : ¬ (xstrncpy endstr maxWordSize ++ [32]).length ≥ maxWordSize := by
    rw [xstrncpy_of_lt (by omega), List.length_append, List.length_singleton]
    omega
  unfold chckdvend checkendind
  dsimp only
  rw [if_neg hguard, if_neg hguard]

theorem SplitState.Found.trySplit {state : SplitState} {found : List Bytes} (h : state.Found found)
    {stemstr had redupstem : Bytes} {slen : ℕ}
    (hfit : (joinKeys (found ++ ofSplit context stemstr had redupstem slen)).length < longString) :
    (state.trySplit context stemstr had redupstem slen).Found
        (found ++ ofSplit context stemstr had redupstem slen) ∧
      (state.trySplit context stemstr had redupstem slen).stemkeys =
        (chckdvend context (stemstr.drop slen) state.stemkeys).2 := by
  obtain ⟨hsame, hkeys⟩ := @chckdvend_found context (stemstr.drop slen) state.stemkeys
  unfold SplitState.trySplit ofSplit at *
  dsimp only at hfit ⊢
  rw [hsame]
  by_cases hending : (chckdvend context (stemstr.drop slen) []).1 ≠ 0
  · rw [if_pos hending] at hfit ⊢
    rw [if_pos hending]
    have hstate : SplitState.Found
        { state with stemkeys := (chckdvend context (stemstr.drop slen) state.stemkeys).2 } found :=
      ⟨h.result, h.keys, h.some_iff⟩
    rw [← hkeys hending] at hfit ⊢
    exact hstate.search hfit
  · rw [if_neg hending, if_neg hending, List.append_nil]
    exact ⟨⟨h.result, h.keys, h.some_iff⟩, rfl⟩

theorem SplitState.Found.run {stemstr had redupstem : Bytes} (points : List ℕ) {state : SplitState}
    {found : List Bytes} (h : state.Found found)
    (hfit : (joinKeys (found ++ points.flatMap (ofSplit context stemstr had redupstem))).length <
      longString) :
    (points.foldl (SplitState.trySplit context stemstr had redupstem) state).Found
        (found ++ points.flatMap (ofSplit context stemstr had redupstem)) ∧
      (points.foldl (SplitState.trySplit context stemstr had redupstem) state).stemkeys =
        points.foldl (fun keys slen => (chckdvend context (stemstr.drop slen) keys).2)
          state.stemkeys := by
  induction points generalizing state found with
  | nil =>
    simp only [List.flatMap_nil, List.append_nil, List.foldl_nil]
    exact ⟨h, trivial⟩
  | cons slen points ih =>
    rw [List.flatMap_cons, ← List.append_assoc] at hfit ⊢
    obtain ⟨hfound, hkeys⟩ := h.trySplit ((joinKeys_length_append _ _).trans_lt hfit)
    obtain ⟨hrun, hlast⟩ := ih hfound hfit
    rw [List.foldl_cons, List.foldl_cons, ← hkeys]
    exact ⟨hrun, hlast⟩

/-- The last ending that is looked up is all of the stem but its first byte. -/
theorem last_lookup {stemstr : Bytes} (hstem : stemstr ≠ []) (hshort : stemstr.length < maxWordSize)
    (stemkeys : Bytes) :
    (splitPoints stemstr).foldl (fun keys slen => (chckdvend context (stemstr.drop slen) keys).2)
      (chckdvend context (ascii "*") stemkeys).2 = scratch context stemstr stemkeys := by
  have hstar : (ascii "*").length + 1 < maxWordSize := by decide
  unfold scratch splitPoints
  rw [if_neg hstem, chckdvend_short hstar]
  obtain ⟨c, rest, rfl⟩ := List.exists_cons_of_ne_nil hstem
  cases rest with
  | nil => rfl
  | cons d rest =>
    have hpoints : (List.range (c :: d :: rest).length).tail =
        1 :: ((List.range rest.length).map Nat.succ).map Nat.succ := by
      simp only [List.length_cons, List.range_succ_eq_map, List.tail_cons, List.map_cons]
    have hlast : (d :: rest).length + 1 < maxWordSize := by
      simpa using hshort
    rw [hpoints, List.reverse_cons, List.foldl_append, if_neg (by simp)]
    simp only [List.foldl_cons, List.foldl_nil, List.drop_succ_cons, List.drop_zero, List.tail_cons]
    rw [chckdvend_short hlast]

/-- A search leaves the keys it found, or the keys of the last ending when there are none. -/
theorem checkforderiv2_spec {stemstr stemkeys had redupstem : Bytes}
    (hfit : (joinKeys (derivations context stemstr had redupstem)).length < longString) :
    (derivations context stemstr had redupstem ≠ [] →
      (checkforderiv2 context stemstr stemkeys had redupstem).1 =
        joinKeys (derivations context stemstr had redupstem) ∧
      (checkforderiv2 context stemstr stemkeys had redupstem).2 ≠ 0) ∧
    (derivations context stemstr had redupstem = [] →
      (checkforderiv2 context stemstr stemkeys had redupstem).2 = 0 ∧
      (stemstr.length < maxWordSize → (checkforderiv2 context stemstr stemkeys had redupstem).1 =
        scratch context stemstr stemkeys)) := by
  by_cases hstem : stemstr = []
  · simp [derivations, checkforderiv2, scratch, hstem]
  have hstar : (ascii "*").length + 1 < maxWordSize := by decide
  unfold derivations at *
  rw [if_neg hstem] at hfit ⊢
  have hempty : SplitState.Found ⟨(chckdvend context (ascii "*") stemkeys).2, [], 0⟩ [] :=
    ⟨rfl, by simp, by simp⟩
  rw [← chckdvend_short hstar stemkeys] at hfit ⊢
  obtain ⟨hstart, hstartkeys⟩ := hempty.search ((joinKeys_length_append _ _).trans_lt hfit)
  rw [List.nil_append] at hstart
  obtain ⟨hrun, hkeys⟩ := hstart.run (splitPoints stemstr) hfit
  rw [hstartkeys] at hkeys
  unfold checkforderiv2
  rw [if_neg hstem]
  dsimp only
  have hsome := hrun.some_iff
  constructor
  · intro hfound
    rw [if_pos (hsome.mpr hfound), hrun.result]
    exact ⟨xstrncpy_of_lt hfit, hsome.mpr hfound⟩
  · intro hnone
    rw [if_neg (by rw [hsome, hnone]; simp)]
    refine ⟨rfl, fun hshort => ?_⟩
    dsimp only
    rw [hkeys]
    exact last_lookup hstem hshort stemkeys

theorem joinKeys_length_right (keys more : List Bytes) :
    (joinKeys more).length ≤ (joinKeys (keys ++ more)).length := by
  by_cases hkeys : keys = []
  · simp [hkeys]
  · by_cases hmore : more = []
    · simp [hmore, joinKeys, List.intercalate]
    · rw [joinKeys_append_of_ne_nil hkeys hmore]
      simp only [List.length_append, List.length_cons]
      omega

/-- Keys appended to a buffer, with a blank between. -/
def appended (destination addition : Bytes) : Bytes :=
  if destination = [] then addition else destination ++ 32 :: addition

theorem appendDerivationKeys_eq (destination addition : Bytes) :
    appendDerivationKeys destination addition =
      if (appended destination addition).length < longString then
        some (appended destination addition)
      else none := by
  unfold appendDerivationKeys appendText appended
  by_cases hnil : destination = []
  · subst hnil
    have hlong : ¬ (0 ≥ longString) := by decide
    simp only [List.length_nil, if_true, Option.bind_some, List.nil_append, hlong, if_false,
      false_or, Nat.sub_zero]
    split <;> split <;> first | rfl | omega
  · simp only [if_neg hnil, List.length_append, List.length_cons, List.length_nil]
    by_cases hfull : destination.length ≥ longString
    · rw [if_pos hfull, if_neg (by omega)]
    · rw [if_neg hfull]
      by_cases hblank : 1 ≥ longString - destination.length
      · rw [if_pos (Or.inr hblank), if_neg (by omega)]
        rfl
      · rw [if_neg (by omega)]
        simp only [Option.bind_some, List.length_append, List.length_cons, List.length_nil]
        by_cases hroom : destination.length + (addition.length + 1) < longString
        · rw [if_pos hroom, if_neg (by omega)]
          simp
        · rw [if_neg hroom, if_pos (by omega)]

theorem appended_joinKeys {acc more : List Bytes} (hacc : ∀ key ∈ acc, key ≠ []) (hmore : more ≠ []) :
    appended (joinKeys acc) (joinKeys more) = joinKeys (acc ++ more) := by
  unfold appended
  by_cases hnil : acc = []
  · subst hnil
    rfl
  · have hjoin : joinKeys acc ≠ [] := fun h => hnil (joinKeys_eq_nil hacc h)
    rw [if_neg hjoin, joinKeys_append_of_ne_nil hnil hmore]

/-- The derivations of a candidate of `unaugment`. -/
def ofCandidate (context : DerivContext) (candidate : Unaugmented) : List Bytes :=
  derivations context candidate.stem.gkstring ((hadRedupl context candidate).getD [])
    candidate.quantity

theorem augredupLoop_spec {candidates : List Unaugmented} {acc : List Bytes} (hits : ℕ)
    (hacc : ∀ key ∈ acc, key ≠ [])
    (hhad : ∀ candidate ∈ candidates, (hadRedupl context candidate).isSome = true)
    (hfit : (joinKeys (acc ++ candidates.flatMap (ofCandidate context))).length < longString) :
    ∃ hits', augredupLoop context candidates (joinKeys acc) hits =
        (joinKeys (acc ++ candidates.flatMap (ofCandidate context)), hits') ∧
      hits ≤ hits' ∧ (hits' ≠ hits ↔ candidates.flatMap (ofCandidate context) ≠ []) := by
  induction candidates generalizing acc hits with
  | nil => exact ⟨hits, by simp [augredupLoop], le_rfl, by simp⟩
  | cons candidate rest ih =>
    rw [List.flatMap_cons, ← List.append_assoc] at hfit ⊢
    obtain ⟨had, hsome⟩ := Option.isSome_iff_exists.mp (hhad candidate (by simp))
    have hrest := fun c hc => hhad c (List.mem_cons_of_mem candidate hc)
    have hone := (joinKeys_length_append _ _).trans_lt hfit
    have hof : ofCandidate context candidate =
        derivations context candidate.stem.gkstring had candidate.quantity := by
      unfold ofCandidate
      rw [hsome]
      rfl
    have hspec := @checkforderiv2_spec context candidate.stem.gkstring
      (context.sprintGkFlags candidate.stem) had candidate.quantity (by
        rw [← hof]
        exact (joinKeys_length_right acc _).trans_lt hone)
    rw [← hof] at hspec
    obtain ⟨hfound, hnone⟩ := hspec
    rw [augredupLoop, hsome]
    dsimp only
    by_cases hnil : ofCandidate context candidate = []
    · obtain ⟨hits', hloop, hle, hiff⟩ := ih hits hacc hrest (by simpa [hnil] using hfit)
      rw [if_neg (by rw [(hnone hnil).1]; simp), hloop]
      refine ⟨hits', by simp [hnil], hle, ?_⟩
      rw [hiff, hnil, List.nil_append]
    · obtain ⟨hkeys, hcount⟩ := hfound hnil
      have hnext : ∀ key ∈ acc ++ ofCandidate context candidate, key ≠ [] := by
        intro key hkey
        rcases List.mem_append.mp hkey with hkey | hkey
        · exact hacc key hkey
        · exact derivations_ne_nil key hkey
      obtain ⟨hits', hloop, hle, hiff⟩ := ih (hits + 1) hnext hrest hfit
      rw [if_pos hcount, hkeys, appendDerivationKeys_eq, appended_joinKeys hacc hnil, if_pos hone]
      dsimp only
      rw [hloop]
      refine ⟨hits', rfl, by omega, ?_⟩
      simp only [ne_eq, List.append_eq_nil_iff, hnil, false_and, not_false_eq_true, iff_true]
      omega

/-- The second search leaves the keys it found. -/
theorem checkforredupderiv_spec {stemstr : Bytes}
    (hhad : ∀ candidate ∈ context.unaugment stemstr, (hadRedupl context candidate).isSome = true)
    (hfit : (joinKeys (derivationsWithout context stemstr)).length < longString) :
    (derivationsWithout context stemstr ≠ [] →
      (checkforredupderiv context stemstr []).1 = joinKeys (derivationsWithout context stemstr)) ∧
    ((checkforredupderiv context stemstr []).2 ≠ 0 ↔ derivationsWithout context stemstr ≠ []) := by
  unfold derivationsWithout checkforredupderiv at *
  split at hfit
  · rename_i hcons
    rw [if_pos hcons, if_pos hcons]
    cases hredupl : unRedupl stemstr 101 with
    | none => simp
    | some noredup =>
      rw [hredupl] at hfit
      obtain ⟨hfound, hnone⟩ := @checkforderiv2_spec context noredup [] (ascii "redupl") [] hfit
      dsimp only
      refine ⟨fun h => (hfound h).1, ?_⟩
      constructor
      · intro hcount hnil
        exact hcount (hnone hnil).1
      · intro h
        exact (hfound h).2
  · rename_i hcons
    rw [if_neg hcons, if_neg hcons]
    unfold checkaugredup
    split at hfit
    · rename_i hno
      simp [hno]
    · rename_i hno
      rw [if_neg hno, if_neg hno]
      obtain ⟨hits', hloop, -, hiff⟩ := @augredupLoop_spec context (context.unaugment stemstr) [] 0
        (by simp) hhad hfit
      have hempty : joinKeys [] = [] := rfl
      rw [hempty, List.nil_append] at hloop
      rw [hloop]
      exact ⟨fun _ => rfl, hiff⟩

/-- The search leaves exactly the keys of the derivations, and returns whether there are any, if
and only if the stem itself has a derivation or the last ending looked up left no keys. -/
theorem checkforderiv_iff {stemstr : Bytes} (stemkeys : Bytes)
    (hshort : stemstr.length < maxWordSize)
    (hhad : ∀ candidate ∈ context.unaugment stemstr, (hadRedupl context candidate).isSome = true)
    (hfit : (joinKeys (derivations context stemstr [] [] ++
      derivationsWithout context stemstr)).length < longString) :
    (((checkforderiv context stemstr stemkeys).2 ≠ 0 ↔
        derivations context stemstr [] [] ++ derivationsWithout context stemstr ≠ []) ∧
      (checkforderiv context stemstr stemkeys).1 = joinKeys (derivations context stemstr [] [] ++
        derivationsWithout context stemstr)) ↔
    derivations context stemstr [] [] ≠ [] ∨ scratch context stemstr stemkeys = [] := by
  obtain ⟨hfound, hnone⟩ := @checkforderiv2_spec context stemstr stemkeys [] []
    ((joinKeys_length_append _ _).trans_lt hfit)
  obtain ⟨hwithout, hcount⟩ := checkforredupderiv_spec hhad
    ((joinKeys_length_right _ _).trans_lt hfit)
  have hkeys := @derivations_ne_nil context stemstr [] []
  unfold checkforderiv
  dsimp only
  by_cases hfirst : derivations context stemstr [] [] = []
  · obtain ⟨hzero, hscratch⟩ := hnone hfirst
    have hscratch := hscratch hshort
    simp only [hfirst, ne_eq, not_true_eq_false, false_or, List.nil_append] at hfit ⊢
    by_cases hsecond : derivationsWithout context stemstr = []
    · have hno : ¬ (checkforredupderiv context stemstr []).2 ≠ 0 := by
        rw [hcount, hsecond]
        simp
      rw [if_neg hno, hzero, hscratch, hsecond]
      have hempty : joinKeys [] = [] := rfl
      simp [hempty]
    · rw [if_pos (hcount.mpr hsecond), hwithout hsecond, appendDerivationKeys_eq, hscratch]
      by_cases hnil : scratch context stemstr stemkeys = []
      · have happ : appended (scratch context stemstr stemkeys)
            (joinKeys (derivationsWithout context stemstr)) =
            joinKeys (derivationsWithout context stemstr) := if_pos hnil
        have hpos := hcount.mpr hsecond
        rw [happ, if_pos hfit]
        dsimp only
        rw [hzero]
        simp only [hsecond, hnil, not_false_eq_true, and_true, iff_true]
        omega
      · -- the keys of the last ending stay in front
        have happ : appended (scratch context stemstr stemkeys)
            (joinKeys (derivationsWithout context stemstr)) =
            scratch context stemstr stemkeys ++
              32 :: joinKeys (derivationsWithout context stemstr) := if_neg hnil
        rw [happ]
        simp only [hnil, iff_false, not_and]
        by_cases hroom : (scratch context stemstr stemkeys ++
            32 :: joinKeys (derivationsWithout context stemstr)).length < longString
        · rw [if_pos hroom]
          intro _ hsame
          have hlength := congrArg List.length hsame
          simp only [List.length_append, List.length_cons] at hlength
          omega
        · rw [if_neg hroom]
          intro hsome
          exact absurd hzero (hsome.mpr hsecond)
  · obtain ⟨hjoin, hpos⟩ := hfound hfirst
    simp only [ne_eq, hfirst, not_false_eq_true, true_or, iff_true, List.append_eq_nil_iff,
      false_and]
    by_cases hsecond : derivationsWithout context stemstr = []
    · have hno : ¬ (checkforredupderiv context stemstr []).2 ≠ 0 := by
        rw [hcount, hsecond]
        simp
      rw [if_neg (by simpa using hno), hsecond, List.append_nil]
      exact ⟨hpos, hjoin⟩
    · have hyes := hcount.mpr hsecond
      rw [if_pos hyes, hwithout hsecond, hjoin, appendDerivationKeys_eq,
        appended_joinKeys hkeys hsecond, if_pos hfit]
      refine ⟨?_, rfl⟩
      dsimp only
      omega

end

/-- Indexes with the endings `elu` and `u` and the stem `l`, which has a perfect in `u`. -/
def perfectContext : DerivContext where
  language := 0
  derivationEndings := [ascii "elu rawkeys", ascii "u :perf"]
  verbStems := [ascii "3l :lu/w:"]
  comderiv := fun args =>
    if args.derivstr = ascii ":perf" then [⟨[], ascii "lu/w", ascii ":perf"⟩] else []
  unaugment := fun _ => []
  sprintGkFlags := fun _ => []

/-- The keys of the ending `elu`, which does not go with `l`, stand before those of the perfect. -/
theorem checkforderiv_leftover :
    checkforderiv perfectContext (ascii "lelu") [] = (ascii "rawkeys :lu/w:perf", 1) ∧
      derivations perfectContext (ascii "lelu") [] [] = [] ∧
      derivationsWithout perfectContext (ascii "lelu") = [ascii ":lu/w:perf"] := by
  decide +kernel

/-- The stem `lu` itself has a derivation. -/
theorem checkforderiv_lu :
    ((checkforderiv perfectContext (ascii "lu") []).2 ≠ 0 ↔
        derivations perfectContext (ascii "lu") [] [] ++
          derivationsWithout perfectContext (ascii "lu") ≠ []) ∧
      (checkforderiv perfectContext (ascii "lu") []).1 =
        joinKeys (derivations perfectContext (ascii "lu") [] [] ++
          derivationsWithout perfectContext (ascii "lu")) := by
  have hfound : derivations perfectContext (ascii "lu") [] [] = [ascii ":lu/w:perf"] := by
    decide +kernel
  have hwithout : derivationsWithout perfectContext (ascii "lu") = [] := by decide +kernel
  apply (checkforderiv_iff [] (by decide) (by intro c hc; cases hc) (by
    rw [hfound, hwithout]
    decide)).mpr
  left
  rw [hfound]
  simp

end Morpheus
