import Morpheus.DerivationSearch
import Morpheus.EndingRetrieval
import Morpheus.StemTypes
import Mathlib.Algebra.BigOperators.Group.List.Basic
import Mathlib.Algebra.Order.BigOperators.Group.List

/-!
# Keys of derived stems

`checkcomderiv2` and `DstemTakesDsuff` of `derivio.c`: for each suffix key of an ending the
compatibility with the keys of the stem is tested by `CompatKeys` of `retrends.c`, and a key of
the derived stem is appended. Reading keys (`ScanAsciiKeys`) and writing flags (`SprintGkFlags`)
are given, with the key tables loaded and memory there.
-/
namespace Morpheus

/-- `REDUPL` -/
def redupl : ℕ := 44

/-- `ScanAsciiKeys` without and with a record for what is to be avoided; it leaves the strings
of the records alone. -/
structure KeyScan where
  scan : Bytes → GkString → GkString
  scanAvoid : Bytes → GkString → GkString → GkString × GkString
  keepsText : ∀ keys want avoid, (scanAvoid keys want avoid).2.gkstring = avoid.gkstring

/-- The tests of `EndingOk`, and the two records afterwards. No string is compared, so the
tests always have a result. -/
def endingTests (language : ℤ) (gstr avoidgstr curGkend : GkString) :
    Bool × GkString × GkString :=
  match wantGkEnd language gstr curGkend false false with
  | none => (false, gstr, curGkend)
  | some want =>
    if want.rval ≤ 0 then (false, want.wantend, want.haveend)
    else
      match noWantGkEnd language avoidgstr want.haveend true with
      | none => (false, want.wantend, want.haveend)
      | some avoid => (avoid.rval == 0, want.wantend, avoid.haveend)

/-- The fields of an ending that `EndingOk` takes over when it is good. -/
def takeOver (gstr curGkend : GkString) : GkString :=
  let f := gstr.forminfo
  let c := curGkend.forminfo
  { gstr with
    forminfo := { f with
      voice := if c.voice ≠ 0 then c.voice else f.voice
      case_ := if c.case_ &&& f.case_ ≠ 0 then c.case_ &&& f.case_
        else if c.case_ ≠ 0 ∧ f.case_ = 0 then c.case_ else f.case_
      number := if c.number ≠ 0 then c.number else f.number
      person := if c.person ≠ 0 then c.person else f.person
      gender := if c.gender &&& f.gender ≠ 0 then c.gender &&& f.gender
        else if c.gender ≠ 0 ∧ f.gender = 0 then c.gender else f.gender }
    dialect := if curGkend.dialect &&& gstr.dialect ≠ 0 then curGkend.dialect &&& gstr.dialect
      else if curGkend.dialect ≠ 0 ∧ gstr.dialect = 0 then curGkend.dialect else gstr.dialect
    morphflags := addMorphflags gstr.morphflags curGkend.morphflags }

/-- `EndingOk` with `wantderiv`. -/
def endingOk (keyScan : KeyScan) (language : ℤ) (keys : Bytes) (gstr avoidgstr : GkString) :
    Bool × GkString :=
  let scanned := keyScan.scanAvoid keys .zero avoidgstr
  let curGkend := scanned.1
  if gstr.derivtype = 0 ∨ gstr.derivtype ≠ curGkend.derivtype then (false, gstr)
  else
    let tests := endingTests language gstr scanned.2 curGkend
    if tests.1 then (true, takeOver tests.2.1 tests.2.2) else (false, tests.2.1)

/-- `CompatKeys` -/
def compatKeys (keyScan : KeyScan) (language : ℤ) (keys1 keys2 : Bytes) (gstr : GkString) :
    Bool × GkString :=
  let start : GkString :=
    if gstr.has isDeriv then
      { GkString.zero with morphflags := addMorphflag GkString.zero.morphflags isDeriv }
    else .zero
  let scanned := keyScan.scan keys1 start
  let f := (keyScan.scan keys2 .zero).forminfo
  let ok := endingOk keyScan language keys2 scanned .zero
  if ok.1 then
    (true, { ok.2 with
      forminfo := { ok.2.forminfo with
        tense := if f.tense ≠ 0 then f.tense else ok.2.forminfo.tense
        mood := if f.mood ≠ 0 then f.mood else ok.2.forminfo.mood
        voice := if f.voice ≠ 0 then f.voice else ok.2.forminfo.voice } })
  else (false, ok.2)

/-- `has_diaeresis` -/
def hasDiaeresis (s : Bytes) : Bool := s.any fun c => c == 43

/-- `ends_in_vowel` -/
def endsInVowel (s : Bytes) : Bool :=
  match s.reverse.find? isAlpha with
  | none => false
  | some c => isVowel c

/-- `Is_rei_char` -/
def isReiChar (c : Byte) : Bool := c == 114 || c == 105 || c == 101

/-- `Is_perfect` -/
def isPerfect (stemtype : UInt32) : Bool :=
  stemtype &&& ppartMask == 0o50000000 || stemtype &&& ppartMask == 0o40000000 ||
    stemtype &&& ppartMask == 0o70000000

/-- The arguments of `checkcomderiv2` besides the suffix keys and the result, with what it
calls, and the memory in front of the stem, into which `lastn` steps back from an empty one. -/
structure DerivRequest where
  language : ℤ
  keyScan : KeyScan
  sprintGkFlags : GkString → Bytes
  memory : Bytes
  dstem : Bytes
  dstemkeys : Bytes
  suffix : Bytes
  lemma_ : Bytes
  hadRedupl : Bytes
  markedstem : ℕ

/-- The keys of a record written after `IS_DERIV` was set or cleared. -/
def GkString.withDeriv (gstr : GkString) : GkString :=
  { gstr with morphflags := addMorphflag gstr.morphflags isDeriv }

def GkString.withoutDeriv (gstr : GkString) : GkString :=
  { gstr with morphflags := zapMorphflag gstr.morphflags isDeriv }

/-- `need_rei_alpha` -/
def needReiAlpha (keyScan : KeyScan) (dsuffkeys : Bytes) : Bool :=
  (keyScan.scan dsuffkeys .zero).has rEIAlpha

/-- `DstemTakesDsuff`: the return value, and the record afterwards. -/
def dstemTakesDsuff (request : DerivRequest) (dsuffkeys : Bytes) (gstr : GkString)
    (derivstr : Bytes) : Bool × GkString :=
  if hasDiaeresis derivstr && !endsInVowel request.dstem then (false, gstr.withDeriv)
  else
    let compat := compatKeys request.keyScan request.language dsuffkeys request.dstemkeys
      gstr.withDeriv
    let gstr := compat.2.withoutDeriv
    (compat.1 && !(derivstr.take 2 == [97, 95] &&
      !isReiChar ((lastn request.memory request.dstem 1).headD 0) &&
      needReiAlpha request.keyScan dsuffkeys), gstr)

/-- A suffix key that has a form of its own in front of its first colon. -/
def isMarked (derivsuff : Bytes) : Bool := derivsuff.headD 58 != 58

/-- The suffix string of a key: its own form, or the suffix of the ending. -/
def suffixString (request : DerivRequest) (derivsuff : Bytes) : Bytes :=
  if isMarked derivsuff then derivsuff.takeWhile (· ≠ 58) else xstrncpy request.suffix longString

/-- The keys of a suffix key, with blanks for colons. -/
def suffixKeys (derivsuff : Bytes) : Bytes :=
  subchar (if isMarked derivsuff then (derivsuff.dropWhile (· ≠ 58)).tail else derivsuff) 58 32

/-- The tests of reduplication, and the record with the flags of the reduplication. -/
def reduplicated (request : DerivRequest) (gstr : GkString) : Option GkString :=
  let had := request.hadRedupl != []
  let perfect := isPerfect gstr.stemtype
  if request.language ≠ latin ∧ request.language ≠ italian ∧ had = false ∧ perfect = true then
    none
  else if had && !perfect then none
  else if request.hadRedupl.take 8 = ascii "syll_aug" ∧ gstr.has syllAugment = false then none
  else if had then
    some (request.keyScan.scan request.hadRedupl
      { gstr with morphflags := addMorphflag gstr.morphflags redupl })
  else some gstr

/-- What the loop of `checkcomderiv2` carries from one suffix key to the next. -/
structure DerivState where
  markedstem : ℕ
  gstr : GkString
  rkeys : Bytes

/-- One turn of the loop: the state afterwards, and the key that is appended. -/
def derivTurn (request : DerivRequest) (state : DerivState) (derivsuff : Bytes) :
    DerivState × Option Bytes :=
  let tmpdsuff := suffixString request derivsuff
  let markedstem := if isMarked derivsuff then state.markedstem + 1 else state.markedstem
  let state := { state with markedstem }
  let stembuf := if markedstem ≠ 0 then request.dstem ++ tmpdsuff else []
  if stembuf.length ≥ maxWordSize then (state, none)
  else
    let takes := dstemTakesDsuff request (suffixKeys derivsuff) state.gstr tmpdsuff
    let state := { state with gstr := takes.2 }
    if takes.1 then
      match reduplicated request takes.2 with
      | none => (state, none)
      | some gstr =>
        let state := { state with gstr }
        let tmp2 := stembuf ++ 58 :: (request.lemma_ ++ request.sprintGkFlags gstr)
        if tmp2.length ≥ 4 * longString then (state, none)
        else
          let added := addKey state.rkeys tmp2
          ({ state with rkeys := added.1 }, if added.2 ≠ 0 then some tmp2 else none)
    else (state, none)

/-- The loop of `checkcomderiv2` over the suffix keys, with the key appended for each. -/
def derivLoop (request : DerivRequest) : DerivState → List Bytes → DerivState × List (Option Bytes)
  | state, [] => (state, [])
  | state, derivsuff :: rest =>
    let turn := derivTurn request state derivsuff
    let loop := derivLoop request turn.1 rest
    (loop.1, turn.2 :: loop.2)

/-- `checkcomderiv2`: the keys afterwards, and the return value. -/
def checkcomderiv2 (request : DerivRequest) (asuffkeys rkeys : Bytes) : Bytes × ℕ :=
  let loop := derivLoop request ⟨request.markedstem, .zero, rkeys⟩
    (keyWords (xstrncpy asuffkeys longString))
  (loop.1.rkeys, loop.2.countP Option.isSome)

theorem withDeriv_has (gstr : GkString) : gstr.withDeriv.has isDeriv = true := by
  have h := flagAt_addMorphflag gstr.morphflags (m := 45) (k := 45) (by decide)
  rw [← hasMorphflag_succ] at h
  unfold GkString.withDeriv GkString.has isDeriv
  rw [h]
  simp

/-- `CompatKeys` starts from a cleared record, so the one handed to it does not matter. -/
theorem compatKeys_withDeriv (keyScan : KeyScan) (language : ℤ) (keys1 keys2 : Bytes)
    (g1 g2 : GkString) :
    compatKeys keyScan language keys1 keys2 g1.withDeriv =
      compatKeys keyScan language keys1 keys2 g2.withDeriv := by
  unfold compatKeys
  rw [withDeriv_has, withDeriv_has]

/-- Whether a stem takes a suffix, and with which record, does not depend on earlier keys. -/
theorem dstemTakesDsuff_state (request : DerivRequest) (dsuffkeys derivstr : Bytes)
    (g1 g2 : GkString) :
    (dstemTakesDsuff request dsuffkeys g1 derivstr).1 =
        (dstemTakesDsuff request dsuffkeys g2 derivstr).1 ∧
      ((dstemTakesDsuff request dsuffkeys g1 derivstr).1 = true →
        (dstemTakesDsuff request dsuffkeys g1 derivstr).2 =
          (dstemTakesDsuff request dsuffkeys g2 derivstr).2) := by
  unfold dstemTakesDsuff
  split
  · exact ⟨rfl, fun h => by cases h⟩
  · rw [compatKeys_withDeriv request.keyScan request.language dsuffkeys request.dstemkeys g1 g2]
    exact ⟨rfl, fun _ => rfl⟩

/-- The record of a key whose suffix the stem takes. -/
def acceptedRecord (request : DerivRequest) (derivsuff : Bytes) : Option GkString :=
  let takes := dstemTakesDsuff request (suffixKeys derivsuff) .zero
    (suffixString request derivsuff)
  if takes.1 then reduplicated request takes.2 else none

/-- The key for a suffix key with the stem written out or not, before the result buffer is
looked at. -/
def derivedText (request : DerivRequest) (counted : Bool) (derivsuff : Bytes) : Option Bytes :=
  let stembuf := if counted || isMarked derivsuff then
    request.dstem ++ suffixString request derivsuff else []
  if stembuf.length ≥ maxWordSize then none
  else
    (acceptedRecord request derivsuff).map fun gstr =>
      stembuf ++ 58 :: (request.lemma_ ++ request.sprintGkFlags gstr)

/-- The counter of marked stems after a suffix key. -/
def countMarked (markedstem : ℕ) (derivsuff : Bytes) : ℕ :=
  if isMarked derivsuff then markedstem + 1 else markedstem

theorem countMarked_ne_zero (markedstem : ℕ) (derivsuff : Bytes) :
    decide (countMarked markedstem derivsuff ≠ 0) =
      (decide (markedstem ≠ 0) || isMarked derivsuff) := by
  unfold countMarked
  cases isMarked derivsuff <;> simp

theorem addKey_full {rkeys key : Bytes} (h : key.length ≥ longString) :
    addKey rkeys key = (rkeys, 0) := by
  unfold addKey
  rw [if_pos]
  right
  omega

/-- What a turn does, whatever the work record holds. -/
theorem derivTurn_spec (request : DerivRequest) (state : DerivState) (derivsuff : Bytes) :
    (derivTurn request state derivsuff).1.markedstem = countMarked state.markedstem derivsuff ∧
      (derivTurn request state derivsuff).1.rkeys =
        ((derivedText request (decide (state.markedstem ≠ 0)) derivsuff).elim state.rkeys
          fun key => (addKey state.rkeys key).1) ∧
      (derivTurn request state derivsuff).2 =
        (derivedText request (decide (state.markedstem ≠ 0)) derivsuff).filter
          fun key => (addKey state.rkeys key).2 ≠ 0 := by
  have hcount := countMarked_ne_zero state.markedstem derivsuff
  obtain ⟨htakes, hrecord⟩ := dstemTakesDsuff_state request (suffixKeys derivsuff)
    (suffixString request derivsuff) state.gstr .zero
  unfold derivTurn derivedText acceptedRecord
  dsimp only
  rw [← hcount]
  have hmarked : (if isMarked derivsuff then state.markedstem + 1 else state.markedstem) =
      countMarked state.markedstem derivsuff := rfl
  rw [hmarked]
  simp only [decide_eq_true_eq]
  by_cases hlong : (if countMarked state.markedstem derivsuff ≠ 0 then
      request.dstem ++ suffixString request derivsuff else []).length ≥ maxWordSize
  · rw [if_pos hlong, if_pos hlong]
    exact ⟨rfl, rfl, rfl⟩
  · rw [if_neg hlong, if_neg hlong, ← htakes]
    cases hok : (dstemTakesDsuff request (suffixKeys derivsuff) state.gstr
        (suffixString request derivsuff)).1 with
    | false => exact ⟨rfl, rfl, rfl⟩
    | true =>
      rw [if_pos rfl, if_pos rfl, ← hrecord hok]
      cases reduplicated request (dstemTakesDsuff request (suffixKeys derivsuff) state.gstr
          (suffixString request derivsuff)).2 with
      | none => exact ⟨rfl, rfl, rfl⟩
      | some gstr =>
        rw [Option.map_some]
        dsimp only
        generalize (if countMarked state.markedstem derivsuff ≠ 0 then
          request.dstem ++ suffixString request derivsuff else []) ++
            58 :: (request.lemma_ ++ request.sprintGkFlags gstr) = key
        by_cases hkey : key.length ≥ 4 * longString
        · have hfull : addKey state.rkeys key = (state.rkeys, 0) :=
            addKey_full (hkey.trans' (by omega))
          rw [if_pos hkey]
          exact ⟨rfl, by simp [hfull], by simp [Option.filter, hfull]⟩
        · rw [if_neg hkey]
          exact ⟨rfl, rfl, by simp [Option.filter]⟩

theorem addKey_cases (rkeys key : Bytes) :
    addKey rkeys key = (rkeys, 0) ∨
      addKey rkeys key = (if rkeys = [] then key else rkeys ++ 32 :: key, 1) := by
  unfold addKey
  by_cases hfull : rkeys.length ≥ longString ∨
      key.length + (if rkeys = [] then 0 else 1) ≥ longString - rkeys.length
  · left
    rw [if_pos hfull]
  · right
    rw [if_neg hfull]

/-- The buffer holds the keys that the loop says it appended, in their order. -/
theorem derivLoop_rkeys (request : DerivRequest) (state : DerivState) (keys : List Bytes) :
    ((derivLoop request state keys).1.rkeys,
        (derivLoop request state keys).2.countP Option.isSome) =
      addKeys state.rkeys (derivLoop request state keys).2.reduceOption := by
  induction keys generalizing state with
  | nil => rfl
  | cons derivsuff rest ih =>
    obtain ⟨_, hrkeys, houtcome⟩ := derivTurn_spec request state derivsuff
    have hrest := ih (derivTurn request state derivsuff).1
    unfold derivLoop
    dsimp only
    rw [hrkeys] at hrest
    cases htext : derivedText request (decide (state.markedstem ≠ 0)) derivsuff with
    | none =>
      rw [htext] at houtcome hrest
      rw [houtcome]
      exact hrest
    | some key =>
      rw [htext] at houtcome hrest
      rw [houtcome]
      rcases addKey_cases state.rkeys key with hadd | hadd
      · rw [Option.filter_some, if_neg (by simp [hadd])]
        rw [Option.elim_some, hadd] at hrest
        exact hrest
      · rw [Option.filter_some, if_pos (by simp [hadd]), List.reduceOption_cons_of_some,
          addKeys, hadd]
        rw [Option.elim_some, hadd] at hrest
        rw [← hrest, List.countP_cons_of_pos rfl, Nat.add_comm]

/-- The room that a suffix key asks for. -/
def textRoom (text : Option Bytes) : ℕ := text.elim 0 fun key => key.length + 1

theorem addKey_room {rkeys key : Bytes} (h : rkeys.length + (key.length + 1) < longString) :
    (addKey rkeys key).2 ≠ 0 ∧ (addKey rkeys key).1.length ≤ rkeys.length + (key.length + 1) := by
  unfold addKey
  rw [if_neg]
  · split_ifs with hnil
    · subst hnil
      simp
    · simp
  · split_ifs <;> omega

/-- When the counter makes no difference to the keys of a list, every key is the same in the
list as with the counter of the start. -/
theorem derivLoop_alike (request : DerivRequest) (text : Bytes → Option Bytes) (state : DerivState)
    (keys : List Bytes)
    (hstart : ∀ key ∈ keys, derivedText request (decide (state.markedstem ≠ 0)) key = text key)
    (hmarked : ∀ marked ∈ keys, isMarked marked = true →
      ∀ key ∈ keys, derivedText request true key = text key)
    (hroom : state.rkeys.length + (keys.map fun key => textRoom (text key)).sum < longString) :
    (derivLoop request state keys).2 = keys.map text := by
  induction keys generalizing state with
  | nil => rfl
  | cons derivsuff rest ih =>
    obtain ⟨hcount, hrkeys, houtcome⟩ := derivTurn_spec request state derivsuff
    rw [hstart derivsuff List.mem_cons_self] at hrkeys houtcome
    rw [List.map_cons, List.sum_cons] at hroom
    have hturn : (derivTurn request state derivsuff).2 = text derivsuff ∧
        (derivTurn request state derivsuff).1.rkeys.length ≤
          state.rkeys.length + textRoom (text derivsuff) := by
      rw [houtcome, hrkeys]
      cases htext : text derivsuff with
      | none => exact ⟨rfl, Nat.le_refl _⟩
      | some key =>
        rw [htext] at hroom
        have hkey : state.rkeys.length + (key.length + 1) < longString := by
          have hone : textRoom (some key) = key.length + 1 := rfl
          omega
        obtain ⟨hadd, hlength⟩ := addKey_room hkey
        exact ⟨by rw [Option.filter_some, if_pos (by simpa using hadd)], hlength⟩
    unfold derivLoop
    dsimp only
    rw [List.map_cons, hturn.1]
    congr 1
    apply ih
    · intro key hkey
      rw [hcount, countMarked_ne_zero]
      cases hmark : isMarked derivsuff with
      | false =>
        rw [Bool.or_false]
        exact hstart key (List.mem_cons_of_mem _ hkey)
      | true =>
        rw [Bool.or_true]
        exact hmarked derivsuff List.mem_cons_self hmark key (List.mem_cons_of_mem _ hkey)
    · intro marked hmem hmark key hkey
      exact hmarked marked (List.mem_cons_of_mem _ hmem) hmark key (List.mem_cons_of_mem _ hkey)
    · omega

/-- What `checkcomderiv2` appends for each suffix key of a list. -/
def appendedKeys (request : DerivRequest) (asuffkeys rkeys : Bytes) : List (Option Bytes) :=
  (derivLoop request ⟨request.markedstem, .zero, rkeys⟩
    (keyWords (xstrncpy asuffkeys longString))).2

/-- What `checkcomderiv2` appends when it is called with one suffix key. -/
def aloneKey (request : DerivRequest) (derivsuff : Bytes) : Option Bytes :=
  if (checkcomderiv2 request derivsuff []).2 = 0 then none
  else some (checkcomderiv2 request derivsuff []).1

/-- In every order of the suffix keys each one has the key it has alone. -/
def KeysIndependent (request : DerivRequest) (asuffkeys rkeys : Bytes) : Prop :=
  ∀ other : Bytes, other.length < longString → (keyWords other).Perm (keyWords asuffkeys) →
    appendedKeys request other rkeys = (keyWords other).map (aloneKey request) ∧
      checkcomderiv2 request other rkeys =
        addKeys rkeys ((keyWords other).map (aloneKey request)).reduceOption

/-- There is room for the keys that the suffix keys have when no other stands before them. -/
def RoomForKeys (request : DerivRequest) (asuffkeys rkeys : Bytes) : Prop :=
  rkeys.length + ((keyWords asuffkeys).map fun key =>
    textRoom (derivedText request (decide (request.markedstem ≠ 0)) key)).sum < longString

/-- The stem is written out for every key from the start, or there is nothing to write, or no
marked suffix key stands together with an unmarked one that the stem takes. -/
def AlikeMarked (request : DerivRequest) (asuffkeys : Bytes) : Prop :=
  request.markedstem ≠ 0 ∨ request.dstem ++ xstrncpy request.suffix longString = [] ∨
    ∀ marked ∈ keyWords asuffkeys, isMarked marked = true →
      ∀ plain ∈ keyWords asuffkeys, isMarked plain = false → acceptedRecord request plain = none

section
variable (request : DerivRequest)

theorem derivedText_marked {derivsuff : Bytes} (h : isMarked derivsuff = true) (counted : Bool) :
    derivedText request counted derivsuff = derivedText request true derivsuff := by
  unfold derivedText
  rw [h, Bool.or_true, Bool.or_true]

theorem derivedText_rejected {derivsuff : Bytes} (h : acceptedRecord request derivsuff = none)
    (counted : Bool) : derivedText request counted derivsuff = none := by
  unfold derivedText
  rw [h]
  simp only [Option.map_none, ite_self]

theorem derivedText_empty {derivsuff : Bytes} (hmark : isMarked derivsuff = false)
    (h : request.dstem ++ xstrncpy request.suffix longString = []) (counted : Bool) :
    derivedText request counted derivsuff = derivedText request true derivsuff := by
  have hstring : suffixString request derivsuff = xstrncpy request.suffix longString := by
    unfold suffixString
    rw [hmark]
    rfl
  unfold derivedText
  rw [hstring, h]
  simp

/-- An accepted unmarked key has no stem of its own, and has the stem after a marked one. -/
theorem derivedText_plain {derivsuff : Bytes} (hmark : isMarked derivsuff = false)
    {gstr : GkString} (h : acceptedRecord request derivsuff = some gstr) :
    derivedText request false derivsuff =
        some (58 :: (request.lemma_ ++ request.sprintGkFlags gstr)) ∧
      ∀ text, derivedText request true derivsuff = some text →
        text = request.dstem ++ xstrncpy request.suffix longString ++
          58 :: (request.lemma_ ++ request.sprintGkFlags gstr) := by
  have hstring : suffixString request derivsuff = xstrncpy request.suffix longString := by
    unfold suffixString
    rw [hmark]
    rfl
  unfold derivedText
  rw [h, hmark, hstring]
  refine ⟨rfl, fun text htext => ?_⟩
  have hwritten : (if (request.dstem ++ xstrncpy request.suffix longString).length ≥ maxWordSize
      then none else some (request.dstem ++ xstrncpy request.suffix longString ++
        58 :: (request.lemma_ ++ request.sprintGkFlags gstr))) = some text := htext
  split_ifs at hwritten
  exact (Option.some.inj hwritten).symm

variable {request}

theorem aloneKey_eq {derivsuff : Bytes} (hword : IsKeyWord derivsuff)
    (hlength : derivsuff.length < longString) :
    aloneKey request derivsuff =
      (derivedText request (decide (request.markedstem ≠ 0)) derivsuff).filter
        fun key => (addKey [] key).2 ≠ 0 := by
  have hlist : keyWords (xstrncpy derivsuff longString) = [derivsuff] := by
    rw [xstrncpy_of_lt hlength]
    have hjoin : keyWords (joinKeys [derivsuff]) = [derivsuff] :=
      keyWords_joinKeys (by simpa using hword)
    simpa [joinKeys, List.intercalate] using hjoin
  obtain ⟨_, hrkeys, houtcome⟩ := derivTurn_spec request ⟨request.markedstem, .zero, []⟩ derivsuff
  have hcheck : checkcomderiv2 request derivsuff [] =
      ((derivTurn request ⟨request.markedstem, .zero, []⟩ derivsuff).1.rkeys,
        [(derivTurn request ⟨request.markedstem, .zero, []⟩ derivsuff).2].countP
          Option.isSome) := by
    unfold checkcomderiv2
    rw [hlist]
    rfl
  unfold aloneKey
  rw [hcheck, houtcome, hrkeys]
  dsimp only
  cases derivedText request (decide (request.markedstem ≠ 0)) derivsuff with
  | none => rfl
  | some key =>
    rcases addKey_cases [] key with hadd | hadd
    · simp [Option.filter, hadd]
    · simp [Option.filter, hadd]

/-- With room a suffix key has alone what it has with the counter of the start. -/
theorem aloneKey_of_room {asuffkeys rkeys derivsuff : Bytes}
    (hlist : asuffkeys.length < longString) (hroom : RoomForKeys request asuffkeys rkeys)
    (h : derivsuff ∈ keyWords asuffkeys) :
    aloneKey request derivsuff =
      derivedText request (decide (request.markedstem ≠ 0)) derivsuff := by
  have hwords := keyWords_spec asuffkeys.length asuffkeys (Nat.le_refl _)
  have hlength : derivsuff.length < longString := by
    have hle := (keyWords_within asuffkeys.length asuffkeys (Nat.le_refl _) h).2.length_le
    omega
  have hone : textRoom (derivedText request (decide (request.markedstem ≠ 0)) derivsuff) ≤
      ((keyWords asuffkeys).map fun key =>
        textRoom (derivedText request (decide (request.markedstem ≠ 0)) key)).sum :=
    List.single_le_sum (fun _ _ => Nat.zero_le _) _ (List.mem_map.mpr ⟨derivsuff, h, rfl⟩)
  unfold RoomForKeys at hroom
  rw [aloneKey_eq (hwords.1 derivsuff h) hlength]
  cases htext : derivedText request (decide (request.markedstem ≠ 0)) derivsuff with
  | none => rfl
  | some key =>
    rw [htext] at hone
    have hkey : textRoom (some key) = key.length + 1 := rfl
    have hadd : (addKey [] key).2 ≠ 0 := by
      apply (addKey_room _).1
      rw [List.length_nil]
      omega
    rw [Option.filter_some, if_pos (by simpa using hadd)]

theorem keysIndependent_of_alikeMarked {asuffkeys rkeys : Bytes}
    (hlist : asuffkeys.length < longString) (hroom : RoomForKeys request asuffkeys rkeys)
    (h : AlikeMarked request asuffkeys) : KeysIndependent request asuffkeys rkeys := by
  intro other hother hperm
  have halone : (keyWords other).map (aloneKey request) =
      (keyWords other).map (derivedText request (decide (request.markedstem ≠ 0))) :=
    List.map_congr_left fun key hkey => aloneKey_of_room hlist hroom (hperm.subset hkey)
  have houtcomes : appendedKeys request other rkeys = (keyWords other).map (aloneKey request) := by
    unfold appendedKeys
    rw [halone, xstrncpy_of_lt hother]
    apply derivLoop_alike
    · intro key _
      rfl
    · intro marked hmarked hmark key hkey
      cases hplain : isMarked key with
      | true =>
        rw [derivedText_marked request hplain (decide (request.markedstem ≠ 0))]
      | false =>
        rcases h with hstart | hempty | hnone
        · rw [decide_eq_true hstart]
        · rw [derivedText_empty request hplain hempty (decide (request.markedstem ≠ 0))]
        · have hrejected := hnone marked (hperm.subset hmarked) hmark key (hperm.subset hkey) hplain
          rw [derivedText_rejected request hrejected, derivedText_rejected request hrejected]
    · have hsum := (hperm.map fun key =>
        textRoom (derivedText request (decide (request.markedstem ≠ 0)) key)).sum_eq
      unfold RoomForKeys at hroom
      simp only
      omega
  refine ⟨houtcomes, ?_⟩
  rw [← houtcomes]
  exact derivLoop_rkeys request ⟨request.markedstem, .zero, rkeys⟩ _

theorem exists_list_of_perm {asuffkeys : Bytes} {words : List Bytes}
    (hlist : asuffkeys.length < longString) (h : words.Perm (keyWords asuffkeys)) :
    ∃ other : Bytes, other.length < longString ∧ keyWords other = words := by
  obtain ⟨hwords, hsum⟩ := keyWords_spec asuffkeys.length asuffkeys (Nat.le_refl _)
  refine ⟨joinKeys words, ?_, keyWords_joinKeys fun word hword => hwords word (h.subset hword)⟩
  have hsame := (h.map fun word : Bytes => word.length + 1).sum_eq
  rw [joinKeys_length]
  omega

/-- A marked key in front of an unmarked one that the stem takes: the unmarked one has the stem
written out, which it has not alone. -/
theorem alikeMarked_of_keysIndependent {asuffkeys rkeys : Bytes}
    (hlist : asuffkeys.length < longString) (hroom : RoomForKeys request asuffkeys rkeys)
    (h : KeysIndependent request asuffkeys rkeys) : AlikeMarked request asuffkeys := by
  by_contra hnot
  unfold AlikeMarked at hnot
  push Not at hnot
  obtain ⟨hstart, hstem, marked, hmarked, hmark, plain, hplain, hunmarked, haccepted⟩ := hnot
  obtain ⟨gstr, hgstr⟩ := Option.ne_none_iff_exists'.mp haccepted
  have hdiffer : plain ≠ marked := by
    intro heq
    rw [heq, hmark] at hunmarked
    cases hunmarked
  have hperm : (marked :: plain :: ((keyWords asuffkeys).erase marked).erase plain).Perm
      (keyWords asuffkeys) := by
    have hrest : plain ∈ (keyWords asuffkeys).erase marked :=
      (List.mem_erase_of_ne hdiffer).mpr hplain
    exact ((List.perm_cons_erase hrest).symm.cons marked).trans (List.perm_cons_erase hmarked).symm
  obtain ⟨other, hother, hwords⟩ := exists_list_of_perm hlist hperm
  have houtcomes := (h other hother (hwords ▸ hperm)).1
  unfold appendedKeys at houtcomes
  rw [xstrncpy_of_lt hother, hwords] at houtcomes
  have hsecond := congrArg (fun l => l.tail.head?) houtcomes
  simp only [derivLoop, List.map_cons, List.tail_cons, List.head?_cons] at hsecond
  obtain ⟨hfalse, htrue⟩ := derivedText_plain request hunmarked hgstr
  have hcounter := (derivTurn_spec request ⟨request.markedstem, .zero, rkeys⟩ marked).1
  have hne : (derivTurn request ⟨request.markedstem, .zero, rkeys⟩ marked).1.markedstem ≠ 0 := by
    rw [hcounter]
    unfold countMarked
    rw [hmark]
    exact Nat.succ_ne_zero _
  rw [(derivTurn_spec request _ plain).2.2, aloneKey_of_room hlist hroom hplain,
    decide_eq_true hne, hstart, decide_eq_false (fun hzero => hzero rfl), hfalse] at hsecond
  obtain ⟨htext, _⟩ := Option.filter_eq_some_iff.mp (Option.some.inj hsecond)
  have hlength := congrArg List.length (htrue _ htext)
  have hlong := List.length_pos_iff.mpr hstem
  rw [List.length_append] at hlength
  omega

/-- The keys of `checkcomderiv2` are independent of one another exactly when no marked suffix
key can leave the stem marked for an unmarked one. -/
theorem checkcomderiv2_independent {asuffkeys rkeys : Bytes}
    (hlist : asuffkeys.length < longString) (hroom : RoomForKeys request asuffkeys rkeys) :
    KeysIndependent request asuffkeys rkeys ↔ AlikeMarked request asuffkeys :=
  ⟨alikeMarked_of_keysIndependent hlist hroom, keysIndependent_of_alikeMarked hlist hroom⟩

end

/-- The keys of the example, with the numbers of the key tables. -/
def conjScan (keys : Bytes) (gstr : GkString) : GkString :=
  if keys = ascii "azw" then { gstr with derivtype := 0o2000016 }
  else if keys = ascii " azw aor1" then
    { gstr with derivtype := 0o2000016, stemtype := 0o30000032 }
  else if keys = ascii " azw reg_fut" then
    { gstr with derivtype := 0o2000016, stemtype := 0o20000022 }
  else if keys = ascii "aw_denom aor1" then
    { gstr with derivtype := 0o2000012, stemtype := 0o30000032 }
  else gstr

/-- The stem of `qauma/zw` with the suffix `as`. -/
def azwRequest : DerivRequest where
  language := greek
  keyScan := ⟨conjScan, fun keys want avoid => (conjScan keys want, avoid), fun _ _ _ => rfl⟩
  sprintGkFlags gstr :=
    if gstr.stemtype = 0o20000022 then ascii ":reg_fut:azw"
    else if gstr.derivtype = 0o2000016 then ascii ":aor1:azw" else []
  memory := [0]
  dstem := ascii "qaum"
  dstemkeys := ascii "azw"
  suffix := ascii "as"
  lemma_ := ascii "qauma/zw"
  hadRedupl := []
  markedstem := 0

/-- Unmarked keys are independent, and so is a marked one beside an unmarked one that the stem does not
take. -/
theorem checkcomderiv2_independent_azw :
    KeysIndependent azwRequest (ascii ":azw:aor1 :azw:reg_fut :aw_denom:aor1") [] ∧
      KeysIndependent azwRequest (ascii "a_s:aw_denom:aor1 :aw_denom:aor1") [] := by
  refine ⟨(checkcomderiv2_independent (by decide +kernel)
      (by unfold RoomForKeys; decide +kernel)).mpr (.inr (.inr ?_)),
    (checkcomderiv2_independent (by decide +kernel)
      (by unfold RoomForKeys; decide +kernel)).mpr (.inr (.inr ?_))⟩
  · have hnone : ∀ key ∈ keyWords (ascii ":azw:aor1 :azw:reg_fut :aw_denom:aor1"),
        isMarked key = false := by decide +kernel
    intro marked hmarked hmark
    rw [hnone marked hmarked] at hmark
    cases hmark
  · have hrejected : ∀ key ∈ keyWords (ascii "a_s:aw_denom:aor1 :aw_denom:aor1"),
        (acceptedRecord azwRequest key).isNone = true := by decide +kernel
    exact fun _ _ _ plain hplain _ => Option.isNone_iff_eq_none.mp (hrejected plain hplain)

/-- After the key `a_s:aw_denom:aor1`, which is not taken, the key `:azw:aor1` has the stem
written out. -/
theorem checkcomderiv2_markedstem :
    ¬ ∀ (request : DerivRequest) (asuffkeys rkeys : Bytes), asuffkeys.length < longString →
      RoomForKeys request asuffkeys rkeys → KeysIndependent request asuffkeys rkeys := by
  intro h
  have hkeys := (h azwRequest (ascii "a_s:aw_denom:aor1 :azw:aor1") [] (by decide +kernel)
    (by unfold RoomForKeys; decide +kernel) _ (by decide +kernel) (List.Perm.refl _)).1
  have happended : appendedKeys azwRequest (ascii "a_s:aw_denom:aor1 :azw:aor1") [] =
      [none, some (ascii "qaumas:qauma/zw:aor1:azw")] := by decide +kernel
  have halone : aloneKey azwRequest (ascii ":azw:aor1") =
      some (ascii ":qauma/zw:aor1:azw") := by decide +kernel
  have hwords : keyWords (ascii "a_s:aw_denom:aor1 :azw:aor1") =
      [ascii "a_s:aw_denom:aor1", ascii ":azw:aor1"] := by decide +kernel
  rw [happended, hwords, List.map_cons, List.map_cons, halone] at hkeys
  exact absurd hkeys (by decide +kernel)

end Morpheus
