import Morpheus.AnalysisStore
import Morpheus.EndingOrder
import Morpheus.EndingStrings
import Morpheus.PublicValues
import Mathlib.Data.List.ReduceOption

/-!
# Retrieving endings

`WantGkEnd` of `retrends.c` tests an ending against a wanted pattern, `NoWantGkEnd` against a
pattern to avoid, and `RetrCompEnds` collects the endings of a list. The tests write to the
ending, and `EuphEnd` of `euphend.c` may clear a flag of the pattern.
-/
namespace Morpheus

/-- `PP_PF` -/
def ppPf : UInt32 := 0o40000000

/-- `PP_SU` -/
def ppSu : UInt32 := 0o60000000

/-- `DECL1|DECL2` -/
def declOneTwo : UInt32 := 0o100 ||| 0o200

/-- `RHO_ETA_DIAL` -/
def rhoEtaDial : UInt16 := 0o2000 ||| homeric ||| ionic

/-- `ACTIVE` -/
def activeVoice : BitVec 3 := 1

/-- `DEPONENT` -/
def deponent : BitVec 3 := 3

/-- `PARTICIPLE` -/
def participle : BitVec 4 := 6

/-- `GERUNDIVE` -/
def gerundive : BitVec 4 := 7

/-- `COMPARATIVE` -/
def comparative : BitVec 2 := 1

/-- `SUPERLATIVE` -/
def superlative : BitVec 2 := 2

/-- `COMP_ONLY` -/
def compOnly : ℕ := 2

/-- `CONTRACTED` -/
def contracted : ℕ := 7

/-- `NO_COMP` -/
def noComp : ℕ := 12

/-- `SHORT_PEN` -/
def shortPen : ℕ := 13

/-- `LONG_PEN` -/
def longPen : ℕ := 14

/-- `NOT_IN_COMPOSITION` -/
def notInComposition : ℕ := 19

/-- `HAS_PREVERB` -/
def hasPreverb : ℕ := 20

/-- `ROOT_PREVERB` -/
def rootPreverb : ℕ := 36

/-- `NU_MOVABLE` -/
def nuMovable : ℕ := 28

/-- `UNCONTR_END` -/
def uncontrEnd : ℕ := 45

/-- `ENDS_IN_DIGAMMA` -/
def endsInDigamma : ℕ := 65

/-- `has_morphflag` of a record. -/
def GkString.has (gstr : GkString) (n : ℕ) : Bool := hasMorphflag gstr.morphflags n

def GkString.setVoice (gstr : GkString) (voice : BitVec 3) : GkString :=
  { gstr with forminfo := { gstr.forminfo with voice } }

def GkString.setGender (gstr : GkString) (gender : BitVec 4) : GkString :=
  { gstr with forminfo := { gstr.forminfo with gender } }

def GkString.setCase (gstr : GkString) (case_ : BitVec 6) : GkString :=
  { gstr with forminfo := { gstr.forminfo with case_ } }

def GkString.setDegree (gstr : GkString) (degree : BitVec 2) : GkString :=
  { gstr with forminfo := { gstr.forminfo with degree } }

/-- A test that an ending does not pass leaves the ending as far as it was written. -/
abbrev Tested := Except GkString GkString

def failIf (failed : Bool) (haveend : GkString) : Tested :=
  if failed then .error haveend else .ok haveend

/-- A field that is asked for and differs, where an unset one counts only in a strict test. -/
def differs {n : ℕ} (wanted have_ : BitVec n) (strict : Bool) : Bool :=
  wanted != 0 && have_ != wanted && (have_ != 0 || strict)

/-- The voice asked for; perfect actives are always active. -/
def wantedVoice (wantend : GkString) : BitVec 3 :=
  if wantend.stemtype &&& ppartMask = ppPf then activeVoice else wantend.forminfo.voice

/-- The tests of the voice. -/
def testVoice (language : ℤ) (wantend haveend : GkString) (writeflag strict : Bool) : Tested :=
  let wvoice := wantedVoice wantend
  let hvoice := haveend.forminfo.voice
  let hmood := haveend.forminfo.mood
  let haveend :=
    if wantend.stemtype &&& ppartMask = ppSu ∧ language = latin ∧ wvoice = deponent then
      haveend.setVoice wvoice
    else haveend
  if language = latin ∧ wvoice = deponent then
    failIf (hvoice == activeVoice && hmood != participle && hmood != gerundive) haveend
  else if wvoice = 0 then .ok haveend
  else if wvoice &&& hvoice = 0 then failIf (hvoice != 0 || strict) haveend
  else .ok (if writeflag then haveend.setVoice wvoice else haveend)

/-- The tests of the gender, which fail only when both have one. -/
def testGender (wantend haveend : GkString) (writeflag : Bool) : Tested :=
  let wgender := wantend.forminfo.gender
  let hgender := haveend.forminfo.gender
  if wgender = 0 then .ok haveend
  else if hgender ≠ 0 ∧ wgender &&& hgender = 0 then .error haveend
  else if writeflag then
    .ok (haveend.setGender (if wgender &&& hgender ≠ 0 then wgender &&& hgender else wgender))
  else .ok haveend

/-- The tests of the case. -/
def testCase (wantend haveend : GkString) (writeflag strict : Bool) : Tested :=
  let wcase := wantend.forminfo.case_
  let hcase := haveend.forminfo.case_
  if wcase = 0 then .ok haveend
  else if wcase &&& hcase = 0 ∧ (hcase ≠ 0 ∨ strict = true) then .error haveend
  else .ok (if writeflag then haveend.setCase (wcase &&& hcase) else haveend)

/-- The tests of `WantGkEnd` before the test of the string. -/
def testForm (language : ℤ) (wantend haveend : GkString) (writeflag strict : Bool) : Tested := do
  let wform := wantend.forminfo
  let hform := haveend.forminfo
  let haveend ← failIf (differs wform.mood hform.mood strict) haveend
  let haveend ← testVoice language wantend haveend writeflag strict
  let haveend ← failIf (differs wform.tense hform.tense strict) haveend
  let haveend ← testGender wantend haveend writeflag
  let haveend ← testCase wantend haveend writeflag strict
  let haveend ← failIf (differs wform.person hform.person strict) haveend
  failIf (differs wform.number hform.number strict) haveend

/-- What comes of the test of the string: a negative value says that the stored string is
behind the wanted one. -/
inductive StringTest
  | passes
  | fails
  | past (compval : Int)
  deriving DecidableEq

/-- The test of the string, `none` when the comparison leaves the stored string. -/
def testString (wantstr hendstr : Bytes) (strict : Bool) : Option StringTest :=
  let wendstr := (setwendstr wantstr).1
  let startMatch := (setwendstr wantstr).2
  if wendstr = [] ∨ strict = false then some .passes
  else
    (endstrcmp startMatch wendstr hendstr).bind fun compval =>
      if compval ≠ 0 then
        if compval < 0 ∧ noaccstrcmp wendstr hendstr ≠ 0 then some (.past compval)
        else if hasQuantacc hendstr ≠ hasQuantacc wendstr then
          (endstrcmp startMatch wendstr (stripquantacc (xstrncpy hendstr maxWordSize))).map
            fun compval => if compval ≠ 0 then .fails else .passes
        else some .fails
      else if hasaccent wendstr = true ∧ strcmp (stripquant (xstrncpy wendstr maxWordSize))
          (stripquant (xstrncpy hendstr maxWordSize)) ≠ 0 then some .fails
      else some .passes

/-- The last tests of `EuphEnd`, on degrees and on the quantity of the penult. -/
def euphLast (want have_ : GkString) (strict : Bool) : Bool :=
  let wdegree := want.forminfo.degree
  let hdegree := have_.forminfo.degree
  !(wdegree == comparative && hdegree != comparative && strict) &&
    !(wdegree == superlative && hdegree != superlative && strict) &&
    !((have_.has longPen && want.has longPen != have_.has longPen) ||
      (have_.has shortPen && want.has shortPen != have_.has shortPen))

/-- `EuphEnd`: the return value, and the pattern and the ending afterwards. -/
def euphEnd (want have_ : GkString) (strict : Bool) : Bool × GkString × GkString :=
  let curs := have_.gkstring
  if strict && want.has iterative && !have_.has iterative then (false, want, have_)
  else if want.has uncontrEnd && have_.has contracted then (false, want, have_)
  else if want.has nuMovable && !have_.has nuMovable && !want.has isDeriv then
    (false, want, have_)
  else if curs.headD 0 = 104 ∧ want.has endsInDigamma = false ∧
      (have_.stemtype &&& declOneTwo ≠ 0 ∨ have_.forminfo.mood = participle ∨
        want.has isDeriv = true) then
    if want.has rEIAlpha then
      if negativeDialect (andDialect want.dialect rhoEtaDial) then
        (want.stemtype &&& ppartMask != 0 && !want.has isDeriv, want, have_)
      else
        let have_ := { have_ with dialect := rhoEtaDial }
        let want := { want with morphflags := zapMorphflag want.morphflags rEIAlpha }
        (euphLast want have_ strict, want, have_)
    else (euphLast want have_ strict, want, have_)
  else if curs.take 2 = [97, 95] ∧ have_.has rEIAlpha = true ∧
      (want.has rEIAlpha = false ∨ want.has endsInDigamma = true) then (false, want, have_)
  else (euphLast want have_ strict, want, have_)

/-- `RightMorphflags` -/
def rightMorphflags (wantend haveend : GkString) : Bool :=
  let hdegree := haveend.forminfo.degree
  !((wantend.has irregComp || wantend.has irregSuperl || wantend.has noComp) &&
      (hdegree == superlative || hdegree == comparative)) &&
    !(haveend.has compOnly && !wantend.has hasPreverb && !wantend.has isDeriv) &&
    !(haveend.has notInComposition && wantend.has hasPreverb && !wantend.has isDeriv)

/-- The return value of a test, with the pattern and the ending afterwards. -/
structure Verdict where
  rval : Int
  wantend : GkString
  haveend : GkString

/-- The part of `WantGkEnd` behind the test of the string. -/
def wantRest (wantend haveend : GkString) (writeflag strict : Bool) : Verdict :=
  let euph := euphEnd wantend haveend strict
  let wantend := euph.2.1
  let haveend := euph.2.2
  let wdegree := wantend.forminfo.degree
  let hdegree := haveend.forminfo.degree
  if euph.1 = false then ⟨0, wantend, haveend⟩
  else if negativeDialect (andDialect haveend.dialect wantend.dialect) then ⟨0, wantend, haveend⟩
  else if wdegree ≠ 0 ∧ hdegree ≠ 0 ∧ wdegree ≠ hdegree ∧ strict = true then ⟨0, wantend, haveend⟩
  else
    let haveend :=
      if wdegree ≠ 0 ∧ writeflag = true then haveend.setDegree wdegree else haveend
    ⟨if rightMorphflags wantend haveend then 1 else 0, wantend, haveend⟩

/-- `WantGkEnd`, `none` when the comparison of the strings leaves the stored one. -/
def wantGkEnd (language : ℤ) (wantend haveend : GkString) (writeflag strict : Bool) :
    Option Verdict :=
  match testForm language wantend haveend writeflag strict with
  | .error haveend => some ⟨0, wantend, haveend⟩
  | .ok tested =>
    (testString wantend.gkstring haveend.gkstring strict).map fun
      | .past compval => ⟨compval, wantend, tested⟩
      | .fails => ⟨0, wantend, tested⟩
      | .passes => wantRest wantend tested writeflag strict

/-- The pattern to avoid asks for nothing. -/
def asksNothing (skipend : GkString) : Bool :=
  skipend.gkstring == [] && skipend.forminfo.mood == 0 && skipend.forminfo.tense == 0 &&
    skipend.forminfo.voice == 0 && skipend.forminfo.number == 0 &&
    skipend.forminfo.person == 0 && skipend.forminfo.gender == 0 &&
    skipend.forminfo.case_ == 0 && skipend.stemtype == 0 && decide (skipend.morphflags = fun _ => 0)

/-- `NoWantGkEnd`: the return value is 1 or 0. -/
def noWantGkEnd (language : ℤ) (skipend haveend : GkString) (strict : Bool) : Option Verdict :=
  let d := andDialect skipend.dialect haveend.dialect
  if skipend.dialect ≠ 0 ∧ haveend.dialect = 0 then some ⟨0, skipend, haveend⟩
  else if skipend.dialect ≠ 0 ∧ d ≠ 0 ∧ negativeDialect d = false then some ⟨1, skipend, haveend⟩
  else if asksNothing skipend then some ⟨0, skipend, haveend⟩
  else (wantGkEnd language skipend haveend false strict).map fun verdict =>
    { verdict with rval := if verdict.rval ≤ 0 then 0 else 1 }

/-- The patterns that a call works with. -/
structure Patterns where
  wantgkend : GkString
  avoidgkend : GkString

/-- What the loop of `RetrCompEnds` knows of an ending after the two tests. -/
structure Judgement where
  rval : Int
  avoidrval : Int
  curGkend : GkString
  patterns : Patterns

/-- The two tests of an ending. -/
def judge (language : ℤ) (patterns : Patterns) (haveend : GkString) : Option Judgement :=
  (wantGkEnd language patterns.wantgkend haveend true true).bind fun want =>
    (noWantGkEnd language patterns.avoidgkend want.haveend false).map fun avoid =>
      ⟨want.rval, avoid.rval, avoid.haveend, ⟨want.wantend, avoid.wantend⟩⟩

/-- The test for leaving the loop. -/
def Judgement.stops (j : Judgement) : Bool := decide (j.rval < 0) || j.avoidrval != 0

/-- The record that is added for an ending, if one is. -/
def Judgement.added (j : Judgement) : Option GkString :=
  if j.rval ≠ 0 then
    let want := j.patterns.wantgkend
    let ending := { j.curGkend with stemtype := want.stemtype }
    some (if isGroupName want.morphflags then
      { ending with morphflags := addMorphflag ending.morphflags groupName } else ending)
  else none

/-- The loop of `RetrCompEnds`. -/
def retrLoop (language : ℤ) : Patterns → List GkString → List GkString → Option (List GkString)
  | _, listOfEnds, [] => some listOfEnds
  | patterns, listOfEnds, curGkend :: currentList =>
    (judge language patterns curGkend).bind fun j =>
      if j.stops then some listOfEnds
      else
        match j.added with
        | some ending => retrLoop language j.patterns (addNewEnd listOfEnds ending) currentList
        | none => retrLoop language j.patterns listOfEnds currentList

/-- `RetrCompEnds` on the current list, with the memory for the endings. -/
def retrCompEnds (language : ℤ) (patterns : Patterns) (currentList : List GkString) :
    Option (List GkString) := retrLoop language patterns [] currentList

/-- What the loop adds for each ending of the list. -/
def retrievals (language : ℤ) : Patterns → List GkString → Option (List (Option GkString))
  | _, [] => some []
  | patterns, curGkend :: currentList =>
    (judge language patterns curGkend).bind fun j =>
      if j.stops then some (none :: currentList.map fun _ => none)
      else (retrievals language j.patterns currentList).map (j.added :: ·)

/-- The patterns accept an ending: it is wanted, and not one to avoid. -/
def Patterns.Accepts (language : ℤ) (patterns : Patterns) (haveend : GkString) : Prop :=
  ∃ j, judge language patterns haveend = some j ∧ 0 < j.rval ∧ j.avoidrval = 0

/-- What is added, ending by ending, is what other patterns accept. -/
def AddsAccepted (language : ℤ) (asked current : Patterns) (currentList : List GkString) : Prop :=
  ∃ added, retrievals language current currentList = some added ∧
    List.Forall₂ (fun haveend a => asked.Accepts language haveend ↔ a.isSome = true)
      currentList added

/-- The retrieved endings are those of the list that the patterns accept, each once. -/
def RetrievesExactly (language : ℤ) (patterns : Patterns) (currentList : List GkString) : Prop :=
  ∃ added ends, retrievals language patterns currentList = some added ∧
    retrCompEnds language patterns currentList = some ends ∧ ends.Perm added.reduceOption ∧
    List.Forall₂ (fun haveend a => patterns.Accepts language haveend ↔ a.isSome = true)
      currentList added

/-- The patterns with which the loop comes to an ending, from those before it; `none` when it
has left before. -/
def arrive (language : ℤ) : Patterns → List GkString → Option Patterns
  | patterns, [] => some patterns
  | patterns, curGkend :: before =>
    (judge language patterns curGkend).bind fun j =>
      if j.stops then none else arrive language j.patterns before

/-- Nothing hinders the retrieval when the loop starts with the current patterns: no ending
that the patterns asked for accept stands behind one at which the loop is left, and an ending
that the loop comes to is judged as if by the patterns asked for. -/
structure Unhindered (language : ℤ) (asked current : Patterns) (currentList : List GkString) :
    Prop where
  reached : ∀ before haveend after, currentList = before ++ haveend :: after →
    arrive language current before = none → ¬ asked.Accepts language haveend
  steady : ∀ before haveend after, currentList = before ++ haveend :: after →
    ∀ patterns, arrive language current before = some patterns →
      judge language patterns haveend ≠ none ∧
        (asked.Accepts language haveend ↔ patterns.Accepts language haveend)

/-- The records are collected in the order of `AddNewEnd`, none lost. -/
theorem retrLoop_eq (language : ℤ) (patterns : Patterns) (listOfEnds currentList : List GkString) :
    retrLoop language patterns listOfEnds currentList =
      (retrievals language patterns currentList).map fun added =>
        added.reduceOption.foldl addNewEnd listOfEnds := by
  induction currentList generalizing patterns listOfEnds with
  | nil => rfl
  | cons curGkend currentList ih =>
    rw [retrLoop, retrievals]
    cases hj : judge language patterns curGkend with
    | none => rfl
    | some j =>
      rw [Option.bind_some, Option.bind_some]
      by_cases hstops : j.stops = true
      · have hnone : (currentList.map fun _ => (none : Option GkString)).reduceOption = [] := by
          simp [List.reduceOption]
        rw [if_pos hstops, if_pos hstops, Option.map_some, List.reduceOption_cons_of_none, hnone]
        rfl
      · rw [if_neg hstops, if_neg hstops]
        cases hadded : j.added with
        | none =>
          simp only [ih]
          cases retrievals language j.patterns currentList with
          | none => rfl
          | some added => simp [List.reduceOption_cons_of_none]
        | some ending =>
          simp only [ih]
          cases retrievals language j.patterns currentList with
          | none => rfl
          | some added => simp [List.reduceOption_cons_of_some]

theorem foldl_addNewEnd_perm (endings listOfEnds : List GkString) :
    (endings.foldl addNewEnd listOfEnds).Perm (endings ++ listOfEnds) := by
  induction endings generalizing listOfEnds with
  | nil => exact List.Perm.refl _
  | cons ending endings ih =>
    rw [List.foldl_cons]
    apply (ih (addNewEnd listOfEnds ending)).trans
    apply ((addNewEnd_perm listOfEnds ending).append_left endings).trans
    exact List.perm_middle

theorem Judgement.added_isSome (j : Judgement) (hstops : j.stops = false) :
    j.added.isSome = true ↔ 0 < j.rval ∧ j.avoidrval = 0 := by
  unfold stops at hstops
  simp only [Bool.or_eq_false_iff, decide_eq_false_iff_not, bne_eq_false_iff_eq] at hstops
  unfold added
  by_cases hr : j.rval = 0
  · simp [hr]
  · rw [if_pos hr]
    simp only [Option.isSome_some, true_iff]
    omega

theorem Patterns.accepts_of_judge {language : ℤ} {patterns : Patterns} {haveend : GkString}
    {j : Judgement} (hj : judge language patterns haveend = some j) :
    patterns.Accepts language haveend ↔ 0 < j.rval ∧ j.avoidrval = 0 := by
  unfold Accepts
  rw [hj]
  simp

theorem forall₂_none_iff {p : GkString → Prop} (list : List GkString) :
    List.Forall₂ (fun haveend (a : Option GkString) => p haveend ↔ a.isSome = true) list
      (list.map fun _ => none) ↔ ∀ haveend ∈ list, ¬ p haveend := by
  induction list with
  | nil => simp
  | cons haveend list ih => simp only [List.map_cons, List.forall₂_cons, ih, List.forall_mem_cons,
      Option.isSome_none, Bool.false_eq_true, iff_false]

theorem unhindered_cons {language : ℤ} {asked current : Patterns} {curGkend : GkString}
    {currentList : List GkString} {j : Judgement}
    (hj : judge language current curGkend = some j) :
    Unhindered language asked current (curGkend :: currentList) ↔
      (asked.Accepts language curGkend ↔ current.Accepts language curGkend) ∧
        if j.stops then ∀ haveend ∈ currentList, ¬ asked.Accepts language haveend
        else Unhindered language asked j.patterns currentList := by
  have harrive : ∀ before, arrive language current (curGkend :: before) =
      if j.stops then none else arrive language j.patterns before := by
    intro before
    rw [arrive, hj, Option.bind_some]
  constructor
  · intro h
    constructor
    · exact (h.steady [] curGkend currentList rfl current rfl).2
    · split
      · rename_i hstops
        intro haveend hmem
        obtain ⟨before, after, hlist⟩ := List.append_of_mem hmem
        apply h.reached (curGkend :: before) haveend after (by rw [hlist, List.cons_append])
        rw [harrive, if_pos hstops]
      · rename_i hstops
        constructor
        · intro before haveend after hlist hnone
          apply h.reached (curGkend :: before) haveend after (by rw [hlist, List.cons_append])
          rw [harrive, if_neg hstops]
          exact hnone
        · intro before haveend after hlist patterns hsome
          apply h.steady (curGkend :: before) haveend after (by rw [hlist, List.cons_append])
          rw [harrive, if_neg hstops]
          exact hsome
  · intro ⟨hsame, hrest⟩
    constructor
    · intro before haveend after hlist hnone
      cases before with
      | nil => cases hnone
      | cons first before =>
        obtain ⟨hfirst, htail⟩ := List.cons.inj hlist
        rw [← hfirst, harrive] at hnone
        split at hrest
        · exact hrest haveend (htail ▸ List.mem_append_right before List.mem_cons_self)
        · rename_i hstops
          rw [if_neg hstops] at hnone
          exact hrest.reached before haveend after htail hnone
    · intro before haveend after hlist patterns hsome
      cases before with
      | nil =>
        obtain ⟨rfl, -⟩ := List.cons.inj hlist
        cases hsome
        exact ⟨by rw [hj]; exact Option.some_ne_none j, hsame⟩
      | cons first before =>
        obtain ⟨hfirst, htail⟩ := List.cons.inj hlist
        rw [← hfirst, harrive] at hsome
        split at hrest
        · rename_i hstops
          rw [if_pos hstops] at hsome
          cases hsome
        · rename_i hstops
          rw [if_neg hstops] at hsome
          exact hrest.steady before haveend after htail patterns hsome

theorem Judgement.not_accepted {language : ℤ} {patterns : Patterns} {haveend : GkString}
    {j : Judgement} (hj : judge language patterns haveend = some j) (hstops : j.stops = true) :
    ¬ patterns.Accepts language haveend := by
  rw [Patterns.accepts_of_judge hj]
  unfold stops at hstops
  simp only [Bool.or_eq_true, decide_eq_true_eq, bne_iff_ne] at hstops
  omega

theorem addsAccepted_iff (language : ℤ) (asked current : Patterns) (currentList : List GkString) :
    AddsAccepted language asked current currentList ↔
      Unhindered language asked current currentList := by
  induction currentList generalizing current with
  | nil =>
    constructor
    · intro _
      constructor <;> simp
    · intro _
      exact ⟨[], rfl, .nil⟩
  | cons curGkend currentList ih =>
    cases hj : judge language current curGkend with
    | none =>
      constructor
      · intro ⟨added, hadded, _⟩
        rw [retrievals, hj] at hadded
        cases hadded
      · intro h
        exact absurd hj (h.steady [] curGkend currentList rfl current rfl).1
    | some j =>
      rw [unhindered_cons hj]
      unfold AddsAccepted
      rw [retrievals, hj, Option.bind_some]
      by_cases hstops : j.stops = true
      · simp only [if_pos hstops, Option.some.injEq, exists_eq_left', List.forall₂_cons,
          forall₂_none_iff]
        simp [Judgement.not_accepted hj hstops]
      · have hsame : current.Accepts language curGkend ↔ j.added.isSome = true := by
          rw [Patterns.accepts_of_judge hj, j.added_isSome (by simpa using hstops)]
        simp only [if_neg hstops, ← ih, AddsAccepted, Option.map_eq_some_iff]
        rw [hsame]
        constructor
        · intro ⟨added, ⟨rest, hrest, hcons⟩, hall⟩
          rw [← hcons, List.forall₂_cons] at hall
          exact ⟨hall.1, rest, hrest, hall.2⟩
        · intro ⟨hfirst, rest, hrest, hall⟩
          exact ⟨j.added :: rest, ⟨rest, hrest, rfl⟩, .cons hfirst hall⟩

/-- Without the flag R_E_I_ALPHA a pattern is not changed. -/
theorem euphEnd_want {want have_ : GkString} (h : want.has rEIAlpha = false) (strict : Bool) :
    (euphEnd want have_ strict).2.1 = want := by
  unfold euphEnd
  rw [h]
  dsimp only
  split_ifs <;> first | rfl | contradiction

theorem wantRest_want {wantend haveend : GkString} (h : wantend.has rEIAlpha = false)
    (writeflag strict : Bool) : (wantRest wantend haveend writeflag strict).wantend = wantend := by
  unfold wantRest
  dsimp only
  split_ifs <;> exact euphEnd_want h strict

theorem wantGkEnd_want {language : ℤ} {wantend haveend : GkString} {writeflag strict : Bool}
    {verdict : Verdict} (h : wantend.has rEIAlpha = false)
    (hverdict : wantGkEnd language wantend haveend writeflag strict = some verdict) :
    verdict.wantend = wantend := by
  unfold wantGkEnd at hverdict
  split at hverdict
  · rw [← Option.some.inj hverdict]
  · obtain ⟨test, _, htest⟩ := Option.map_eq_some_iff.mp hverdict
    rw [← htest]
    cases test with
    | past compval => rfl
    | fails => rfl
    | passes => exact wantRest_want h writeflag strict

theorem noWantGkEnd_skip {language : ℤ} {skipend haveend : GkString} {strict : Bool}
    {verdict : Verdict} (h : skipend.has rEIAlpha = false)
    (hverdict : noWantGkEnd language skipend haveend strict = some verdict) :
    verdict.wantend = skipend := by
  unfold noWantGkEnd at hverdict
  dsimp only at hverdict
  split_ifs at hverdict
  · rw [← Option.some.inj hverdict]
  · rw [← Option.some.inj hverdict]
  · rw [← Option.some.inj hverdict]
  · obtain ⟨tested, htested, hv⟩ := Option.map_eq_some_iff.mp hverdict
    rw [← hv]
    have hkept : tested.wantend = skipend := wantGkEnd_want h htested
    exact hkept

theorem judge_patterns {language : ℤ} {patterns : Patterns} {haveend : GkString} {j : Judgement}
    (hwant : patterns.wantgkend.has rEIAlpha = false)
    (havoid : patterns.avoidgkend.has rEIAlpha = false)
    (hj : judge language patterns haveend = some j) : j.patterns = patterns := by
  obtain ⟨want, hw, hrest⟩ := Option.bind_eq_some_iff.mp hj
  obtain ⟨avoid, ha, heq⟩ := Option.map_eq_some_iff.mp hrest
  rw [← heq, wantGkEnd_want hwant hw, noWantGkEnd_skip havoid ha]

/-- The loop is left at an ending. -/
def Patterns.Stops (language : ℤ) (patterns : Patterns) (haveend : GkString) : Prop :=
  ∃ j, judge language patterns haveend = some j ∧ j.stops = true

/-- With patterns that are not changed, it depends only on where the endings stand at which
the loop is left. -/
theorem unhindered_iff_of_steady {language : ℤ} {patterns : Patterns}
    {currentList : List GkString} (hwant : patterns.wantgkend.has rEIAlpha = false)
    (havoid : patterns.avoidgkend.has rEIAlpha = false)
    (hjudged : ∀ haveend ∈ currentList, judge language patterns haveend ≠ none) :
    Unhindered language patterns patterns currentList ↔
      ∀ before haveend after, currentList = before ++ haveend :: after →
        patterns.Accepts language haveend → ∀ x ∈ before, ¬ patterns.Stops language x := by
  have harrive : ∀ before, (∀ x ∈ before, judge language patterns x ≠ none) →
      arrive language patterns before = none ∧ (∃ x ∈ before, patterns.Stops language x) ∨
        arrive language patterns before = some patterns ∧
          ∀ x ∈ before, ¬ patterns.Stops language x := by
    intro before hbefore
    induction before with
    | nil => exact .inr ⟨rfl, by simp⟩
    | cons x before ih =>
      obtain ⟨j, hj⟩ := Option.ne_none_iff_exists'.mp (hbefore x List.mem_cons_self)
      rw [arrive, hj, Option.bind_some, judge_patterns hwant havoid hj]
      by_cases hstops : j.stops = true
      · rw [if_pos hstops]
        exact .inl ⟨rfl, x, List.mem_cons_self, j, hj, hstops⟩
      · rw [if_neg hstops]
        have hx : ¬ patterns.Stops language x := by
          intro ⟨j', hj', hstops'⟩
          rw [hj, Option.some.injEq] at hj'
          exact hstops (hj' ▸ hstops')
        rcases ih fun y hy => hbefore y (List.mem_cons_of_mem _ hy) with ⟨hnone, y, hy, hstop⟩ | ⟨hsome, hall⟩
        · exact .inl ⟨hnone, y, List.mem_cons_of_mem _ hy, hstop⟩
        · exact .inr ⟨hsome, List.forall_mem_cons.mpr ⟨hx, hall⟩⟩
  have hbegins : ∀ before haveend after, currentList = before ++ haveend :: after →
      ∀ x ∈ before, judge language patterns x ≠ none := by
    intro before haveend after hlist x hx
    exact hjudged x (hlist ▸ List.mem_append_left _ hx)
  constructor
  · intro h before haveend after hlist haccept x hx hstops
    rcases harrive before (hbegins before haveend after hlist) with ⟨hnone, _⟩ | ⟨_, hall⟩
    · exact h.reached before haveend after hlist hnone haccept
    · exact hall x hx hstops
  · intro h
    constructor
    · intro before haveend after hlist hnone haccept
      rcases harrive before (hbegins before haveend after hlist) with ⟨_, x, hx, hstop⟩ | ⟨hsome, _⟩
      · exact h before haveend after hlist haccept x hx hstop
      · rw [hnone] at hsome
        cases hsome
    · intro before haveend after hlist current hcurrent
      rcases harrive before (hbegins before haveend after hlist) with ⟨hnone, _⟩ | ⟨hsome, _⟩
      · rw [hnone] at hcurrent
        cases hcurrent
      · rw [hsome, Option.some.injEq] at hcurrent
        rw [← hcurrent]
        exact ⟨hjudged haveend (hlist ▸ List.mem_append_right before List.mem_cons_self), Iff.rfl⟩

/-- The retrieval is exact if and only if nothing hinders it. -/
theorem retrCompEnds_exact_iff (language : ℤ) (patterns : Patterns)
    (currentList : List GkString) :
    RetrievesExactly language patterns currentList ↔
      Unhindered language patterns patterns currentList := by
  rw [← addsAccepted_iff]
  constructor
  · intro ⟨added, _, hadded, _, _, hall⟩
    exact ⟨added, hadded, hall⟩
  · intro ⟨added, hadded, hall⟩
    refine ⟨added, added.reduceOption.foldl addNewEnd [], hadded, ?_, ?_, hall⟩
    · rw [retrCompEnds, retrLoop_eq, hadded, Option.map_some]
    · have hperm := foldl_addNewEnd_perm added.reduceOption []
      rwa [List.append_nil] at hperm

/-- Genitives are to be avoided, and the list has one before a nominative. -/
theorem retrCompEnds_hidden :
    ¬ ∀ (language : ℤ) (patterns : Patterns) (currentList : List GkString),
      RetrievesExactly language patterns currentList := by
  intro h
  obtain ⟨added, _, hadded, _, _, hall⟩ := h 0
    ⟨.zero, { GkString.zero with forminfo := { WordForm.zero with case_ := 2 } }⟩
    [genitiveEnding, { nominativeEnding with dialect := 0 }]
  have hnothing : (retrievals 0
      ⟨.zero, { GkString.zero with forminfo := { WordForm.zero with case_ := 2 } }⟩
      [genitiveEnding, { nominativeEnding with dialect := 0 }]).map (·.map Option.isSome) =
        some [false, false] := by decide +kernel
  have hjudged : (judge 0
      ⟨.zero, { GkString.zero with forminfo := { WordForm.zero with case_ := 2 } }⟩
      { nominativeEnding with dialect := 0 }).map (fun j => (j.rval, j.avoidrval)) =
        some (1, 0) := by decide +kernel
  obtain ⟨j, hj, hvalues⟩ := Option.map_eq_some_iff.mp hjudged
  obtain ⟨hrval, havoid⟩ := Prod.mk.inj hvalues
  rw [hadded, Option.map_some, Option.some.injEq] at hnothing
  cases hall with
  | cons _ hrest =>
    cases hrest with
    | cons hsecond _ =>
      have hadd := hsecond.mp ⟨j, hj, by omega, havoid⟩
      simp [hadd] at hnothing

end Morpheus
