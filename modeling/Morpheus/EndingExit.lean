import Morpheus.EndingRetrieval
import Morpheus.Lexicographic

/-!
# Leaving the search for endings early

`RetrCompEnds` leaves its loop at an ending that `WantGkEnd` finds behind the wanted string,
since the lists are sorted by `CompByDictStr`. The loop is compared with one that skips such
an ending.
-/
namespace Morpheus

/-- The loop that skips an ending where `RetrCompEnds` stops. -/
def fullScan (language : ℤ) : Patterns → List GkString → Option (List (Option GkString))
  | _, [] => some []
  | patterns, curGkend :: currentList =>
    (judge language patterns curGkend).bind fun j =>
      (fullScan language j.patterns currentList).map
        ((if j.stops then none else j.added) :: ·)

/-- The patterns with which the full scan comes to an ending, from those before it. -/
def scanPatterns (language : ℤ) : Patterns → List GkString → Option Patterns
  | patterns, [] => some patterns
  | patterns, curGkend :: before =>
    (judge language patterns curGkend).bind fun j => scanPatterns language j.patterns before

/-- The pattern to avoid is empty. -/
def EmptyPattern (avoidend : GkString) : Prop :=
  avoidend.dialect = 0 ∧ asksNothing avoidend = true

/-- Leaving the loop early loses nothing against the full scan. -/
def LosesNothing (language : ℤ) (patterns : Patterns) (currentList : List GkString) : Prop :=
  ∃ added, retrievals language patterns currentList = some added ∧
    fullScan language patterns currentList = some added

/-- The full scan accepts an ending behind others. -/
def AcceptedBehind (language : ℤ) (patterns : Patterns) (before : List GkString)
    (haveend : GkString) : Prop :=
  ∃ current, scanPatterns language patterns before = some current ∧
    current.Accepts language haveend

/-- The dictionary letters of a string, as the sort order ranks them. -/
def dictRank (s : Bytes) : List ℕ := rank comptab (s.filter isDictChar)

/-- What `endstrcmp` compares of a stored string is how the sort order reads its beginning: no
long mark or iota subscript is passed over, and no letter stands for a mark of the wanted
string. Without prefix mode it compares the whole string. -/
def Straight (wanted stored : Bytes) : Prop :=
  (setwendstr wanted).2 = true → ∀ tmp, copyPrefix (setwendstr wanted).1 stored = some tmp →
    (dictRank tmp).IsPrefix (dictRank stored) ∧
      (dictRank tmp).length = (dictRank (setwendstr wanted).1).length

/-- The loop is left at the first ending as the order has it, and the second one is wanted as
it stands, not only after its marks are stripped. -/
def Plain (wanted first second : Bytes) : Prop :=
  Straight wanted first ∧ Straight wanted second ∧
    endstrcmp (setwendstr wanted).2 (setwendstr wanted).1 second = some 0

/-- All comparisons stay within the stored strings, and no ending that the full scan accepts
stands behind one at which the loop is left, other than plainly. -/
structure NotDeceived (language : ℤ) (patterns : Patterns) (currentList : List GkString) :
    Prop where
  inBounds : ∀ haveend ∈ currentList, judge language patterns haveend ≠ none
  plain : ∀ before haveend after, currentList = before ++ haveend :: after →
    AcceptedBehind language patterns before haveend → ∀ x ∈ before, patterns.Stops language x →
      Plain patterns.wantgkend.gkstring x.gkstring haveend.gkstring

/-- Two patterns that differ in the flags of the wanted one at most. -/
def Patterns.Alike (p q : Patterns) : Prop :=
  ∃ morphflags, q = ⟨{ p.wantgkend with morphflags }, p.avoidgkend⟩

theorem Patterns.Alike.refl (p : Patterns) : p.Alike p := ⟨p.wantgkend.morphflags, rfl⟩

theorem euphEnd_alike (want have_ : GkString) (strict : Bool) :
    ∃ morphflags, (euphEnd want have_ strict).2.1 = { want with morphflags } := by
  refine ⟨(euphEnd want have_ strict).2.1.morphflags, ?_⟩
  unfold euphEnd
  dsimp only
  split_ifs <;> rfl

theorem wantRest_alike (wantend haveend : GkString) (writeflag strict : Bool) :
    (∃ morphflags, (wantRest wantend haveend writeflag strict).wantend =
      { wantend with morphflags }) ∧
      ¬ (wantRest wantend haveend writeflag strict).rval < 0 := by
  have halike := euphEnd_alike wantend haveend strict
  unfold wantRest
  dsimp only
  split_ifs <;> exact ⟨halike, by simp⟩

theorem testString_past {wantstr hendstr : Bytes} {strict : Bool} {compval : Int}
    (h : testString wantstr hendstr strict = some (.past compval)) :
    compval < 0 ∧ endstrcmp (setwendstr wantstr).2 (setwendstr wantstr).1 hendstr =
      some compval := by
  unfold testString at h
  dsimp only at h
  split at h
  · cases h
  · obtain ⟨c, hc, hrest⟩ := Option.bind_eq_some_iff.mp h
    rw [hc]
    split_ifs at hrest with h0 hpast hquant hacc
    · cases hrest
      exact ⟨hpast.1, rfl⟩
    · obtain ⟨d, -, hd⟩ := Option.map_eq_some_iff.mp hrest
      split at hd <;> cases hd
    · cases hrest
    · cases hrest
    · cases hrest

/-- With an empty pattern to avoid, an ending is judged by `WantGkEnd` alone. -/
theorem judge_empty {patterns : Patterns} (hempty : EmptyPattern patterns.avoidgkend)
    (language : ℤ) (haveend : GkString) :
    judge language patterns haveend =
      (wantGkEnd language patterns.wantgkend haveend true true).map fun want =>
        ⟨want.rval, 0, want.haveend, ⟨want.wantend, patterns.avoidgkend⟩⟩ := by
  have havoid : ∀ have_, noWantGkEnd language patterns.avoidgkend have_ false =
      some ⟨0, patterns.avoidgkend, have_⟩ := by
    intro have_
    unfold noWantGkEnd
    dsimp only
    rw [if_neg (fun h => h.1 hempty.1), if_neg (fun h => h.1 hempty.1), if_pos hempty.2]
  unfold judge
  cases wantGkEnd language patterns.wantgkend haveend true true with
  | none => rfl
  | some want => rw [Option.bind_some, havoid, Option.map_some, Option.map_some]

/-- What the two tests make of an ending, as far as the flags of the pattern do not matter. -/
theorem judge_none_iff {patterns : Patterns} (hempty : EmptyPattern patterns.avoidgkend)
    (language : ℤ) (haveend : GkString) :
    judge language patterns haveend = none ↔
      ∃ tested, testForm language patterns.wantgkend haveend true true = .ok tested ∧
        testString patterns.wantgkend.gkstring haveend.gkstring true = none := by
  rw [judge_empty hempty, Option.map_eq_none_iff]
  unfold wantGkEnd
  cases testForm language patterns.wantgkend haveend true true with
  | error haveend => simp
  | ok tested => simp

theorem stops_iff {patterns : Patterns} (hempty : EmptyPattern patterns.avoidgkend)
    (language : ℤ) (haveend : GkString) :
    patterns.Stops language haveend ↔
      ∃ tested compval, testForm language patterns.wantgkend haveend true true = .ok tested ∧
        testString patterns.wantgkend.gkstring haveend.gkstring true = some (.past compval) := by
  unfold Patterns.Stops
  rw [judge_empty hempty]
  unfold wantGkEnd
  cases testForm language patterns.wantgkend haveend true true with
  | error haveend => simp [Judgement.stops]
  | ok tested =>
    simp only [Except.ok.injEq, exists_and_left, exists_eq_left']
    cases hstring : testString patterns.wantgkend.gkstring haveend.gkstring true with
    | none => simp
    | some test =>
      cases test with
      | past compval => simp [Judgement.stops, (testString_past hstring).1]
      | fails => simp [Judgement.stops]
      | passes =>
        simpa [Judgement.stops] using
          (wantRest_alike patterns.wantgkend tested true true).2

theorem judge_alike {patterns : Patterns} (hempty : EmptyPattern patterns.avoidgkend)
    {language : ℤ} {haveend : GkString} {j : Judgement}
    (hj : judge language patterns haveend = some j) : patterns.Alike j.patterns := by
  rw [judge_empty hempty] at hj
  obtain ⟨want, hwant, hj⟩ := Option.map_eq_some_iff.mp hj
  have halike : ∃ morphflags, want.wantend = { patterns.wantgkend with morphflags } := by
    unfold wantGkEnd at hwant
    split at hwant
    · rw [← Option.some.inj hwant]
      exact ⟨patterns.wantgkend.morphflags, rfl⟩
    · obtain ⟨test, _, htest⟩ := Option.map_eq_some_iff.mp hwant
      rw [← htest]
      cases test with
      | past compval => exact ⟨patterns.wantgkend.morphflags, rfl⟩
      | fails => exact ⟨patterns.wantgkend.morphflags, rfl⟩
      | passes => exact (wantRest_alike patterns.wantgkend _ true true).1
  obtain ⟨morphflags, hflags⟩ := halike
  exact ⟨morphflags, by rw [← hj, hflags]⟩

section
variable {p q : Patterns} (h : p.Alike q) (hempty : EmptyPattern p.avoidgkend)
include h

theorem Patterns.Alike.avoidgkend_eq : q.avoidgkend = p.avoidgkend := by
  obtain ⟨morphflags, rfl⟩ := h
  rfl

include hempty

theorem Patterns.Alike.judge_none_iff (language : ℤ) (haveend : GkString) :
    judge language q haveend = none ↔ judge language p haveend = none := by
  rw [Morpheus.judge_none_iff hempty, Morpheus.judge_none_iff (h.avoidgkend_eq ▸ hempty)]
  obtain ⟨morphflags, rfl⟩ := h
  rfl

theorem Patterns.Alike.stops_iff (language : ℤ) (haveend : GkString) :
    q.Stops language haveend ↔ p.Stops language haveend := by
  rw [Morpheus.stops_iff hempty, Morpheus.stops_iff (h.avoidgkend_eq ▸ hempty)]
  obtain ⟨morphflags, rfl⟩ := h
  rfl

end

/-- The full scan accepts none of the endings. -/
def AcceptsNone (language : ℤ) (patterns : Patterns) (currentList : List GkString) : Prop :=
  ∀ before haveend after, currentList = before ++ haveend :: after →
    ¬ AcceptedBehind language patterns before haveend

/-- No ending that the full scan accepts stands behind one at which the loop is left. -/
def HidesNone (language : ℤ) (patterns : Patterns) (currentList : List GkString) : Prop :=
  ∀ before haveend after, currentList = before ++ haveend :: after →
    AcceptedBehind language patterns before haveend → ∀ x ∈ before, ¬ patterns.Stops language x

section
variable {language : ℤ} {patterns : Patterns} {curGkend : GkString} {currentList : List GkString}
  {j : Judgement} (hj : judge language patterns curGkend = some j)
include hj

theorem acceptedBehind_cons (before : List GkString) (haveend : GkString) :
    AcceptedBehind language patterns (curGkend :: before) haveend ↔
      AcceptedBehind language j.patterns before haveend := by
  unfold AcceptedBehind
  rw [scanPatterns, hj, Option.bind_some]

theorem acceptsNone_cons :
    AcceptsNone language patterns (curGkend :: currentList) ↔
      ¬ patterns.Accepts language curGkend ∧ AcceptsNone language j.patterns currentList := by
  constructor
  · intro h
    constructor
    · intro haccept
      exact h [] curGkend currentList rfl ⟨patterns, rfl, haccept⟩
    · intro before haveend after hlist haccept
      apply h (curGkend :: before) haveend after (by rw [hlist, List.cons_append])
      exact (acceptedBehind_cons hj before haveend).mpr haccept
  · intro ⟨hfirst, hrest⟩ before haveend after hlist haccept
    cases before with
    | nil =>
      obtain ⟨current, hcurrent, hcur⟩ := haccept
      obtain ⟨hhead, -⟩ := List.cons.inj hlist
      rw [scanPatterns, Option.some.injEq] at hcurrent
      rw [← hhead, ← hcurrent] at hcur
      exact hfirst hcur
    | cons first before =>
      obtain ⟨hhead, htail⟩ := List.cons.inj hlist
      rw [← hhead, acceptedBehind_cons hj] at haccept
      exact hrest before haveend after htail haccept

theorem hidesNone_cons (hempty : EmptyPattern patterns.avoidgkend) :
    HidesNone language patterns (curGkend :: currentList) ↔
      if j.stops then AcceptsNone language j.patterns currentList
      else HidesNone language j.patterns currentList := by
  have halike := judge_alike hempty hj
  have hstopsHere : patterns.Stops language curGkend ↔ j.stops = true := by
    unfold Patterns.Stops
    rw [hj]
    simp
  constructor
  · intro h
    split
    · rename_i hstops
      intro before haveend after hlist haccept
      apply h (curGkend :: before) haveend after (by rw [hlist, List.cons_append])
        ((acceptedBehind_cons hj before haveend).mpr haccept) curGkend List.mem_cons_self
      exact hstopsHere.mpr hstops
    · intro before haveend after hlist haccept x hx hstops
      apply h (curGkend :: before) haveend after (by rw [hlist, List.cons_append])
        ((acceptedBehind_cons hj before haveend).mpr haccept) x (List.mem_cons_of_mem _ hx)
      exact (halike.stops_iff hempty language x).mp hstops
  · intro h before haveend after hlist haccept x hx hstops
    cases before with
    | nil => cases hx
    | cons first before =>
      obtain ⟨hhead, htail⟩ := List.cons.inj hlist
      rw [← hhead] at haccept hx
      rw [acceptedBehind_cons hj] at haccept
      split at h
      · exact h before haveend after htail haccept
      · rename_i hnot
        rcases List.mem_cons.mp hx with rfl | hx
        · exact hnot (hstopsHere.mp hstops)
        · exact h before haveend after htail haccept x hx
            ((halike.stops_iff hempty language x).mpr hstops)

theorem judged_cons (hempty : EmptyPattern patterns.avoidgkend) :
    (∀ haveend ∈ curGkend :: currentList, judge language patterns haveend ≠ none) ↔
      ∀ haveend ∈ currentList, judge language j.patterns haveend ≠ none := by
  have halike := judge_alike hempty hj
  rw [List.forall_mem_cons]
  simp only [ne_eq, halike.judge_none_iff hempty]
  simp [hj]

end

/-- The full scan adds nothing exactly when no ending leaves its string and none is accepted. -/
theorem fullScan_none_iff {language : ℤ} {patterns : Patterns}
    (hempty : EmptyPattern patterns.avoidgkend) (currentList : List GkString) :
    fullScan language patterns currentList = some (currentList.map fun _ => none) ↔
      (∀ haveend ∈ currentList, judge language patterns haveend ≠ none) ∧
        AcceptsNone language patterns currentList := by
  induction currentList generalizing patterns with
  | nil => simp [fullScan, AcceptsNone]
  | cons curGkend currentList ih =>
    cases hj : judge language patterns curGkend with
    | none => simp [fullScan, hj]
    | some j =>
      have havoid : EmptyPattern j.patterns.avoidgkend :=
        (judge_alike hempty hj).avoidgkend_eq ▸ hempty
      have hadded : (if j.stops then none else j.added) = none ↔
          ¬ patterns.Accepts language curGkend := by
        by_cases hstops : j.stops = true
        · simp [hstops, Judgement.not_accepted hj hstops]
        · rw [if_neg hstops, Patterns.accepts_of_judge hj,
            ← j.added_isSome (by simpa using hstops)]
          simp
      rw [judged_cons hj hempty, acceptsNone_cons hj, ← hadded, fullScan, hj, Option.bind_some,
        List.map_cons]
      have hrest := ih havoid
      constructor
      · intro h
        obtain ⟨rest, hscan, hcons⟩ := Option.map_eq_some_iff.mp h
        obtain ⟨hfirst, htail⟩ := List.cons.inj hcons
        rw [htail] at hscan
        obtain ⟨hjudged, hnone⟩ := hrest.mp hscan
        exact ⟨hjudged, hfirst, hnone⟩
      · intro ⟨hjudged, hfirst, hnone⟩
        rw [hrest.mpr ⟨hjudged, hnone⟩, hfirst, Option.map_some]

/-- For any list, leaving early loses nothing exactly when no ending leaves its string and
nothing is hidden. -/
theorem losesNothing_iff {language : ℤ} {patterns : Patterns}
    (hempty : EmptyPattern patterns.avoidgkend) (currentList : List GkString) :
    LosesNothing language patterns currentList ↔
      (∀ haveend ∈ currentList, judge language patterns haveend ≠ none) ∧
        HidesNone language patterns currentList := by
  unfold LosesNothing
  induction currentList generalizing patterns with
  | nil => simp [retrievals, fullScan, HidesNone]
  | cons curGkend currentList ih =>
    cases hj : judge language patterns curGkend with
    | none => simp [fullScan, hj]
    | some j =>
      have havoid : EmptyPattern j.patterns.avoidgkend :=
        (judge_alike hempty hj).avoidgkend_eq ▸ hempty
      rw [judged_cons hj hempty, hidesNone_cons hj hempty, retrievals, fullScan, hj,
        Option.bind_some, Option.bind_some]
      by_cases hstops : j.stops = true
      · rw [if_pos hstops, if_pos hstops, if_pos hstops, ← fullScan_none_iff havoid]
        constructor
        · rintro ⟨added, hadded, hscan⟩
          rw [← Option.some.inj hadded] at hscan
          obtain ⟨rest, hrest, hcons⟩ := Option.map_eq_some_iff.mp hscan
          rw [hrest, (List.cons.inj hcons).2]
        · intro hscan
          exact ⟨_, rfl, by rw [hscan, Option.map_some]⟩
      · rw [if_neg hstops, if_neg hstops, if_neg hstops, ← ih havoid]
        constructor
        · rintro ⟨added, hadded, hscan⟩
          obtain ⟨rest, hrest, hcons⟩ := Option.map_eq_some_iff.mp hadded
          obtain ⟨rest', hrest', hcons'⟩ := Option.map_eq_some_iff.mp hscan
          have htail := (List.cons.inj (hcons.trans hcons'.symm)).2
          exact ⟨rest, hrest, htail ▸ hrest'⟩
        · rintro ⟨rest, hrest, hrest'⟩
          exact ⟨j.added :: rest, by rw [hrest, Option.map_some], by rw [hrest', Option.map_some]⟩

theorem copyPrefix_nulFree {wanted stored tmp : Bytes} (hs : NulFree stored)
    (h : copyPrefix wanted stored = some tmp) : NulFree tmp :=
  hs.sublist (copyPrefix_fits h).1

/-- In a list that is sorted by the dictionary order an ending that is wanted as it stands is
not behind one at which the loop is left as the order has it. -/
theorem not_plain_of_sorted {wanted first second : Bytes} {compval : Int} (hw : NulFree wanted)
    (h1 : NulFree first) (h2 : NulFree second) (hsorted : dictstrcmp first second ≤ 0)
    (hcomp : endstrcmp (setwendstr wanted).2 (setwendstr wanted).1 first = some compval)
    (hpast : compval < 0) : ¬ Plain wanted first second := by
  intro ⟨hfirst, hsecond, hzero⟩
  have hwend := setwendstr_nulFree hw
  have hle : dictRank first ≤ dictRank second := by
    have hnot : ¬ dictRank second < dictRank first := by
      intro hlt
      have hpos : 0 < dictstrcmp first second :=
        (strcmpBy_pos blankBelow_comptab.separatesNul (h1.sublist List.filter_sublist)
          (h2.sublist List.filter_sublist)).mpr hlt
      omega
    exact not_lt.mp hnot
  unfold Straight at hfirst hsecond
  cases hmode : (setwendstr wanted).2 with
  | false =>
    rw [hmode, endstrcmp, if_neg Bool.false_ne_true, Option.some.injEq] at hcomp hzero
    rw [← hcomp, dictstrcmp_lt hwend h1] at hpast
    rw [dictstrcmp_eq_zero hwend h2] at hzero
    unfold dictRank at hle
    rw [← hzero] at hle
    exact absurd hpast (not_lt.mpr hle)
  | true =>
    rw [hmode, endstrcmp, if_pos rfl] at hcomp hzero
    obtain ⟨tmp1, htmp1, hc1⟩ := Option.map_eq_some_iff.mp hcomp
    obtain ⟨tmp2, htmp2, hc2⟩ := Option.map_eq_some_iff.mp hzero
    obtain ⟨hprefix1, hlength1⟩ := hfirst hmode tmp1 htmp1
    obtain ⟨hprefix2, hlength2⟩ := hsecond hmode tmp2 htmp2
    rw [← hc1, dictstrcmp_lt hwend (copyPrefix_nulFree h1 htmp1)] at hpast
    rw [dictstrcmp_eq_zero hwend (copyPrefix_nulFree h2 htmp2)] at hc2
    -- the two copies are the first letters of the two endings, as many as the wanted ones
    have htake := Lexicographic.take_le_take hle (dictRank (setwendstr wanted).1).length
    rw [← hlength1, ← List.prefix_iff_eq_take.mp hprefix1, hlength1, ← hlength2,
      ← List.prefix_iff_eq_take.mp hprefix2] at htake
    unfold dictRank at htake
    rw [← hc2] at htake
    exact absurd hpast (not_lt.mpr htake)

/-- On a sorted list and with nothing to avoid, leaving the loop early loses nothing exactly
when the order of the list is not deceived by marks. -/
theorem earlyExit_iff (language : ℤ) (want : Ending) (avoidend : GkString)
    (endings : List Ending) (hempty : EmptyPattern avoidend)
    (hsorted : endings.Pairwise fun a b => compByDictStr a b ≤ 0) :
    LosesNothing language ⟨want.gstr, avoidend⟩ (endings.map Ending.gstr) ↔
      NotDeceived language ⟨want.gstr, avoidend⟩ (endings.map Ending.gstr) := by
  rw [losesNothing_iff hempty]
  constructor
  · intro ⟨hjudged, hhides⟩
    constructor
    · exact hjudged
    · intro before haveend after hlist haccept x hx hstops
      exact absurd hstops (hhides before haveend after hlist haccept x hx)
  · intro ⟨hjudged, hplain⟩
    refine ⟨hjudged, ?_⟩
    intro before haveend after hlist haccept x hx hstops
    obtain ⟨tested, compval, _, hpast⟩ := (stops_iff hempty language x).mp hstops
    obtain ⟨hneg, hcomp⟩ := testString_past hpast
    have hpair : ∃ first second : Ending, first.gstr = x ∧ second.gstr = haveend ∧
        compByDictStr first second ≤ 0 := by
      obtain ⟨l1, l2, hl, hb, hr⟩ := List.map_eq_append_iff.mp hlist
      obtain ⟨second, l3, hl2, hsecond, _⟩ := List.map_eq_cons_iff.mp hr
      rw [← hb] at hx
      obtain ⟨first, hfirst, hx⟩ := List.mem_map.mp hx
      rw [hl, hl2] at hsorted
      have hall := (List.pairwise_append.mp hsorted).2.2 first hfirst second List.mem_cons_self
      exact ⟨first, second, hx, hsecond, hall⟩
    obtain ⟨first, second, rfl, rfl, hle⟩ := hpair
    exact not_plain_of_sorted want.nulFree first.nulFree second.nulFree hle hcomp hneg
      (hplain before second.gstr after hlist haccept first.gstr hx hstops)

theorem emptyPattern_zero : EmptyPattern .zero := ⟨rfl, by decide +kernel⟩

theorem earlyExit_i :
    LosesNothing 0 ⟨(plainEnding "i" (by decide) (by decide)).gstr, .zero⟩
        ([plainEnding "a" (by decide) (by decide), plainEnding "i_" (by decide) (by decide)].map
          Ending.gstr) ↔
      NotDeceived 0 ⟨(plainEnding "i" (by decide) (by decide)).gstr, .zero⟩
        ([plainEnding "a" (by decide) (by decide), plainEnding "i_" (by decide) (by decide)].map
          Ending.gstr) :=
  earlyExit_iff 0 _ .zero _ emptyPattern_zero (by decide +kernel)

/-- An ending with a diaeresis sorts like the one without, which is wanted. -/
theorem earlyExit_lost :
    ¬ ∀ (language : ℤ) (want : Ending) (avoidend : GkString) (endings : List Ending),
      EmptyPattern avoidend → endings.Pairwise (fun a b => compByDictStr a b ≤ 0) →
        LosesNothing language ⟨want.gstr, avoidend⟩ (endings.map Ending.gstr) := by
  intro h
  obtain ⟨added, hadded, hscan⟩ := h 0 (plainEnding "i" (by decide) (by decide)) .zero
    [plainEnding "i+_" (by decide) (by decide), plainEnding "i_" (by decide) (by decide)]
    emptyPattern_zero (by decide +kernel)
  have hearly : (retrievals 0 ⟨(plainEnding "i" (by decide) (by decide)).gstr, .zero⟩
      ([plainEnding "i+_" (by decide) (by decide), plainEnding "i_" (by decide) (by decide)].map
        Ending.gstr)).map (·.map Option.isSome) = some [false, false] := by decide +kernel
  have hfull : (fullScan 0 ⟨(plainEnding "i" (by decide) (by decide)).gstr, .zero⟩
      ([plainEnding "i+_" (by decide) (by decide), plainEnding "i_" (by decide) (by decide)].map
        Ending.gstr)).map (·.map Option.isSome) = some [false, true] := by decide +kernel
  rw [hadded] at hearly
  rw [hscan, hearly] at hfull
  exact absurd hfull (by decide)

end Morpheus
