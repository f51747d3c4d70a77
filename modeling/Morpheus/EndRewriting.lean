import Morpheus.DerivationKeys
import Morpheus.Dissimilation
import Morpheus.EndTables
import Morpheus.Euphony
import Morpheus.PreverbAttachment
import Morpheus.Rewriting

/-!
# Rewriting an ending

`mk_end` makes the endings of a table out of one line: composed endings are taken apart with the
lines of the table they name, `fix_eta`, the euphony of consonants, the contraction of vowels and the
movable nu give further forms, and what no table rewrites is stored. Reading keys (`ScanAsciiKeys`)
and the two tables of euphony are given.
-/
namespace Morpheus

open Rewriting

/-- `NEEDS_RBREATH` -/
def needsRbreath : ℕ := 52

/-- `PERS3` -/
def pers3 : BitVec 3 := 4

/-- `DECL1 | DECL2` -/
def decl1Decl2 : UInt32 := 0o300

/-- `RHO_ALPHA_DIAL` -/
def rhoAlphaDial : UInt16 := 0o222

/-- `Is_lvwl` -/
def isLvwl (c : Byte) : Bool := c == 104 || c == 119 || c == 72 || c == 87

/-- `CheckForBreathing` -/
def checkForBreathing (language : ℤ) (gstr : GkString) : GkString :=
  if language = latin ∨ language = italian then gstr
  else
    let rbreath := hasMorphflag gstr.morphflags needsRbreath
    let gstr :=
      if rbreath then { gstr with morphflags := zapMorphflag gstr.morphflags needsRbreath } else gstr
    if !isVowel (gstr.gkstring.headD 0) || getbreath gstr.gkstring ≠ 32 then gstr
    else { gstr with gkstring := withBreath gstr.gkstring (if rbreath then 40 else 41) }

/-- `join_end`, and whether an error is recorded. -/
def joinEnd (language : ℤ) (have_ : GkString) : GkString × Bool :=
  let have_ :=
    if !have_.has needsAccent && !have_.has suffAcc && !have_.has hasAugment &&
        decide (nsylls have_.gkstring < 3) then
      { have_ with morphflags := addMorphflag have_.morphflags accentOptional }
    else have_
  let accented :=
    if !have_.has isDeriv && have_.gkstring.headD 0 != 42 then accComposForm language have_
    else (have_, false)
  let have_ :=
    if accented.1.gkstring.headD 0 = 42 then
      { accented.1 with morphflags := zapMorphflag accented.1.morphflags accentOptional }
    else accented.1
  (if have_.has indeclform then checkForBreathing language have_ else have_, accented.2)

/-- What `fix_eta` looks for behind an eta, and what it puts there in front of the rest. -/
def etaPatterns : List (Bytes × (Bytes → Bytes)) :=
  [(ascii "rh", fun _ => ascii "ra_"), (ascii "ih", fun _ => ascii "ia_"),
    (ascii "i!h", fun tail => if tail.headD 0 = 61 then ascii "i!a" else ascii "i!a_"),
    (ascii "i_h", fun _ => ascii "i_a_"), (ascii "i/h", fun _ => ascii "i/a_"),
    (ascii "i_/h", fun _ => ascii "i_/a_"), (ascii "e/-h", fun _ => ascii "e/-a_")]

/-- The text in front of the first pattern that a text has, its replacement, and what follows. -/
def etaPlace (text : Bytes) : Option (Bytes × Bytes × Bytes) :=
  etaPatterns.findSome? fun pattern =>
    (isSubstring pattern.1 text).map fun place =>
      let tail := place.2.drop pattern.1.length
      (place.1, pattern.2 tail, tail)

/-- What `fix_eta` gives: the Attic form, the record it is made of, and whether an error is
recorded. -/
structure EtaFixed where
  form : Option GkString
  have_ : GkString
  failed : Bool

/-- `fix_eta` behind rho, epsilon and iota: the Attic form takes its dialect from the record. -/
def fixEtaInside (gstr : GkString) : EtaFixed :=
  match etaPlace gstr.gkstring with
  | none => ⟨none, gstr, false⟩
  | some (before, replacement, tail) =>
    match (appendText before maxWordSize replacement).bind (appendText · maxWordSize tail) with
    | none => ⟨none, gstr, true⟩
    | some text => ⟨some { gstr with gkstring := text, dialect := attic.toUInt16 },
        { gstr with dialect := gstr.dialect &&& ~~~attic.toUInt16 }, false⟩

/-- `fix_eta` -/
def fixEta (gstr : GkString) : EtaFixed :=
  let nominal := gstr.stemtype &&& decl1Decl2 ≠ 0 ∨ gstr.forminfo.degree ≠ 0 ∨
    gstr.forminfo.mood = participle
  if gstr.gkstring.headD 0 = 104 ∧ ¬ gstr.has indeclform ∧ (nominal ∨ gstr.has isDeriv) ∧
      ¬ negativeDialect (andDialect gstr.dialect rhoAlphaDial) then
    match appendText (ascii "a_") maxWordSize gstr.gkstring.tail with
    | none => ⟨none, gstr, false⟩
    | some text => ⟨some { gstr with
        gkstring := text
        morphflags := addMorphflag gstr.morphflags rEIAlpha
        dialect := attic.toUInt16 }, gstr, false⟩
  else if gstr.dialect ≠ rhoEtaDial ∧ nominal then fixEtaInside gstr
  else ⟨none, gstr, false⟩

/-- `takes_nu_movable`; `ends_in` passes over diaereses. -/
def takesNuMovable (gstr : GkString) : Bool :=
  let s := stripdiaer (stripacc gstr.gkstring)
  endsIn s "si" || endsIn s "ci" || endsIn s "yi" ||
    (endsIn s "e" && gstr.forminfo.person == pers3)

/-- `add_numovable`, and whether an error is recorded. -/
def addNumovable (gstr : GkString) : GkString × Bool :=
  match appendText gstr.gkstring maxWordSize (ascii "n") with
  | none => (gstr, true)
  | some text =>
    ({ gstr with gkstring := text, morphflags := addMorphflag gstr.morphflags nuMovable }, false)

/-- `zap_extra_lmarks` -/
def zapExtraLmarks : Bytes → Bytes
  | [] => []
  | [c] => [c]
  | c :: d :: s =>
    if isLvwl c ∧ d = 95 then c :: zapExtraLmarks s else c :: zapExtraLmarks (d :: s)

/-- `CompStemEnd`: the stem and the ending afterwards. In front of an empty stem stands the zero at
the end of `st_domains`. -/
def compStemEnd (language : ℤ) (stem endstr : Bytes) : Bytes × Bytes :=
  let lastc := stem.getLastD 0
  let inflected := language ≠ latin ∧ language ≠ italian
  let (stem, endstr) :=
    if isBreath lastc ∧ endstr.headD 0 = 95 ∧ inflected then
      let swapped := stem.dropLast.getLastD 0
      let vowel : Byte := if swapped = 101 then 105 else if swapped = 111 then 117 else 95
      (stem.dropLast ++ [vowel], lastc :: endstr.tail)
    else if endstr.headD 0 = 95 ∧ inflected ∧ lastc = 101 then (stem, 105 :: endstr.tail)
    else if endstr.headD 0 = 95 ∧ inflected ∧ lastc = 111 then (stem, 117 :: endstr.tail)
    else (stem, endstr)
  let stem := zapExtraLmarks stem
  (stem, if isLvwl (stem.getLastD 0) ∧ endstr.headD 0 = 95 then endstr.tail else endstr)

/-- `merge_keys`, which is `EndingOk` without the test of the derivation: the two records when the
keys of an ending are good. -/
def mergeKeys (keyScan : KeyScan) (language : ℤ) (have_ avoid : GkString) (newkeys : Bytes) :
    Option (GkString × GkString) :=
  let scanned := keyScan.scanAvoid newkeys .zero avoid
  let tests := endingTests language have_ scanned.2 scanned.1
  if tests.1 then some (takeOver tests.2.1 tests.2.2, scanned.2) else none

/-- What `mk_end` uses: the language, the files for `MorphFopen`, and the tables of contractions and
of euphony where they are loaded. -/
structure EndEnv where
  language : ℤ
  keyScan : KeyScan
  morphFopen : Bytes → Option Bytes
  vowContr : Option (List EuphRow)
  consEuph : Option (List EuphRow)

/-- The two records of a call of `mk_end`. -/
structure EndItem where
  have_ : GkString
  avoid : GkString

/-- A form with nothing to avoid. -/
def EndItem.plain (form : GkString) : EndItem := ⟨form, .zero⟩

/-- What the calls leave behind: the records given to `AddNewGstr`, and whether an error is
recorded. -/
structure EndState where
  added : List GkString
  failed : Bool
  deriving DecidableEq

def EndState.fail (state : EndState) (failed : Bool) : EndState :=
  { state with failed := state.failed || failed }

/-- Why a call does not come to an end: it is deeper than is looked at, or it leaves its memory. -/
inductive EndFault
  | deep
  | outside
  deriving DecidableEq

/-- Whether `do_euph` records an error. -/
def euphFailed (env : EndEnv) (item : EndItem) : Bool :=
  env.consEuph.any fun subTable => (subForEuph env.language item.avoid.dialect item.have_
    (List.replicate maxEuphs .zero) maxEuphs subTable false).state

/-- Whether `poss_contracts` records an error. -/
def contractFailed (env : EndEnv) (item : EndItem) : Bool :=
  env.vowContr.any fun subTable => (subForEuph env.language item.avoid.dialect item.have_
    (List.replicate (maxContracts + 1) .zero) maxContracts subTable false).state

/-- `do_euph` as `mk_end` calls it. -/
def euphForms (env : EndEnv) (item : EndItem) : Option (List GkString) :=
  doEuph env.language item.avoid.dialect item.have_ env.consEuph false

/-- `poss_contracts` as `mk_end` calls it, for a form that is not contracted yet. -/
def contractForms (env : EndEnv) (item : EndItem) : Option (List GkString) :=
  if item.have_.has contracted then none
  else possContracts env.language item.avoid.dialect item.have_ env.vowContr false

/-- A form takes a movable nu. -/
def nuForm (env : EndEnv) (have_ : GkString) : Bool :=
  takesNuMovable have_ && decide (env.language ≠ italian ∧ env.language ≠ latin)

/-- The record that is stored: `do_dissim` and its flag. -/
def dissimilated (have_ : GkString) : GkString :=
  let dissim := doDissim have_.gkstring have_.stemtype
  { have_ with
    gkstring := dissim.1
    morphflags := if dissim.2 then addMorphflag have_.morphflags dissimilation
      else have_.morphflags }

section
variable (env : EndEnv) (run : EndItem → EndState → Except EndFault EndState)

/-- The calls for the items of a list. -/
def runItems : List EndItem → EndState → Except EndFault EndState
  | [], state => .ok state
  | item :: items, state => (run item state).bind (runItems items)

/-- The calls for the forms of a list. -/
def runForms (forms : List GkString) (state : EndState) : Except EndFault EndState :=
  match walkForms forms with
  | none => .error .outside
  | some forms => runItems run (forms.map .plain) state

/-- A line of a table of endings, without what `update_end` makes of it: the records and the text of
the composed ending. -/
def composeLine (item : EndItem) (curstr line : Bytes) : Option (EndItem × Option Bytes) :=
  let keys := nextkey line
  (mergeKeys env.keyScan env.language item.have_ item.avoid keys.2).map fun merged =>
    let composed := compStemEnd env.language curstr keys.1
    (⟨merged.1, merged.2⟩, appendText composed.1 maxWordSize composed.2)

/-- `update_end` -/
def updateEnd (item : EndItem) (curstr line : Bytes) (state : EndState) :
    Except EndFault EndState :=
  match composeLine env item curstr line with
  | none => .ok state
  | some (_, none) => .ok (state.fail true)
  | some (merged, some text) =>
    run { merged with have_ := { merged.have_ with gkstring := text } } state

/-- The loop of `mk_compend` over the lines of a table. -/
def compendLines (item : EndItem) (curstr : Bytes) :
    List Bytes → EndState → Except EndFault EndState
  | [], state => .ok state
  | line :: lines, state =>
    if isBlank line || line.head? == some 35 then compendLines item curstr lines state
    else if (nextkey line).1.length ≥ maxWordSize then .error .outside
    else (updateEnd env run item curstr line state).bind (compendLines item curstr lines)

/-- The lines of the table that a composed ending names. -/
def basicLines (endtype : Bytes) : Option (List Bytes) :=
  (env.morphFopen (ascii "endtables/basics/" ++ endtype ++ ascii ".end")).map fun input =>
    (fgetsLines bufSiz input).map cstr

/-- `mk_compend` -/
def mkCompend (item : EndItem) (curstr endtype : Bytes) (state : EndState) :
    Except EndFault EndState :=
  match basicLines env endtype with
  | none => .ok (state.fail true)
  | some lines => compendLines env run item curstr lines state

/-- The end of `mk_end`: the form with a movable nu, and the form itself. -/
def storeForm (have_ : GkString) (state : EndState) : Except EndFault EndState :=
  (if nuForm env have_ then
      let nu := addNumovable have_
      run (.plain nu.1) (state.fail nu.2)
    else .ok state).map fun state => { state with added := state.added ++ [dissimilated have_] }

/-- `mk_end` behind `fix_eta`: euphony, contraction, or a form that is stored. -/
def rewriteForm (item : EndItem) (state : EndState) : Except EndFault EndState :=
  let euphed := state.fail (euphFailed env item)
  match euphForms env item with
  | some forms => runForms run forms euphed
  | none =>
    if euphed.failed then .ok euphed
    else
      let contr := euphed.fail (!item.have_.has contracted && contractFailed env item)
      if contr.failed then .ok contr
      else
        match contractForms env item with
        | some forms => runForms run forms contr
        | none => storeForm env run item.have_ contr

/-- `mk_end` on a form that is not composed. -/
def mkForm (item : EndItem) (state : EndState) : Except EndFault EndState :=
  let joined := joinEnd env.language item.have_
  let state := state.fail joined.2
  if state.failed then .ok state
  else
    let eta := fixEta joined.1
    (runItems run (eta.form.toList.map .plain) (state.fail eta.failed)).bind fun state =>
      if state.failed then .ok state
      else rewriteForm env run { item with have_ := eta.have_ } state

end

/-- The text in front of the first `@` and the name behind it. -/
def splitAtSign (text : Bytes) : Option (Bytes × Bytes) :=
  if 64 ∈ text then some (text.takeWhile (· ≠ 64), (text.dropWhile (· ≠ 64)).tail) else none

/-- `mk_end`, down to a depth of calls -/
def mkEnd (env : EndEnv) : ℕ → EndItem → EndState → Except EndFault EndState
  | 0, _, _ => .error .deep
  | depth + 1, item, state =>
    match splitAtSign item.have_.gkstring with
    | some (curstr, endtype) => mkCompend env (mkEnd env depth) item curstr endtype state
    | none => mkForm env (mkEnd env depth) item state

section
variable (env : EndEnv)

/-- The items that a composed ending is taken apart to, `none` when a line cannot be composed. -/
def composedItems (item : EndItem) (curstr : Bytes) : List Bytes → Option (List EndItem)
  | [] => some []
  | line :: lines =>
    if isBlank line || line.head? == some 35 then composedItems item curstr lines
    else if (nextkey line).1.length ≥ maxWordSize then none
    else
      match composeLine env item curstr line with
      | none => composedItems item curstr lines
      | some (_, none) => none
      | some (merged, some text) =>
        (composedItems item curstr lines).map
          ({ merged with have_ := { merged.have_ with gkstring := text } } :: ·)

/-- The visit of a form behind `fix_eta`. -/
def rewriteVisit (item : EndItem) (etas : List EndItem) : Option (Rewriting.Visit EndItem GkString) :=
  if euphFailed env item then none
  else
    match euphForms env item with
    | some forms => (walkForms forms).map fun forms => ⟨etas ++ forms.map .plain, none⟩
    | none =>
      if !item.have_.has contracted && contractFailed env item then none
      else
        match contractForms env item with
        | some forms => (walkForms forms).map fun forms => ⟨etas ++ forms.map .plain, none⟩
        | none =>
          if nuForm env item.have_ then
            let nu := addNumovable item.have_
            if nu.2 then none else some ⟨etas ++ [.plain nu.1], some (dissimilated item.have_)⟩
          else some ⟨etas, some (dissimilated item.have_)⟩

/-- The form that `mk_end` looks up in the tables, as `join_end` and `fix_eta` leave it. -/
def lookedUp (item : EndItem) : EndItem :=
  { item with have_ := (fixEta (joinEnd env.language item.have_).1).have_ }

/-- What one call of `mk_end` goes on with and what it stores; `none` when it records an error or
leaves its memory. -/
def visitEnd (item : EndItem) : Option (Rewriting.Visit EndItem GkString) :=
  match splitAtSign item.have_.gkstring with
  | some (curstr, endtype) => (basicLines env endtype).bind fun lines =>
    (composedItems env item curstr lines).map fun next => ⟨next, none⟩
  | none =>
    if (joinEnd env.language item.have_).2 then none
    else
      let eta := fixEta (joinEnd env.language item.have_).1
      if eta.failed then none
      else rewriteVisit env (lookedUp env item) (eta.form.toList.map .plain)

/-- A form that no table rewrites, and the record that is stored for it. -/
structure NormalForm (item : EndItem) (stored : GkString) : Prop where
  whole : 64 ∉ item.have_.gkstring
  no_euphony : euphForms env (lookedUp env item) = none
  no_contraction : contractForms env (lookedUp env item) = none
  stored_eq : dissimilated (lookedUp env item).have_ = stored

end

/-- The records that were given to `AddNewGstr` when no error was recorded. -/
def cleanly : Except EndFault EndState → Option (List GkString)
  | .ok ⟨added, false⟩ => some added
  | _ => none

theorem cleanly_eq_some {result : Except EndFault EndState} {added : List GkString} :
    cleanly result = some added ↔ result = .ok ⟨added, false⟩ := by
  rcases result with fault | ⟨found, failed⟩
  · simp [cleanly]
  · cases failed <;> simp [cleanly]

@[simp] theorem cleanly_error (fault : EndFault) : cleanly (.error fault) = none := rfl

@[simp] theorem cleanly_failed (added : List GkString) : cleanly (.ok ⟨added, true⟩) = none := rfl

@[simp] theorem cleanly_ok (added : List GkString) : cleanly (.ok ⟨added, false⟩) = some added := rfl

/-- A call that keeps a recorded error. -/
def Sticky (run : EndState → Except EndFault EndState) : Prop :=
  ∀ added, cleanly (run ⟨added, true⟩) = none

/-- What comes after a call is done cleanly when the call was. -/
theorem cleanly_bind {result : Except EndFault EndState} {next : EndState → Except EndFault EndState}
    (h : Sticky next) :
    cleanly (result.bind next) = (cleanly result).bind fun added => cleanly (next ⟨added, false⟩) := by
  rcases result with fault | ⟨added, _ | _⟩
  · rfl
  · rfl
  · exact h added

/-- A record that is added to what a call has given. -/
theorem cleanly_store (result : Except EndFault EndState) (stored : GkString) :
    cleanly (result.map fun state => { state with added := state.added ++ [stored] }) =
      (cleanly result).map (· ++ [stored]) := by
  rcases result with fault | ⟨added, _ | _⟩ <;> rfl

theorem Sticky.bind {run next : EndState → Except EndFault EndState} (hrun : Sticky run)
    (hnext : Sticky next) : Sticky fun state => (run state).bind next := by
  intro added
  dsimp only
  rw [cleanly_bind hnext, hrun added]
  rfl

theorem fail_false (state : EndState) : state.fail false = state := by
  simp [EndState.fail]

theorem fail_true (added : List GkString) (failed : Bool) :
    (⟨added, failed⟩ : EndState).fail true = ⟨added, true⟩ := by
  simp [EndState.fail]

theorem fail_failed (added : List GkString) (failed : Bool) :
    (⟨added, true⟩ : EndState).fail failed = ⟨added, true⟩ := by
  simp [EndState.fail]

section
variable {env : EndEnv} {run : EndItem → EndState → Except EndFault EndState}
  (hrun : ∀ item, Sticky (run item))
include hrun

theorem runItems_sticky (items : List EndItem) : Sticky (runItems run items) := by
  induction items with
  | nil => exact fun _ => rfl
  | cons item items ih => exact (hrun item).bind ih

theorem runForms_sticky (forms : List GkString) : Sticky (runForms run forms) := by
  intro added
  unfold runForms
  cases walkForms forms with
  | none => rfl
  | some forms => exact runItems_sticky hrun _ added

theorem updateEnd_sticky (item : EndItem) (curstr line : Bytes) :
    Sticky (updateEnd env run item curstr line) := by
  intro added
  unfold updateEnd
  rcases composeLine env item curstr line with _ | ⟨merged, _ | text⟩
  · rfl
  · exact congrArg (fun state => cleanly (.ok state)) (fail_failed added true)
  · exact hrun _ added

theorem compendLines_sticky (item : EndItem) (curstr : Bytes) (lines : List Bytes) :
    Sticky (compendLines env run item curstr lines) := by
  induction lines with
  | nil => exact fun _ => rfl
  | cons line lines ih =>
    intro added
    rw [compendLines]
    split_ifs
    · exact ih added
    · rfl
    · exact (updateEnd_sticky hrun item curstr line).bind ih added

theorem mkCompend_sticky (item : EndItem) (curstr endtype : Bytes) :
    Sticky (mkCompend env run item curstr endtype) := by
  intro added
  unfold mkCompend
  cases basicLines env endtype with
  | none => rfl
  | some lines => exact compendLines_sticky hrun item curstr lines added

omit hrun in
theorem mkForm_sticky (item : EndItem) : Sticky (mkForm env run item) := by
  intro added
  unfold mkForm
  dsimp only
  rw [fail_failed]
  rfl

end

theorem mkEnd_sticky (env : EndEnv) (depth : ℕ) (item : EndItem) : Sticky (mkEnd env depth item) := by
  induction depth generalizing item with
  | zero => exact fun _ => rfl
  | succ depth ih =>
    intro added
    rw [mkEnd]
    cases splitAtSign item.have_.gkstring with
    | none => exact mkForm_sticky item added
    | some split => exact mkCompend_sticky ih item split.1 split.2 added

section
variable {env : EndEnv} {run : EndItem → EndState → Except EndFault EndState}
  {below : EndItem → Option (List GkString)} (hsticky : ∀ item, Sticky (run item))
  (hrun : ∀ item added, cleanly (run item ⟨added, false⟩) = (below item).map (added ++ ·))
include hsticky hrun

theorem runItems_clean (items : List EndItem) (added : List GkString) :
    cleanly (runItems run items ⟨added, false⟩) = (joinAll below items).map (added ++ ·) := by
  induction items generalizing added with
  | nil => simp [runItems]
  | cons item items ih =>
    rw [runItems, cleanly_bind (runItems_sticky hsticky items), hrun, joinAll]
    cases below item with
    | none => rfl
    | some front =>
      rw [Option.map_some, Option.bind_some, ih, Option.bind_some, Option.map_map]
      simp [Function.comp_def]

theorem runForms_clean (forms added : List GkString) :
    cleanly (runForms run forms ⟨added, false⟩) = ((walkForms forms).bind fun forms =>
      joinAll below (forms.map .plain)).map (added ++ ·) := by
  unfold runForms
  cases walkForms forms with
  | none => rfl
  | some forms => exact runItems_clean hsticky hrun _ added

theorem compendLines_clean (item : EndItem) (curstr : Bytes) (lines : List Bytes)
    (added : List GkString) :
    cleanly (compendLines env run item curstr lines ⟨added, false⟩) =
      ((composedItems env item curstr lines).bind (joinAll below)).map (added ++ ·) := by
  induction lines generalizing added with
  | nil => simp [compendLines, composedItems]
  | cons line lines ih =>
    have hrest := @compendLines_sticky env run hsticky item curstr lines
    rw [compendLines, composedItems]
    split_ifs
    · exact ih added
    · rfl
    · rw [cleanly_bind hrest, updateEnd]
      rcases composeLine env item curstr line with _ | ⟨merged, _ | text⟩
      · exact ih added
      · dsimp only
        rw [fail_true, cleanly_failed]
        rfl
      · dsimp only
        rw [hrun]
        cases hitem : below { merged with have_ := { merged.have_ with gkstring := text } } with
        | none =>
          cases composedItems env item curstr lines with
          | none => rfl
          | some next => simp [joinAll, hitem]
        | some front =>
          rw [Option.map_some, Option.bind_some, ih]
          cases composedItems env item curstr lines with
          | none => rfl
          | some next =>
            simp only [Option.bind_some, Option.map_some, joinAll, hitem, Option.map_map]
            simp [Function.comp_def]

/-- What a visit comes to. -/
def settled (below : EndItem → Option (List GkString))
    (v : Rewriting.Visit EndItem GkString) : Option (List GkString) :=
  (joinAll below v.next).map (· ++ v.own.toList)

theorem rewriteForm_clean (item : EndItem) (added : List GkString) :
    cleanly (rewriteForm env run item ⟨added, false⟩) =
      ((rewriteVisit env item []).bind (settled below)).map (added ++ ·) := by
  have hforms : ∀ forms : List GkString, cleanly (runForms run forms ⟨added, false⟩) =
      (((walkForms forms).map fun forms => (⟨[] ++ forms.map .plain, none⟩ :
        Rewriting.Visit EndItem GkString)).bind (settled below)).map (added ++ ·) := by
    intro forms
    rw [runForms_clean hsticky hrun]
    cases walkForms forms with
    | none => rfl
    | some forms =>
      simp only [Option.bind_some, Option.map_some, settled, List.nil_append, Option.toList_none,
        List.append_nil, Option.map_id']
  unfold rewriteForm rewriteVisit
  dsimp only
  cases hfailed : euphFailed env item with
  | true =>
    rw [fail_true, if_pos rfl]
    cases euphForms env item with
    | none => rfl
    | some forms => exact runForms_sticky hsticky forms added
  | false =>
    rw [fail_false, if_neg Bool.false_ne_true]
    cases euphForms env item with
    | some forms => exact hforms forms
    | none =>
      dsimp only
      rw [if_neg Bool.false_ne_true]
      cases !item.have_.has contracted && contractFailed env item with
      | true => rw [fail_true, if_pos rfl, if_pos rfl, cleanly_failed]; rfl
      | false =>
        rw [fail_false, if_neg Bool.false_ne_true, if_neg Bool.false_ne_true]
        cases contractForms env item with
        | some forms => exact hforms forms
        | none =>
          dsimp only [storeForm]
          split_ifs with hnu hfail
          · rw [cleanly_store, hfail, fail_true, hsticky _ added]
            rfl
          · rw [cleanly_store, eq_false_of_ne_true hfail, fail_false, hrun]
            cases hform : below (.plain (addNumovable item.have_).1) with
            | none => simp [settled, joinAll, hform]
            | some front => simp [settled, joinAll, hform]
          · rw [cleanly_store, cleanly_ok]
            simp [settled]

omit hsticky hrun in
theorem rewriteVisit_etas (item : EndItem) (etas : List EndItem) :
    rewriteVisit env item etas =
      (rewriteVisit env item []).map fun v => { v with next := etas ++ v.next } := by
  unfold rewriteVisit
  cases euphFailed env item with
  | true => rfl
  | false =>
    cases euphForms env item with
    | some forms => simp [Function.comp_def]
    | none =>
      cases !item.have_.has contracted && contractFailed env item with
      | true => rfl
      | false =>
        cases contractForms env item with
        | some forms => simp [Function.comp_def]
        | none =>
          cases nuForm env item.have_ with
          | false => simp
          | true => cases hnu : (addNumovable item.have_).2 <;> simp [hnu]

omit hsticky hrun in
theorem settled_etas (etas : List EndItem) (v : Rewriting.Visit EndItem GkString) :
    settled below { v with next := etas ++ v.next } =
      (joinAll below etas).bind fun front => (settled below v).map (front ++ ·) := by
  unfold settled
  rw [joinAll_append]
  cases joinAll below etas with
  | none => rfl
  | some front =>
    cases joinAll below v.next with
    | none => rfl
    | some back => simp

theorem mkForm_clean (item : EndItem) (added : List GkString)
    (hwhole : splitAtSign item.have_.gkstring = none) :
    cleanly (mkForm env run item ⟨added, false⟩) =
      ((visitEnd env item).bind (settled below)).map (added ++ ·) := by
  unfold mkForm visitEnd
  rw [hwhole]
  dsimp only
  cases (joinEnd env.language item.have_).2 with
  | true =>
    rw [fail_true, if_pos rfl, if_pos rfl]
    rfl
  | false =>
    rw [fail_false, if_neg Bool.false_ne_true, if_neg Bool.false_ne_true]
    have hnext : Sticky fun state : EndState => if state.failed then .ok state
        else rewriteForm env run (lookedUp env item) state := fun _ => rfl
    unfold lookedUp at hnext ⊢
    rw [cleanly_bind hnext]
    cases (fixEta (joinEnd env.language item.have_).1).failed with
    | true =>
      rw [fail_true, if_pos rfl, runItems_sticky hsticky]
      rfl
    | false =>
      rw [fail_false, if_neg Bool.false_ne_true, runItems_clean hsticky hrun, rewriteVisit_etas]
      generalize (fixEta (joinEnd env.language item.have_).1).form.toList.map EndItem.plain = etas
      cases hetas : joinAll below etas with
      | none =>
        cases rewriteVisit env _ [] with
        | none => rfl
        | some v => simp [settled_etas, hetas]
      | some front =>
        rw [Option.map_some, Option.bind_some, if_neg Bool.false_ne_true,
          rewriteForm_clean hsticky hrun]
        cases rewriteVisit env _ [] with
        | none => rfl
        | some v =>
          simp only [Option.bind_some, Option.map_some, settled_etas, hetas, Option.map_map]
          simp [Function.comp_def]

end

/-- Without a recorded error, `mk_end` gives to `AddNewGstr` what is collected of its visits. -/
theorem mkEnd_clean (env : EndEnv) (depth : ℕ) (item : EndItem) (added : List GkString) :
    cleanly (mkEnd env depth item ⟨added, false⟩) =
      (collect (visitEnd env) depth item).map (added ++ ·) := by
  induction depth generalizing item added with
  | zero => rfl
  | succ depth ih =>
    have hsticky := mkEnd_sticky env depth
    rw [mkEnd, collect]
    cases hsplit : splitAtSign item.have_.gkstring with
    | none => exact mkForm_clean hsticky ih item added hsplit
    | some split =>
      obtain ⟨curstr, endtype⟩ := split
      have hvisit : visitEnd env item = (basicLines env endtype).bind fun lines =>
          (composedItems env item curstr lines).map fun next => ⟨next, none⟩ := by
        unfold visitEnd
        rw [hsplit]
      rw [hvisit]
      dsimp only [mkCompend]
      cases basicLines env endtype with
      | none => rfl
      | some lines =>
        dsimp only [Option.bind_some]
        rw [compendLines_clean hsticky ih]
        cases composedItems env item curstr lines with
        | none => rfl
        | some next =>
          simp

theorem rewriteVisit_own {env : EndEnv} {item : EndItem} {etas : List EndItem}
    {v : Rewriting.Visit EndItem GkString} (hv : rewriteVisit env item etas = some v)
    {stored : GkString} : v.own = some stored ↔
      euphForms env item = none ∧ contractForms env item = none ∧
        dissimilated item.have_ = stored := by
  unfold rewriteVisit at hv
  split at hv
  · cases hv
  · cases heuph : euphForms env item with
    | some forms =>
      rw [heuph] at hv
      obtain ⟨walked, -, rfl⟩ := Option.map_eq_some_iff.mp hv
      simp
    | none =>
      rw [heuph] at hv
      dsimp only at hv
      split at hv
      · cases hv
      · cases hcontr : contractForms env item with
        | some forms =>
          rw [hcontr] at hv
          obtain ⟨walked, -, rfl⟩ := Option.map_eq_some_iff.mp hv
          simp
        | none =>
          rw [hcontr] at hv
          dsimp only at hv
          have hown : v.own = some (dissimilated item.have_) := by
            split at hv
            · split at hv
              · cases hv
              · rw [← Option.some.inj hv]
            · rw [← Option.some.inj hv]
          simp [hown]

/-- Where nothing is left to rewrite, a form that can be visited gives its own record. -/
theorem gives_iff_normal {env : EndEnv} {item : EndItem} {stored : GkString}
    (hvisit : (visitEnd env item).isSome) :
    Gives (visitEnd env) item stored ↔ NormalForm env item stored := by
  have hown : ∀ v, visitEnd env item = some v → (v.own = some stored ↔ NormalForm env item stored) := by
    intro v hv
    unfold visitEnd splitAtSign at hv
    by_cases hwhole : 64 ∈ item.have_.gkstring
    · rw [if_pos hwhole] at hv
      obtain ⟨lines, -, hmap⟩ := Option.bind_eq_some_iff.mp hv
      obtain ⟨next, -, rfl⟩ := Option.map_eq_some_iff.mp hmap
      exact iff_of_false (by simp) fun h => h.whole hwhole
    · rw [if_neg hwhole] at hv
      dsimp only at hv
      split at hv
      · cases hv
      · split at hv
        · cases hv
        · rw [rewriteVisit_own hv]
          exact ⟨fun ⟨h1, h2, h3⟩ => ⟨hwhole, h1, h2, h3⟩,
            fun h => ⟨h.no_euphony, h.no_contraction, h.stored_eq⟩⟩
  obtain ⟨v, hv⟩ := Option.isSome_iff_exists.mp hvisit
  constructor
  · rintro ⟨w, hw, hstored⟩
    exact (hown w hw).mp hstored
  · exact fun h => ⟨v, hv, (hown v hv).mpr h⟩

theorem mkEnd_eq_ok {env : EndEnv} {depth : ℕ} {item : EndItem} {found : List GkString} :
    mkEnd env depth item ⟨[], false⟩ = .ok ⟨found, false⟩ ↔
      collect (visitEnd env) depth item = some found := by
  rw [← cleanly_eq_some, mkEnd_clean]
  simp

/-- `mk_end` comes to an end without an error exactly when the rewriting by the tables and the
composed endings ends and every form that is reached can be visited. It has then stored the normal
forms among the forms that are reached, and no other record. -/
theorem mkEnd_normalForms (env : EndEnv) (item : EndItem) :
    ((∃ depth found, mkEnd env depth item ⟨[], false⟩ = .ok ⟨found, false⟩) ↔
      Acc (fun next item => Rewrites (visitEnd env) item next) item ∧
        ∀ reached, Reaches (visitEnd env) item reached → (visitEnd env reached).isSome) ∧
    ∀ depth found, mkEnd env depth item ⟨[], false⟩ = .ok ⟨found, false⟩ →
      (∀ deeper ≥ depth, mkEnd env deeper item ⟨[], false⟩ = .ok ⟨found, false⟩) ∧
        ∀ stored, stored ∈ found ↔
          ∃ reached, Reaches (visitEnd env) item reached ∧ NormalForm env reached stored := by
  constructor
  · simp only [mkEnd_eq_ok, ← Option.isSome_iff_exists]
    exact exists_collect_iff
  · intro depth found h
    have hcollect := mkEnd_eq_ok.mp h
    refine ⟨fun deeper hle => mkEnd_eq_ok.mpr (collect_mono hle hcollect),
      fun stored => (mem_collect hcollect stored).trans (exists_congr fun reached => ?_)⟩
    exact and_congr_right fun hreached => gives_iff_normal
      (visited_of_collect (Option.isSome_iff_exists.mpr ⟨found, hcollect⟩) hreached)

/-- A table of euphony that makes one letter of two, and an ending that takes a movable nu. -/
def sigmaEnv : EndEnv where
  language := 0
  keyScan := ⟨fun _ want => want, fun _ want avoid => (want, avoid), fun _ _ _ => rfl⟩
  morphFopen := fun _ => none
  vowContr := some []
  consEuph := some [⟨0, 0, fun _ => 0, ascii "gs", ascii "c"⟩]

def sigmaItem : EndItem := .plain { GkString.zero with gkstring := ascii "agsi" }

def sigmaFound : List GkString := (cleanly (mkEnd sigmaEnv 4 sigmaItem ⟨[], false⟩)).getD []

theorem mkEnd_normalForms_sigma :
    (∀ deeper ≥ 4, mkEnd sigmaEnv deeper sigmaItem ⟨[], false⟩ = .ok ⟨sigmaFound, false⟩) ∧
      ∀ stored, stored ∈ sigmaFound ↔
        ∃ reached, Reaches (visitEnd sigmaEnv) sigmaItem reached ∧
          NormalForm sigmaEnv reached stored := by
  have hrun : cleanly (mkEnd sigmaEnv 4 sigmaItem ⟨[], false⟩) = some sigmaFound := by
    decide +kernel
  exact (mkEnd_normalForms sigmaEnv sigmaItem).2 4 sigmaFound (cleanly_eq_some.mp hrun)

example : sigmaFound.map (·.gkstring) = [ascii "acin", ascii "aci"] := by decide +kernel

end Morpheus
