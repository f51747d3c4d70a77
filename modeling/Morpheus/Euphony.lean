import Morpheus.EndingAccents
import Morpheus.RunScan

/-!
# Tables of contractions and euphony

`sub_for_euph` looks for the leftmost place in an ending where a row of a table applies and lists
what the alternatives of that row make of it; `poss_contracts` and `do_euph` allocate the list that
`mk_end` walks.
-/
namespace Morpheus

open RunScan

/-- `MAXCONTRACTS` -/
def maxContracts : ℕ := 10

/-- `MAXEUPHS` -/
def maxEuphs : ℕ := 5

/-- `LOST_ACC` -/
def lostAcc : ℕ := 69

/-- A row of a table of contractions or euphony: its string has a raw pattern, and behind
`MAXSUBSTRING` bytes the text that takes its place. -/
structure EuphRow where
  dialect : UInt16
  geogregion : UInt32
  morphflags : MorphFlags
  raw : Bytes
  cooked : Bytes
  deriving DecidableEq

section Substitution
variable (language : ℤ)

/-- The cooked text and what follows. An iota subscript stays behind an acute accent, and a long mark
behind it is dropped. -/
def shiftSubscr (cooked rest : Bytes) : Bytes :=
  if cooked.getLast? = some 124 ∧ rest.head? = some 47 then
    cooked.dropLast ++ 47 :: 124 :: (if rest.tail.head? = some 95 then rest.tail.tail else rest.tail)
  else cooked ++ rest

/-- Long marks behind an iota subscript are dropped; the byte behind one is passed over. -/
def dropSubscrLong : Bytes → Bytes
  | [] => []
  | [c] => [c]
  | [c, d] => if c = 124 ∧ d = 95 then [c] else [c, d]
  | c :: d :: e :: s =>
    if c = 124 ∧ d = 95 then c :: e :: dropSubscrLong s else c :: dropSubscrLong (d :: e :: s)

/-- The form with a substituted text, which gets its breathing again, and what it has from the row. -/
def substituted (gstr : GkString) (row : EuphRow) (curbreath : Byte) (text : Bytes) : GkString :=
  { gstr with
    gkstring :=
      if language ≠ latin ∧ isBreath curbreath then withBreath text curbreath else text
    dialect := andDialect gstr.dialect row.dialect
    geogregion := gstr.geogregion ||| row.geogregion
    morphflags := addMorphflags gstr.morphflags row.morphflags }

/-- `fix_recessive_accent` -/
def fixRecessiveAccent (gstr : GkString) : GkString :=
  let gkform := { GkWord.zero with forminfo := gstr.forminfo, endstring := gstr }
  { gstr with gkstring := fixRecAcc language gkform gstr.morphflags gstr.gkstring }

/-- The form gets an accent again for the one that stood on syllable `syllno` of the rest of it. -/
def restoreAccent (syllno : ℕ) (gstr : GkString) : GkString × Bool :=
  let flags :=
    if syllno + 1 = nsylls gstr.gkstring then addMorphflag gstr.morphflags suffAcc
    else gstr.morphflags
  let gstr := { gstr with morphflags := addMorphflag flags lostAcc }
  if gstr.stemtype &&& ppartMask ≠ 0 ∧ gstr.forminfo.mood ≠ participle ∧ 33 ∉ gstr.gkstring then
    (fixRecessiveAccent language gstr, false)
  else accComposForm language gstr

/-- `needs_sub`: the form with the text of a row, when the row applies at a place of the string.
`failed` tells that an error is recorded in the context. -/
def needsSub (skipdial : UInt16) (gstr : GkString) (haveseen curstring : Bytes) (row : EuphRow)
    (failed : Bool) : Option GkString × Bool :=
  let curbreath := getbreath curstring
  let savecur := stripbreath curstring
  if skipdial &&& row.dialect ≠ 0 then (none, failed)
  else if negativeDialect (andDialect gstr.dialect row.dialect) then (none, failed)
  else if row.raw.isPrefixOf savecur then
    let rest := savecur.drop row.raw.length
    match appendText row.cooked maxWordSize rest with
    | none => (none, true)
    | some _ =>
      match appendText haveseen maxWordSize (shiftSubscr row.cooked rest) with
      | none => (none, true)
      | some savestr => (some (substituted language gstr row curbreath savestr), failed)
  else if strippedSyll savecur ≠ 0 ∧ row.raw.isPrefixOf (stripacc savecur) then
    let rest := (stripacc savecur).drop row.raw.length
    match (appendText haveseen maxWordSize row.cooked).bind (appendText · maxWordSize rest) with
    | none => (none, true)
    | some tmp =>
      let gstr := substituted language gstr row curbreath (dropSubscrLong tmp)
      if hasMorphflag gstr.morphflags isDeriv then (some gstr, failed)
      else
        let accented := restoreAccent language (strippedSyll savecur) gstr
        if failed || accented.2 then (none, true)
        else
          (some { accented.1 with morphflags := zapMorphflag accented.1.morphflags lostAcc }, false)
  else (none, failed)

end Substitution

section Tables
variable (language : ℤ) (skipdial : UInt16) (gstr : GkString)

/-- `sub_for_euph`: the slots of `poss_subs`, the number of substitutions and whether an error is
recorded. -/
def subForEuph (possSubs : List GkString) (possno : ℕ) (subTable : List EuphRow) (failed : Bool) :
    Progress GkString Bool :=
  scanPositions EuphRow.raw .zero possno (needsSub language skipdial gstr) subTable [] gstr.gkstring
    ⟨possSubs.set 0 gstr, 0, failed⟩

/-- The list of forms that `poss_contracts` and `do_euph` allocate and fill, if there is a table and
something in it applies. -/
def substitutions (entries possno : ℕ) (table : Option (List EuphRow)) (failed : Bool) :
    Option (List GkString) :=
  table.bind fun subTable =>
    let subs := subForEuph language skipdial gstr (List.replicate entries .zero) possno subTable failed
    if subs.sofar = 0 then none else some subs.slots

/-- `poss_contracts` with what `vowel_contraction_table` returns -/
def possContracts (vowContr : Option (List EuphRow)) (failed : Bool) : Option (List GkString) :=
  substitutions language skipdial gstr (maxContracts + 1) maxContracts vowContr failed

/-- `do_euph` with what `consonant_euphony_table` returns -/
def doEuph (consEuph : Option (List EuphRow)) (failed : Bool) : Option (List GkString) :=
  substitutions language skipdial gstr maxEuphs maxEuphs consEuph failed

/-- The forms that `mk_end` visits in a list; `none` when it leaves the entries of the list without
having met an empty string. -/
def walkForms : List GkString → Option (List GkString)
  | [] => none
  | form :: forms => if form.gkstring = [] then some [] else (walkForms forms).map (form :: ·)

end Tables

section Accepted
variable {language : ℤ} {skipdial : UInt16} {gstr : GkString} {subTable : List EuphRow}
  {possno entries : ℕ} {failed : Bool}

/-- The forms of the first row that `needs_sub` accepts at the leftmost place of the string where it
accepts one, and of the rows behind it with the same raw pattern. -/
def acceptedRun (language : ℤ) (skipdial : UInt16) (gstr : GkString) (subTable : List EuphRow)
    (failed : Bool) : List GkString :=
  leftmostRun (needsSub language skipdial gstr) subTable gstr.gkstring EuphRow.raw failed

/-- The slots hold the accepted forms in the order of the table, as far as there are slots for them,
and blanks behind them. -/
theorem subForEuph_holds (hcapacity : possno ≤ entries) :
    Holds .zero entries ((acceptedRun language skipdial gstr subTable failed).take possno)
      (subForEuph language skipdial gstr (List.replicate entries .zero) possno subTable failed) := by
  have hstart : Holds .zero entries []
      (⟨(List.replicate entries GkString.zero).set 0 gstr, 0, failed⟩ : Progress GkString Bool) := by
    have hclear := @filled_clear GkString .zero entries []
    rw [filled, List.nil_append, List.length_nil, Nat.sub_zero] at hclear
    refine ⟨rfl, ?_, fun h => absurd rfl h⟩
    rw [List.length_nil, List.set_set, hclear]
    rfl
  exact scanPositions_leftmost hcapacity gstr.gkstring hstart

theorem walkForms_isSome {forms : List GkString} :
    (walkForms forms).isSome ↔ ∃ form ∈ forms, form.gkstring = [] := by
  induction forms with
  | nil => simp [walkForms]
  | cons form forms ih =>
    rw [walkForms]
    by_cases hempty : form.gkstring = []
    · simp [hempty]
    · simp [hempty, ih]

/-- The list is walked to an end inside of it when it has a slot more than it takes forms, or an
empty form. -/
theorem substitutions_walk (hcapacity : possno ≤ entries) (hentries : 0 < entries) :
    (∀ forms, substitutions language skipdial gstr entries possno (some subTable) failed = some forms →
      (walkForms forms).isSome) ↔
      ((acceptedRun language skipdial gstr subTable failed).take possno).length < entries ∨
        ∃ form ∈ (acceptedRun language skipdial gstr subTable failed).take possno, form.gkstring = [] := by
  have hholds := @subForEuph_holds language skipdial gstr subTable possno entries failed hcapacity
  unfold substitutions
  generalize (acceptedRun language skipdial gstr subTable failed).take possno = hits at hholds ⊢
  simp only [Option.bind_some, hholds.sofar, List.length_eq_zero_iff]
  by_cases hnone : hits = []
  · rw [if_pos hnone, hnone]
    exact iff_of_true (fun forms h => absurd h (by simp)) (.inl (by simpa using hentries))
  · have hslots := hholds.slots hnone
    rw [if_neg hnone, hslots]
    simp only [Option.some.injEq, forall_eq', walkForms_isSome, filled, List.mem_append, List.mem_replicate]
    constructor
    · rintro ⟨form, hform | ⟨hmore, rfl⟩, hempty⟩
      · exact .inr ⟨form, hform, hempty⟩
      · exact .inl (by omega)
    · rintro (hless | ⟨form, hform, hempty⟩)
      · exact ⟨.zero, .inr ⟨by omega, rfl⟩, rfl⟩
      · exact ⟨form, .inl hform, hempty⟩

/-- What is claimed of the table lookup: `sub_for_euph` returns the accepted forms of the leftmost
run in the order of the table, as many as it has slots for; and `mk_end` meets an empty string within
the list that `poss_contracts` or `do_euph` returns. -/
structure EuphonyLaw (language : ℤ) (skipdial : UInt16) (gstr : GkString)
    (vowContr consEuph : Option (List EuphRow)) (failed : Bool) : Prop where
  lookup : ∀ (subTable : List EuphRow) (possno entries : ℕ), possno ≤ entries →
    (subForEuph language skipdial gstr (List.replicate entries .zero) possno subTable failed).sofar =
        ((acceptedRun language skipdial gstr subTable failed).take possno).length ∧
      (subForEuph language skipdial gstr (List.replicate entries .zero) possno subTable
        failed).slots.take
          ((acceptedRun language skipdial gstr subTable failed).take possno).length =
        (acceptedRun language skipdial gstr subTable failed).take possno
  contracts : ∀ forms, possContracts language skipdial gstr vowContr failed = some forms →
    (walkForms forms).isSome
  euphs : ∀ forms, doEuph language skipdial gstr consEuph failed = some forms →
    (walkForms forms).isSome

theorem possContracts_walk (vowContr : Option (List EuphRow)) (forms : List GkString)
    (h : possContracts language skipdial gstr vowContr failed = some forms) :
    (walkForms forms).isSome := by
  cases vowContr with
  | none => simp [possContracts, substitutions] at h
  | some subTable =>
    refine (substitutions_walk (by decide) (by decide)).mpr (.inl ?_) forms h
    rw [List.length_take]
    exact (Nat.min_le_left _ _).trans_lt (by decide)

/-- The lookup in the tables does what is claimed exactly when fewer than `MAXEUPHS` forms are
accepted for the leftmost run of the table of euphony, or one of as many is empty. -/
theorem euphonyLaw_iff (language : ℤ) (skipdial : UInt16) (gstr : GkString)
    (vowContr consEuph : Option (List EuphRow)) (failed : Bool) :
    EuphonyLaw language skipdial gstr vowContr consEuph failed ↔
      ∀ subTable, consEuph = some subTable →
        (acceptedRun language skipdial gstr subTable failed).length < maxEuphs ∨
          ∃ form ∈ (acceptedRun language skipdial gstr subTable failed).take maxEuphs,
            form.gkstring = [] := by
  have hwalk := fun subTable => @substitutions_walk language skipdial gstr subTable maxEuphs maxEuphs
    failed le_rfl (by decide)
  have hshort : ∀ subTable, ((acceptedRun language skipdial gstr subTable failed).take
      maxEuphs).length < maxEuphs ↔ (acceptedRun language skipdial gstr subTable failed).length <
        maxEuphs := by
    intro subTable
    rw [List.length_take]
    omega
  simp only [hshort] at hwalk
  constructor
  · rintro ⟨-, -, heuphs⟩ subTable rfl
    exact (hwalk subTable).mp heuphs
  · intro h
    refine ⟨fun subTable possno entries hcapacity => ?_, possContracts_walk vowContr, ?_⟩
    · have hholds := @subForEuph_holds language skipdial gstr subTable possno entries failed hcapacity
      exact ⟨hholds.sofar, hholds.take⟩
    · cases consEuph with
      | none => simp [doEuph, substitutions]
      | some subTable => exact (hwalk subTable).mpr (h subTable rfl)

/-- Equal raw patterns stand next to each other. -/
def RawContiguous (subTable : List EuphRow) : Prop :=
  ∀ front row between other behind, subTable = front ++ row :: (between ++ other :: behind) →
    row.raw = other.raw → ∀ mid ∈ between, mid.raw = row.raw

/-- A table in which one pattern has five alternatives. -/
def fiveAlternatives : List EuphRow :=
  ["ss", "s", "tt", "t", "c"].map fun cooked => ⟨0, 0, fun _ => 0, ascii "ts", ascii cooked⟩

/-- `do_euph` fills all that it allocates with the five alternatives. -/
theorem doEuph_unterminated : RawContiguous fiveAlternatives ∧
    ¬∀ (language : ℤ) (skipdial : UInt16) (gstr : GkString) (vowContr : Option (List EuphRow))
      (subTable : List EuphRow) (failed : Bool), RawContiguous subTable →
      EuphonyLaw language skipdial gstr vowContr (some subTable) failed := by
  have hraw : ∀ row ∈ fiveAlternatives, row.raw = ascii "ts" := by
    intro row hrow
    obtain ⟨cooked, -, rfl⟩ := List.mem_map.mp hrow
    rfl
  have hcontiguous : RawContiguous fiveAlternatives := by
    intro front row between other behind hsplit _ mid hmid
    rw [hraw mid (by rw [hsplit]; simp [hmid]), hraw row (by rw [hsplit]; simp)]
  refine ⟨hcontiguous, fun h => ?_⟩
  have heuphs := (h 0 0 { GkString.zero with gkstring := ascii "tson" } none fiveAlternatives false
    hcontiguous).euphs
  have hforms : (doEuph 0 0 { GkString.zero with gkstring := ascii "tson" } (some fiveAlternatives)
      false).any (fun forms => (walkForms forms).isNone) = true := by decide +kernel
  rw [Option.any_eq_true] at hforms
  obtain ⟨forms, hforms, hnone⟩ := hforms
  have hsome := heuphs forms hforms
  rw [Option.isNone_iff_eq_none] at hnone
  rw [hnone] at hsome
  exact absurd hsome (by simp)

end Accepted

end Morpheus
