import Morpheus.CompoundLemma
import Morpheus.PreverbCombination
import Morpheus.RuntimeContext

/-!
# The search for stacked preverbs

`exp_preverb` cuts a string into raw preverbs of the table by a depth-first search. `nextpreverb`
remembers its place in the table by the last raw preverb alone, and the flags that `CombPbStem`
sets for one raw preverb stay for the next that is tried at the same place.
-/
namespace Morpheus

/-- An entry of the raw preverb table. `CombPbStemG` reads the last letter of the raw string,
and `exp_prevb2` puts a comma only after a lemma that is not empty. -/
structure RawPreverb where
  raw : Bytes
  pblemma : Bytes
  morphflags : MorphFlags
  dialect : UInt16
  raw_ne : stripbreath (stripacc raw) ≠ []
  pblemma_ne : pblemma ≠ []

/-- A raw preverb table: longer raw strings stand before their prefixes, and none twice. -/
structure RawTable where
  entries : List RawPreverb
  sorted : entries.Pairwise fun e f => ¬ e.raw <+: f.raw

/-- `overlap_morphflags` -/
def overlapMorphflags (Mf1 Mf2 : MorphFlags) : Bool := decide (∃ i, Mf1 i &&& Mf2 i ≠ 0)

/-- `no_morphflag` -/
def noMorphflag (mf : MorphFlags) : Bool := decide (∀ i, mf i = 0)

/-- The rule by which `nextpreverb` passes over an entry. -/
def refuses (gstr : GkString) (entry : RawPreverb) : Bool :=
  !noMorphflag gstr.morphflags && overlapMorphflags gstr.morphflags entry.morphflags &&
    hasMorphflag gstr.morphflags rawPreverb

/-- The record with the flags and the dialect of an entry. -/
def withPreverb (gstr : GkString) (entry : RawPreverb) : GkString :=
  { gstr with
    morphflags := addMorphflags gstr.morphflags entry.morphflags
    dialect := if entry.dialect ≠ 0 then entry.dialect else gstr.dialect }

/-- The entries behind the first that begins `oldprevb`; all of them for an empty one. -/
def afterPreverb (entries : List RawPreverb) (oldprevb : Bytes) : List RawPreverb :=
  if oldprevb = [] then entries
  else (entries.dropWhile fun entry => !entry.raw.isPrefixOf oldprevb).tail

/-- The second loop of `nextpreverb`. The word is cut before the flags are looked at, so the
raw string of an entry that is passed over is gone. -/
def nextFrom (gstr : GkString) : List RawPreverb → Bytes → Option (RawPreverb × Bytes)
  | [], _ => none
  | entry :: entries, word =>
    if entry.raw.isPrefixOf word then
      if refuses gstr entry then nextFrom gstr entries (word.drop entry.raw.length)
      else some (entry, word.drop entry.raw.length)
    else nextFrom gstr entries word

/-- `nextpreverb`: the entry and the rest of the word. -/
def nextpreverb (entries : List RawPreverb) (word oldprevb : Bytes) (gstr : GkString) :
    Option (RawPreverb × Bytes) :=
  nextFrom gstr (afterPreverb entries oldprevb) word

/-- What `exp_prevb2` builds. -/
structure PbState where
  fullpb : Bytes
  gstr : GkString

/-- A full form with one more lemma. -/
def joinLemma (fullpb pblemma : Bytes) : Bytes :=
  if fullpb = [] then pblemma else fullpb ++ 44 :: pblemma

/-- The two `strncat`; nothing when the full form leaves its buffer. -/
def addLemma (fullpb pblemma : Bytes) : Option Bytes :=
  if (joinLemma fullpb pblemma).length < maxWordSize then some (joinLemma fullpb pblemma) else none

/-- No flags. -/
def noFlags : MorphFlags := fun _ => 0

/-- `CombPbStem` for an entry. -/
def combine (language : ℤ) (entry : RawPreverb) (restofs : Bytes) (pbflags : MorphFlags) :
    Combined :=
  combPbStem language entry.raw restofs 0 pbflags

/-- The record with the `UNASP_PREVERB` that a combination asks for. -/
def markUnasp (pbflags : MorphFlags) (gstr : GkString) : GkString :=
  if hasMorphflag pbflags unaspPreverb then
    { gstr with morphflags := addMorphflag gstr.morphflags unaspPreverb }
  else gstr

/-- The loop of `exp_prevb2` over the raw preverbs at one place, for a bound on its rounds.
`Gstr` is cleared before the loop and not in it. -/
def tryPreverbs (language : ℤ) (entries : List RawPreverb)
    (expRest : Bytes → PbState → Option (Bool × PbState)) (str : Bytes) (start : PbState) :
    ℕ → Bytes → MorphFlags → Option (Bool × PbState)
  | 0, _, _ => none
  | rounds + 1, preverb, Gstr =>
    match nextpreverb entries str preverb start.gstr with
    | none => some (false, start)
    | some (entry, rest) =>
      match addLemma start.fullpb entry.pblemma with
      | none => none
      | some fullpb =>
        let comb := combine language entry rest Gstr
        let tried : PbState := ⟨fullpb, withPreverb start.gstr entry⟩
        if comb.accepted = false then some (false, tried)
        else
          match expRest comb.restofs tried with
          | none => none
          | some (true, final) => some (true, ⟨final.fullpb, markUnasp comb.pbflags final.gstr⟩)
          | some (false, _) =>
            tryPreverbs language entries expRest str start rounds entry.raw comb.pbflags

/-- `exp_prevb2`, for a bound on the preverbs that are stacked. -/
def expPrevb2 (language : ℤ) (entries : List RawPreverb) :
    ℕ → Bytes → PbState → Option (Bool × PbState)
  | 0, _, _ => none
  | depth + 1, str, start =>
    if str = [] then some (true, start)
    else tryPreverbs language entries (expPrevb2 language entries depth) str start
      (entries.length + 1) [] noFlags

/-- `exp_preverb` -/
def expPreverb (language : ℤ) (entries : List RawPreverb) (depth : ℕ) (rawpb : Bytes)
    (start : PbState) : Option (Bool × PbState) :=
  if rawpb = [] then some (false, start)
  else if 44 ∈ rawpb then some (true, ⟨xstrncpy rawpb maxWordSize, start.gstr⟩)
  else expPrevb2 language entries depth (stripacc (xstrncpy rawpb maxWordSize)) start

section Segmentation
variable (language : ℤ) (entries : List RawPreverb)

/-- The segmentations of a string into raw preverbs, with their lemmas and the record they
give: no entry is passed over by the flag rule, and `CombPbStem` accepts each with the rest. -/
inductive Segmentation : Bytes → GkString → List Bytes → GkString → Prop
  | used (gstr : GkString) : Segmentation [] gstr [] gstr
  | preverb {entry : RawPreverb} {rest : Bytes} {gstr final : GkString} {lemmas : List Bytes} :
      entry ∈ entries → refuses gstr entry = false →
      (combine language entry rest noFlags).accepted = true →
      Segmentation (combine language entry rest noFlags).restofs (withPreverb gstr entry)
        lemmas final →
      Segmentation (entry.raw ++ rest) gstr (entry.pblemma :: lemmas)
        (markUnasp (combine language entry rest noFlags).pbflags final)

/-- A string has a segmentation. -/
def Segmentable (str : Bytes) (gstr : GkString) : Prop :=
  ∃ lemmas final, Segmentation language entries str gstr lemmas final

/-- A segmentation that begins with `entry`. -/
def Through (entry : RawPreverb) (str : Bytes) (gstr : GkString) (lemmas : List Bytes)
    (final : GkString) : Prop :=
  ∃ rest lemmas' final', str = entry.raw ++ rest ∧ refuses gstr entry = false ∧
    (combine language entry rest noFlags).accepted = true ∧
    Segmentation language entries (combine language entry rest noFlags).restofs
      (withPreverb gstr entry) lemmas' final' ∧
    lemmas = entry.pblemma :: lemmas' ∧
    final = markUnasp (combine language entry rest noFlags).pbflags final'

/-- `entry` does not begin a segmentation. -/
def Useless (str : Bytes) (gstr : GkString) (entry : RawPreverb) : Prop :=
  ∀ lemmas final, ¬ Through language entries entry str gstr lemmas final

/-- The search for a string meets nothing that leads it astray. `es` are the entries still to
be tried at a place, `Gstr` holds the flags left by those tried there before. -/
inductive Smooth : List RawPreverb → Bytes → Bytes → GkString → MorphFlags → Prop
  | used {es : List RawPreverb} {fullpb : Bytes} {gstr : GkString} {Gstr : MorphFlags} :
      Smooth es [] fullpb gstr Gstr
  | last {str fullpb : Bytes} {gstr : GkString} {Gstr : MorphFlags} :
      Smooth [] str fullpb gstr Gstr
  | other {entry : RawPreverb} {es : List RawPreverb} {str fullpb : Bytes} {gstr : GkString}
      {Gstr : MorphFlags} :
      ¬ entry.raw <+: str → Smooth es str fullpb gstr Gstr → Smooth (entry :: es) str fullpb gstr Gstr
  | works {entry : RawPreverb} {es : List RawPreverb} {rest fullpb fullpb' : Bytes}
      {gstr : GkString} {Gstr : MorphFlags} :
      refuses gstr entry = false → addLemma fullpb entry.pblemma = some fullpb' →
      (combine language entry rest noFlags).accepted = true →
      Smooth entries (combine language entry rest noFlags).restofs fullpb'
        (withPreverb gstr entry) noFlags →
      Segmentable language entries (combine language entry rest noFlags).restofs
        (withPreverb gstr entry) →
      hasMorphflag (combine language entry rest Gstr).pbflags unaspPreverb =
        hasMorphflag (combine language entry rest noFlags).pbflags unaspPreverb →
      Smooth (entry :: es) (entry.raw ++ rest) fullpb gstr Gstr
  | fails {entry : RawPreverb} {es : List RawPreverb} {rest fullpb fullpb' : Bytes}
      {gstr : GkString} {Gstr : MorphFlags} :
      refuses gstr entry = false → addLemma fullpb entry.pblemma = some fullpb' →
      (combine language entry rest noFlags).accepted = true →
      Smooth entries (combine language entry rest noFlags).restofs fullpb'
        (withPreverb gstr entry) noFlags →
      ¬ Segmentable language entries (combine language entry rest noFlags).restofs
        (withPreverb gstr entry) →
      Smooth es (entry.raw ++ rest) fullpb gstr (combine language entry rest Gstr).pbflags →
      Smooth (entry :: es) (entry.raw ++ rest) fullpb gstr Gstr
  | refused {entry : RawPreverb} {es : List RawPreverb} {rest fullpb fullpb' : Bytes}
      {gstr : GkString} {Gstr : MorphFlags} :
      refuses gstr entry = false → addLemma fullpb entry.pblemma = some fullpb' →
      (combine language entry rest noFlags).accepted = false →
      (∀ other ∈ es, Useless language entries (entry.raw ++ rest) gstr other) →
      Smooth (entry :: es) (entry.raw ++ rest) fullpb gstr Gstr
  | passed {entry : RawPreverb} {es : List RawPreverb} {rest fullpb : Bytes} {gstr : GkString}
      {Gstr : MorphFlags} :
      refuses gstr entry = true → (∀ other ∈ es, ¬ other.raw <+: rest) →
      (∀ other ∈ es, Useless language entries (entry.raw ++ rest) gstr other) →
      Smooth (entry :: es) (entry.raw ++ rest) fullpb gstr Gstr

end Segmentation

section Iterator
variable {front es : List RawPreverb} {entry : RawPreverb}

theorem RawPreverb.letters_pos (entry : RawPreverb) : 0 < letters entry.raw := by
  obtain ⟨c, hc⟩ := List.exists_mem_of_ne_nil _ entry.raw_ne
  obtain ⟨hacc, hbreath⟩ := List.mem_filter.mp hc
  exact List.countP_pos_iff.mpr ⟨c, (List.mem_filter.mp hacc).1, hbreath⟩

theorem RawPreverb.raw_ne_nil (entry : RawPreverb) : entry.raw ≠ [] := by
  intro h
  have := entry.letters_pos
  rw [h] at this
  exact absurd this (by decide)

/-- The last raw preverb marks its place in a sorted table. -/
theorem afterPreverb_raw (hsorted : (front ++ entry :: es).Pairwise fun e f => ¬ e.raw <+: f.raw) :
    afterPreverb (front ++ entry :: es) entry.raw = es := by
  have hfront : ∀ e ∈ front, (!e.raw.isPrefixOf entry.raw) = true := by
    intro e he
    rw [Bool.not_eq_true', ← Bool.not_eq_true, List.isPrefixOf_iff_prefix]
    exact (List.pairwise_append.mp hsorted).2.2 e he entry List.mem_cons_self
  have hentry : (!entry.raw.isPrefixOf entry.raw) = false := by
    rw [Bool.not_eq_false', List.isPrefixOf_iff_prefix]
  rw [afterPreverb, if_neg entry.raw_ne_nil, List.dropWhile_append_of_pos hfront,
    List.dropWhile_cons_of_neg (by rw [hentry]; decide), List.tail_cons]

variable {gstr : GkString} {str rest : Bytes}

theorem nextFrom_other (h : ¬ entry.raw <+: str) :
    nextFrom gstr (entry :: es) str = nextFrom gstr es str := by
  rw [nextFrom, if_neg (by rwa [List.isPrefixOf_iff_prefix])]

theorem nextFrom_append (h : refuses gstr entry = false) :
    nextFrom gstr (entry :: es) (entry.raw ++ rest) = some (entry, rest) := by
  rw [nextFrom, if_pos (List.isPrefixOf_iff_prefix.mpr (List.prefix_append ..)),
    if_neg (by rw [h]; decide), List.drop_left]

theorem nextFrom_eq_none (h : ∀ other ∈ es, ¬ other.raw <+: str) : nextFrom gstr es str = none := by
  induction es with
  | nil => rfl
  | cons entry es ih =>
    rw [nextFrom_other (h entry List.mem_cons_self)]
    exact ih fun other hother => h other (List.mem_cons_of_mem _ hother)

theorem nextFrom_passed (h : refuses gstr entry = true) (hrest : ∀ other ∈ es, ¬ other.raw <+: rest) :
    nextFrom gstr (entry :: es) (entry.raw ++ rest) = none := by
  rw [nextFrom, if_pos (List.isPrefixOf_iff_prefix.mpr (List.prefix_append ..)), if_pos h,
    List.drop_left]
  exact nextFrom_eq_none hrest

end Iterator

section Parts
variable {language : ℤ} {entries : List RawPreverb} {entry : RawPreverb} {str rest : Bytes}
  {gstr final : GkString} {lemmas : List Bytes}

/-- A segmentation of a string with something in it begins with one of the entries. -/
theorem segmentation_iff_through (hstr : str ≠ []) :
    Segmentation language entries str gstr lemmas final ↔
      ∃ entry ∈ entries, Through language entries entry str gstr lemmas final := by
  constructor
  · intro h
    cases h with
    | used => exact absurd rfl hstr
    | preverb hmem hrefuse haccept hrest =>
      exact ⟨_, hmem, _, _, _, rfl, hrefuse, haccept, hrest, rfl, rfl⟩
  · rintro ⟨entry, hmem, rest, lemmas', final', rfl, hrefuse, haccept, hrest, rfl, rfl⟩
    exact .preverb hmem hrefuse haccept hrest

theorem through_append_iff :
    Through language entries entry (entry.raw ++ rest) gstr lemmas final ↔
      refuses gstr entry = false ∧ (combine language entry rest noFlags).accepted = true ∧
        ∃ lemmas' final', Segmentation language entries
            (combine language entry rest noFlags).restofs (withPreverb gstr entry) lemmas' final' ∧
          lemmas = entry.pblemma :: lemmas' ∧
          final = markUnasp (combine language entry rest noFlags).pbflags final' := by
  constructor
  · rintro ⟨rest', lemmas', final', heq, hrefuse, haccept, hrest, rfl, rfl⟩
    obtain rfl := List.append_cancel_left heq
    exact ⟨hrefuse, haccept, lemmas', final', hrest, rfl, rfl⟩
  · rintro ⟨hrefuse, haccept, lemmas', final', hrest, rfl, rfl⟩
    exact ⟨rest, lemmas', final', rfl, hrefuse, haccept, hrest, rfl, rfl⟩

theorem useless_of_not_prefix (h : ¬ entry.raw <+: str) : Useless language entries str gstr entry := by
  rintro lemmas final ⟨rest, _, _, rfl, -⟩
  exact h (List.prefix_append ..)

end Parts

section Outcome

/-- A search has come to an end: it has found something if there is something to find, and what
it built is one of the things looked for. -/
def Finds (fullpb : Bytes) (P : List Bytes → GkString → Prop) (r : Option (Bool × PbState)) : Prop :=
  ∃ found final, r = some (found, final) ∧ (found = true ↔ ∃ lemmas g, P lemmas g) ∧
    (found = true → ∃ lemmas, P lemmas final.gstr ∧ final.fullpb = lemmas.foldl joinLemma fullpb)

variable {fullpb : Bytes} {P Q : List Bytes → GkString → Prop} {r : Option (Bool × PbState)}

theorem Finds.congr (h : Finds fullpb P r) (hPQ : ∀ lemmas g, P lemmas g ↔ Q lemmas g) :
    Finds fullpb Q r := by
  obtain rfl : P = Q := funext₂ fun lemmas g => propext (hPQ lemmas g)
  exact h

theorem finds_nothing (final : PbState) (h : ∀ lemmas g, ¬ P lemmas g) :
    Finds fullpb P (some (false, final)) := by
  refine ⟨false, final, rfl, ⟨fun hfalse => absurd hfalse (by decide), ?_⟩,
    fun hfalse => absurd hfalse (by decide)⟩
  rintro ⟨lemmas, g, hP⟩
  exact absurd hP (h lemmas g)

theorem finds_something {final : PbState} {lemmas : List Bytes} (hP : P lemmas final.gstr)
    (hfull : final.fullpb = lemmas.foldl joinLemma fullpb) :
    Finds fullpb P (some (true, final)) :=
  ⟨true, final, rfl, ⟨fun _ => ⟨lemmas, final.gstr, hP⟩, fun _ => rfl⟩, fun _ => ⟨lemmas, hP, hfull⟩⟩

end Outcome

section Combine
variable (language : ℤ) (entry : RawPreverb) (rest : Bytes) {Gstr : MorphFlags}

theorem combine_eq_noFlags (h : hasMorphflag Gstr dissimilation = false) :
    (combine language entry rest Gstr).accepted = (combine language entry rest noFlags).accepted ∧
      (combine language entry rest Gstr).restofs = (combine language entry rest noFlags).restofs :=
  combPbStem_flags entry.raw rest 0 language h rfl

theorem combine_dissimilation (h : hasMorphflag Gstr dissimilation = false) :
    hasMorphflag (combine language entry rest Gstr).pbflags dissimilation = false := by
  rw [combine, combPbStem_dissimilation, h]

/-- A raw preverb takes at least one letter from the string. -/
theorem combine_letters :
    letters (combine language entry rest Gstr).restofs < letters (entry.raw ++ rest) := by
  have hrest : letters (combine language entry rest Gstr).restofs ≤ letters rest :=
    combPbStem_letters entry.raw rest 0 Gstr language
  have hraw := entry.letters_pos
  rw [letters_append]
  omega

end Combine

section Run
variable {language : ℤ} {table : RawTable} {es front : List RawPreverb} {str fullpb preverb : Bytes}
  {gstr : GkString} {Gstr : MorphFlags} {depth rounds : ℕ}

/-- One place of the search, with `es` the entries still to be tried there. -/
def PlaceFinds (language : ℤ) (table : RawTable) (es : List RawPreverb) (str fullpb : Bytes)
    (gstr : GkString) (Gstr : MorphFlags) : Prop :=
  ∀ front preverb depth rounds, table.entries = front ++ es →
    nextpreverb table.entries str preverb gstr = nextFrom gstr es str →
    hasMorphflag Gstr dissimilation = false → str ≠ [] → letters str ≤ depth →
    es.length < rounds →
    Finds fullpb (fun lemmas g => ∃ entry ∈ es,
        Through language table.entries entry str gstr lemmas g)
      (tryPreverbs language table.entries (expPrevb2 language table.entries depth) str
        ⟨fullpb, gstr⟩ rounds preverb Gstr)

/-- From a place to the whole rest of the string there. -/
theorem PlaceFinds.rest
    (h : PlaceFinds language table table.entries str fullpb gstr noFlags)
    (hdepth : letters str < depth) :
    Finds fullpb (fun lemmas g => Segmentation language table.entries str gstr lemmas g)
      (expPrevb2 language table.entries depth str ⟨fullpb, gstr⟩) := by
  obtain ⟨depth, rfl⟩ := Nat.exists_eq_succ_of_ne_zero (Nat.ne_of_gt (Nat.zero_lt_of_lt hdepth))
  by_cases hstr : str = []
  · rw [expPrevb2, if_pos hstr, hstr]
    exact finds_something (.used gstr) rfl
  · rw [expPrevb2, if_neg hstr]
    refine (h [] [] depth _ rfl ?_ rfl hstr (Nat.le_of_lt_succ hdepth) (Nat.lt_succ_self _)).congr
      fun lemmas g => (segmentation_iff_through hstr).symm
    rw [nextpreverb, afterPreverb, if_pos rfl]

section Place
variable {entry : RawPreverb} {rest fullpb' : Bytes}

theorem placeFinds_last : PlaceFinds language table [] str fullpb gstr Gstr := by
  intro front preverb depth rounds _ hnext _ _ _ hrounds
  obtain ⟨rounds, rfl⟩ := Nat.exists_eq_succ_of_ne_zero (Nat.ne_of_gt hrounds)
  rw [tryPreverbs, hnext]
  exact finds_nothing _ fun lemmas g ⟨_, hmem, _⟩ => absurd hmem List.not_mem_nil

theorem PlaceFinds.other (h : PlaceFinds language table es str fullpb gstr Gstr)
    (hentry : ¬ entry.raw <+: str) :
    PlaceFinds language table (entry :: es) str fullpb gstr Gstr := by
  intro front preverb depth rounds htable hnext hGstr hstr hdepth hrounds
  have htable' : table.entries = (front ++ [entry]) ++ es := by
    rw [htable, List.append_assoc, List.singleton_append]
  rw [nextFrom_other hentry] at hnext
  refine (h _ preverb depth rounds htable' hnext hGstr hstr hdepth
    (Nat.lt_of_succ_lt hrounds)).congr fun lemmas g => ?_
  simp only [List.mem_cons, exists_eq_or_imp, useless_of_not_prefix hentry lemmas g, false_or]

variable {expRest : Bytes → PbState → Option (Bool × PbState)} {final : PbState}

theorem tryPreverbs_found (hrefuse : refuses gstr entry = false)
    (hfull : addLemma fullpb entry.pblemma = some fullpb')
    (haccept : (combine language entry rest noFlags).accepted = true)
    (hGstr : hasMorphflag Gstr dissimilation = false)
    (hnext : nextpreverb table.entries (entry.raw ++ rest) preverb gstr =
      nextFrom gstr (entry :: es) (entry.raw ++ rest))
    (hrun : expRest (combine language entry rest noFlags).restofs
      ⟨fullpb', withPreverb gstr entry⟩ = some (true, final)) :
    tryPreverbs language table.entries expRest (entry.raw ++ rest) ⟨fullpb, gstr⟩ (rounds + 1)
        preverb Gstr =
      some (true, ⟨final.fullpb, markUnasp (combine language entry rest Gstr).pbflags final.gstr⟩) := by
  obtain ⟨heqacc, heqrest⟩ := combine_eq_noFlags language entry rest hGstr
  rw [tryPreverbs, hnext, nextFrom_append hrefuse]
  simp only [hfull, heqacc, haccept, heqrest, hrun, Bool.true_eq_false, if_false]

theorem tryPreverbs_notFound (hrefuse : refuses gstr entry = false)
    (hfull : addLemma fullpb entry.pblemma = some fullpb')
    (haccept : (combine language entry rest noFlags).accepted = true)
    (hGstr : hasMorphflag Gstr dissimilation = false)
    (hnext : nextpreverb table.entries (entry.raw ++ rest) preverb gstr =
      nextFrom gstr (entry :: es) (entry.raw ++ rest))
    (hrun : expRest (combine language entry rest noFlags).restofs
      ⟨fullpb', withPreverb gstr entry⟩ = some (false, final)) :
    tryPreverbs language table.entries expRest (entry.raw ++ rest) ⟨fullpb, gstr⟩ (rounds + 1)
        preverb Gstr =
      tryPreverbs language table.entries expRest (entry.raw ++ rest) ⟨fullpb, gstr⟩ rounds
        entry.raw (combine language entry rest Gstr).pbflags := by
  obtain ⟨heqacc, heqrest⟩ := combine_eq_noFlags language entry rest hGstr
  rw [tryPreverbs, hnext, nextFrom_append hrefuse]
  simp only [hfull, heqacc, haccept, heqrest, hrun, Bool.true_eq_false, if_false]

theorem placeFinds_works (hrefuse : refuses gstr entry = false)
    (hfull : addLemma fullpb entry.pblemma = some fullpb')
    (haccept : (combine language entry rest noFlags).accepted = true)
    (hrest : PlaceFinds language table table.entries (combine language entry rest noFlags).restofs
      fullpb' (withPreverb gstr entry) noFlags)
    (hseg : Segmentable language table.entries (combine language entry rest noFlags).restofs
      (withPreverb gstr entry))
    (hunasp : hasMorphflag (combine language entry rest Gstr).pbflags unaspPreverb =
      hasMorphflag (combine language entry rest noFlags).pbflags unaspPreverb) :
    PlaceFinds language table (entry :: es) (entry.raw ++ rest) fullpb gstr Gstr := by
  intro front preverb depth rounds htable hnext hGstr hstr hdepth hrounds
  obtain ⟨rounds, rfl⟩ := Nat.exists_eq_succ_of_ne_zero (Nat.ne_of_gt (Nat.zero_lt_of_lt hrounds))
  obtain ⟨found, final, hrun, hfound, hbuilt⟩ :=
    hrest.rest ((combine_letters language entry rest).trans_le hdepth)
  obtain rfl : found = true := hfound.mpr hseg
  obtain ⟨lemmas, hlemmas, hfinal⟩ := hbuilt rfl
  rw [tryPreverbs_found hrefuse hfull haccept hGstr hnext hrun]
  have hjoin : fullpb' = joinLemma fullpb entry.pblemma := by
    unfold addLemma at hfull
    split_ifs at hfull
    exact (Option.some.inj hfull).symm
  have hthrough : Through language table.entries entry (entry.raw ++ rest) gstr
      (entry.pblemma :: lemmas)
      (markUnasp (combine language entry rest Gstr).pbflags final.gstr) := by
    refine through_append_iff.mpr ⟨hrefuse, haccept, lemmas, final.gstr, hlemmas, rfl, ?_⟩
    simp only [markUnasp, hunasp]
  have hbuilt' : final.fullpb = (entry.pblemma :: lemmas).foldl joinLemma fullpb := by
    rw [hfinal, List.foldl_cons, hjoin]
  exact finds_something ⟨entry, List.mem_cons_self, hthrough⟩ hbuilt'

theorem placeFinds_fails (hrefuse : refuses gstr entry = false)
    (hfull : addLemma fullpb entry.pblemma = some fullpb')
    (haccept : (combine language entry rest noFlags).accepted = true)
    (hrest : PlaceFinds language table table.entries (combine language entry rest noFlags).restofs
      fullpb' (withPreverb gstr entry) noFlags)
    (hseg : ¬ Segmentable language table.entries (combine language entry rest noFlags).restofs
      (withPreverb gstr entry))
    (hes : PlaceFinds language table es (entry.raw ++ rest) fullpb gstr
      (combine language entry rest Gstr).pbflags) :
    PlaceFinds language table (entry :: es) (entry.raw ++ rest) fullpb gstr Gstr := by
  intro front preverb depth rounds htable hnext hGstr hstr hdepth hrounds
  obtain ⟨rounds, rfl⟩ := Nat.exists_eq_succ_of_ne_zero (Nat.ne_of_gt (Nat.zero_lt_of_lt hrounds))
  obtain ⟨found, final, hrun, hfound, -⟩ :=
    hrest.rest ((combine_letters language entry rest).trans_le hdepth)
  obtain rfl : found = false := Bool.eq_false_of_not_eq_true fun h => hseg (hfound.mp h)
  rw [tryPreverbs_notFound hrefuse hfull haccept hGstr hnext hrun]
  have htable' : table.entries = (front ++ [entry]) ++ es := by
    rw [htable, List.append_assoc, List.singleton_append]
  have hback : afterPreverb table.entries entry.raw = es := by
    have hsorted := table.sorted
    rw [htable] at hsorted ⊢
    exact afterPreverb_raw hsorted
  refine (hes _ entry.raw depth rounds htable' (by rw [nextpreverb, hback])
    (combine_dissimilation language entry rest hGstr) hstr hdepth
    (Nat.lt_of_succ_lt_succ hrounds)).congr fun lemmas g => ?_
  have hentry : ¬ Through language table.entries entry (entry.raw ++ rest) gstr lemmas g := by
    rw [through_append_iff]
    rintro ⟨-, -, lemmas', final', hpart, -⟩
    exact hseg ⟨lemmas', final', hpart⟩
  simp only [List.mem_cons, exists_eq_or_imp, hentry, false_or]

/-- A place at which the code gives up, where nothing would have worked. -/
theorem finds_useless {final : PbState} (hentry : Useless language table.entries str gstr entry)
    (hes : ∀ other ∈ es, Useless language table.entries str gstr other) :
    Finds fullpb (fun lemmas g => ∃ e ∈ entry :: es,
      Through language table.entries e str gstr lemmas g) (some (false, final)) := by
  refine finds_nothing final fun lemmas g ⟨e, hmem, hthrough⟩ => ?_
  rcases List.mem_cons.mp hmem with rfl | hmem
  · exact hentry lemmas g hthrough
  · exact hes e hmem lemmas g hthrough

theorem placeFinds_refused (hrefuse : refuses gstr entry = false)
    (hfull : addLemma fullpb entry.pblemma = some fullpb')
    (haccept : (combine language entry rest noFlags).accepted = false)
    (hes : ∀ other ∈ es, Useless language table.entries (entry.raw ++ rest) gstr other) :
    PlaceFinds language table (entry :: es) (entry.raw ++ rest) fullpb gstr Gstr := by
  intro front preverb depth rounds htable hnext hGstr hstr hdepth hrounds
  obtain ⟨rounds, rfl⟩ := Nat.exists_eq_succ_of_ne_zero (Nat.ne_of_gt (Nat.zero_lt_of_lt hrounds))
  have heqacc := (combine_eq_noFlags language entry rest hGstr).1
  rw [tryPreverbs, hnext, nextFrom_append hrefuse]
  simp only [hfull, heqacc, haccept, if_true]
  refine finds_useless (fun lemmas g hthrough => ?_) hes
  have haccept' := (through_append_iff.mp hthrough).2.1
  rw [haccept] at haccept'
  exact absurd haccept' (by decide)

theorem placeFinds_passed (hrefuse : refuses gstr entry = true)
    (hrest : ∀ other ∈ es, ¬ other.raw <+: rest)
    (hes : ∀ other ∈ es, Useless language table.entries (entry.raw ++ rest) gstr other) :
    PlaceFinds language table (entry :: es) (entry.raw ++ rest) fullpb gstr Gstr := by
  intro front preverb depth rounds htable hnext hGstr hstr hdepth hrounds
  obtain ⟨rounds, rfl⟩ := Nat.exists_eq_succ_of_ne_zero (Nat.ne_of_gt (Nat.zero_lt_of_lt hrounds))
  rw [tryPreverbs, hnext, nextFrom_passed hrefuse hrest]
  refine finds_useless (fun lemmas g hthrough => ?_) hes
  have hrefuse' := (through_append_iff.mp hthrough).1
  rw [hrefuse] at hrefuse'
  exact absurd hrefuse' (by decide)

end Place

/-- A search that meets nothing that leads it astray finds a segmentation if there is one. -/
theorem Smooth.placeFinds
    (h : Smooth language table.entries es str fullpb gstr Gstr) :
    PlaceFinds language table es str fullpb gstr Gstr := by
  induction h with
  | used =>
    intro front preverb depth rounds _ _ _ hstr
    exact absurd rfl hstr
  | last => exact placeFinds_last
  | other hentry _ ih => exact ih.other hentry
  | works hrefuse hfull haccept _ hseg hunasp ih =>
    exact placeFinds_works hrefuse hfull haccept ih hseg hunasp
  | fails hrefuse hfull haccept _ hseg _ ihrest ihes =>
    exact placeFinds_fails hrefuse hfull haccept ihrest hseg ihes
  | refused hrefuse hfull haccept hes => exact placeFinds_refused hrefuse hfull haccept hes
  | passed hrefuse hrest hes => exact placeFinds_passed hrefuse hrest hes

end Run

section Result
variable {language : ℤ} {entries : List RawPreverb} {str : Bytes} {gstr final : GkString}
  {lemmas : List Bytes}

theorem Segmentation.lemmas_ne_nil (h : Segmentation language entries str gstr lemmas final) :
    ∀ pblemma ∈ lemmas, pblemma ≠ [] := by
  induction h with
  | used => exact fun _ hmem => absurd hmem List.not_mem_nil
  | @preverb entry _ _ _ _ _ _ _ _ ih =>
    rintro pblemma hmem
    rcases List.mem_cons.mp hmem with rfl | hmem
    · exact entry.pblemma_ne
    · exact ih pblemma hmem

/-- The full form is the lemmas with commas between them. -/
theorem foldl_joinLemma (lemmas : List Bytes) (h : ∀ pblemma ∈ lemmas, pblemma ≠ []) :
    lemmas.foldl joinLemma [] = [(44 : Byte)].intercalate lemmas ∧
      (lemmas ≠ [] → lemmas.foldl joinLemma [] ≠ []) := by
  induction lemmas using List.reverseRecOn with
  | nil => exact ⟨rfl, fun hnil => absurd rfl hnil⟩
  | append_singleton lemmas pblemma ih =>
    obtain ⟨hfold, hne⟩ := ih fun l hl => h l (List.mem_append_left _ hl)
    rw [List.foldl_append, List.foldl_cons, List.foldl_nil]
    by_cases hlemmas : lemmas = []
    · have hpblemma : pblemma ≠ [] := h pblemma (List.mem_append_right _ List.mem_cons_self)
      subst hlemmas
      exact ⟨List.intercalate_singleton.symm, fun _ => hpblemma⟩
    · rw [joinLemma, if_neg (hne hlemmas), hfold, intercalate_concat pblemma hlemmas]
      exact ⟨rfl, fun _ => by simp⟩

theorem segmentation_ne_nil (h : Segmentation language entries str gstr lemmas final) :
    lemmas ≠ [] ↔ str ≠ [] := by
  cases h with
  | used => simp
  | @preverb entry => simp [entry.raw_ne_nil]

theorem Segmentation.final_of_nil (h : Segmentation language entries [] gstr lemmas final) :
    final = gstr := by
  generalize hstr : ([] : Bytes) = str at h
  cases h with
  | used => rfl
  | @preverb entry =>
    exact absurd (List.append_eq_nil_iff.mp hstr.symm).1 entry.raw_ne_nil

/-- A segmentation begins with an entry whose raw string begins the string. -/
theorem Segmentation.begins (h : Segmentation language entries str gstr lemmas final)
    (hstr : str ≠ []) : ∃ entry ∈ entries.filter (·.raw.isPrefixOf str),
      Through language entries entry str gstr lemmas final := by
  obtain ⟨entry, hmem, hthrough⟩ := (segmentation_iff_through hstr).mp h
  have hprefix : entry.raw <+: str := by
    by_contra hno
    exact useless_of_not_prefix hno _ _ hthrough
  exact ⟨entry, List.mem_filter.mpr ⟨hmem, List.isPrefixOf_iff_prefix.mpr hprefix⟩, hthrough⟩

theorem not_segmentable (hstr : str ≠ []) (h : ∀ entry ∈ entries, ¬ entry.raw <+: str) :
    ¬ Segmentable language entries str gstr := by
  rintro ⟨lemmas, final, hseg⟩
  obtain ⟨entry, hentry, hthrough⟩ := (segmentation_iff_through hstr).mp hseg
  exact useless_of_not_prefix (h entry hentry) lemmas final hthrough

theorem smooth_of_begins_none {es : List RawPreverb} {fullpb : Bytes} {Gstr : MorphFlags}
    (h : ∀ entry ∈ es, ¬ entry.raw <+: str) :
    Smooth language entries es str fullpb gstr Gstr := by
  induction es with
  | nil => exact .last
  | cons entry es ih =>
    exact .other (h entry List.mem_cons_self) (ih fun e he => h e (List.mem_cons_of_mem _ he))

end Result

section Expansion
variable (language : ℤ) (table : RawTable) {rawpb : Bytes} (gstr : GkString)

/-- `exp_preverb` finds a segmentation exactly when there is one, and gives its lemmas and its
record, if nothing leads its search astray. -/
theorem expPreverb_complete (haccent : ∀ c ∈ rawpb, isAccent c = false) (hcomma : 44 ∉ rawpb)
    (hlength : rawpb.length < maxWordSize)
    (hsmooth : Smooth language table.entries table.entries rawpb [] gstr noFlags) {depth : ℕ}
    (hdepth : rawpb.length < depth) :
    ∃ found final, expPreverb language table.entries depth rawpb ⟨[], gstr⟩ = some (found, final) ∧
      (found = true ↔ ∃ lemmas g, lemmas ≠ [] ∧
        Segmentation language table.entries rawpb gstr lemmas g) ∧
      (found = true → ∃ lemmas, Segmentation language table.entries rawpb gstr lemmas final.gstr ∧
        final.fullpb = [(44 : Byte)].intercalate lemmas) := by
  by_cases hrawpb : rawpb = []
  · refine ⟨false, ⟨[], gstr⟩, by rw [expPreverb, if_pos hrawpb], ?_, fun h => absurd h (by decide)⟩
    refine ⟨fun h => absurd h (by decide), ?_⟩
    rintro ⟨lemmas, g, hlemmas, hseg⟩
    exact absurd hrawpb ((segmentation_ne_nil hseg).mp hlemmas)
  · have hstrip : stripacc (xstrncpy rawpb maxWordSize) = rawpb := by
      rw [xstrncpy_of_lt hlength]
      exact List.filter_eq_self.mpr fun c hc => by rw [haccent c hc]; rfl
    have hletters : letters rawpb < depth := List.countP_le_length.trans_lt hdepth
    obtain ⟨found, final, hrun, hfound, hbuilt⟩ := hsmooth.placeFinds.rest hletters
    refine ⟨found, final, ?_, hfound.trans ⟨?_, ?_⟩, fun h => ?_⟩
    · rw [expPreverb, if_neg hrawpb, if_neg hcomma, hstrip, hrun]
    · rintro ⟨lemmas, g, hseg⟩
      exact ⟨lemmas, g, (segmentation_ne_nil hseg).mpr hrawpb, hseg⟩
    · rintro ⟨lemmas, g, -, hseg⟩
      exact ⟨lemmas, g, hseg⟩
    · obtain ⟨lemmas, hseg, hfull⟩ := hbuilt h
      exact ⟨lemmas, hseg, hfull.trans (foldl_joinLemma lemmas hseg.lemmas_ne_nil).1⟩

end Expansion

section Examples

/-- An entry without a dialect. -/
def plainEntry (raw pblemma : Bytes) (flags : List ℕ) (hraw : stripbreath (stripacc raw) ≠ [])
    (hpblemma : pblemma ≠ []) : RawPreverb :=
  ⟨raw, pblemma, flags.foldl addMorphflag noFlags, 0, hraw, hpblemma⟩

def paraEntry : RawPreverb := plainEntry (ascii "para") (ascii "para/") [] (by decide) (by decide)

def parEntry : RawPreverb := plainEntry (ascii "par") (ascii "para/") [] (by decide) (by decide)

def anaEntry : RawPreverb := plainEntry (ascii "ana") (ascii "a)na/") [] (by decide) (by decide)

def kapEntry : RawPreverb :=
  plainEntry (ascii "kap") (ascii "kata/") [apocope, poetic] (by decide) (by decide)

def kaEntry : RawPreverb :=
  plainEntry (ascii "ka") (ascii "kata/") [apocope, poetic] (by decide) (by decide)

/-- Some entries of the Greek table in its order. -/
def shortTable : RawTable :=
  ⟨[paraEntry, parEntry, kapEntry, kaEntry, anaEntry], by
    simp only [List.pairwise_cons, List.Pairwise.nil, ← List.isPrefixOf_iff_prefix]
    decide⟩

/-- The string `parana` is `para/` and `a)na/`, which the search finds after it has tried `para`. -/
theorem expPreverb_parana :
    ∃ found final, expPreverb greek shortTable.entries 10 (ascii "parana") ⟨[], .zero⟩ =
        some (found, final) ∧
      (found = true ↔ ∃ lemmas g, lemmas ≠ [] ∧
        Segmentation greek shortTable.entries (ascii "parana") .zero lemmas g) ∧
      (found = true → ∃ lemmas,
        Segmentation greek shortTable.entries (ascii "parana") .zero lemmas final.gstr ∧
        final.fullpb = [(44 : Byte)].intercalate lemmas) := by
  have haccent : ∀ c ∈ ascii "parana", isAccent c = false := by
    intro c hc
    have hall : (ascii "parana").all (fun c => !isAccent c) = true := rfl
    simpa using List.all_eq_true.mp hall c hc
  refine expPreverb_complete greek shortTable .zero haccent (by decide) (by decide) ?_ (by decide)
  have hno (str : Bytes) (entry : RawPreverb) (h : entry.raw.isPrefixOf str = false) :
      ¬ entry.raw <+: str := by
    rw [← List.isPrefixOf_iff_prefix, h]
    decide
  have hna : ∀ entry ∈ shortTable.entries, ¬ entry.raw <+: ascii "na" := by
    simp only [shortTable, List.mem_cons, forall_eq_or_imp, ← List.isPrefixOf_iff_prefix]
    decide
  have hmem : anaEntry ∈ shortTable.entries := by simp [shortTable]
  have hana : Segmentation greek shortTable.entries (anaEntry.raw ++ [])
      (withPreverb .zero parEntry) _ _ := .preverb hmem rfl rfl (.used _)
  have hlast : Smooth greek shortTable.entries shortTable.entries (anaEntry.raw ++ [])
      (ascii "para/") (withPreverb .zero parEntry) noFlags := by
    refine .other (hno _ _ rfl) (.other (hno _ _ rfl) (.other (hno _ _ rfl)
      (.other (hno _ _ rfl) ?_)))
    exact .works rfl rfl rfl .used ⟨_, _, .used _⟩ rfl
  have hpar : Smooth greek shortTable.entries [parEntry, kapEntry, kaEntry, anaEntry]
      (parEntry.raw ++ ascii "ana") [] .zero (combine greek paraEntry (ascii "na") noFlags).pbflags :=
    .works rfl rfl rfl hlast ⟨_, _, hana⟩ rfl
  have hpara : Smooth greek shortTable.entries shortTable.entries (paraEntry.raw ++ ascii "na") []
      .zero noFlags :=
    .fails rfl rfl rfl (smooth_of_begins_none hna) (not_segmentable (by decide) hna) hpar
  exact hpara

/-- The flag that `kap-` sets before `ara` stays when `ka-para` is found. -/
theorem expPreverb_kapara :
    ∃ final, expPreverb greek shortTable.entries 10 (ascii "kapara") ⟨[], .zero⟩ =
        some (true, final) ∧
      ∀ lemmas, ¬ Segmentation greek shortTable.entries (ascii "kapara") .zero lemmas final.gstr := by
  have hstuck (str : Bytes) (h : shortTable.entries.filter (·.raw.isPrefixOf str) = [])
      (hstr : str ≠ []) (gstr : GkString) : ¬ Segmentable greek shortTable.entries str gstr := by
    rintro ⟨lemmas, g, hseg⟩
    obtain ⟨entry, hmem, -⟩ := hseg.begins hstr
    rw [h] at hmem
    exact absurd hmem List.not_mem_nil
  have hpara {lemmas : List Bytes} {g : GkString}
      (h : Segmentation greek shortTable.entries (ascii "para") (withPreverb .zero kaEntry) lemmas g) :
      hasMorphflag g.morphflags unaspPreverb = false := by
    obtain ⟨entry, hmem, hthrough⟩ := h.begins (by decide)
    have hentry : entry ∈ [paraEntry, parEntry] := hmem
    simp only [List.mem_cons, List.not_mem_nil, or_false] at hentry
    rcases hentry with rfl | rfl
    · change Through greek _ paraEntry (paraEntry.raw ++ []) _ _ _ at hthrough
      obtain ⟨-, -, lemmas', final', hseg, -, hg⟩ := through_append_iff.mp hthrough
      have hfinal : final' = withPreverb (withPreverb .zero kaEntry) paraEntry := hseg.final_of_nil
      rw [hg, hfinal]
      rfl
    · change Through greek _ parEntry (parEntry.raw ++ ascii "a") _ _ _ at hthrough
      obtain ⟨-, -, lemmas', final', hseg, -⟩ := through_append_iff.mp hthrough
      exact absurd ⟨lemmas', final', hseg⟩ (hstuck (ascii "a") rfl (by decide) _)
  have hkapara {lemmas : List Bytes} {g : GkString}
      (h : Segmentation greek shortTable.entries (ascii "kapara") .zero lemmas g) :
      hasMorphflag g.morphflags unaspPreverb = false := by
    obtain ⟨entry, hmem, hthrough⟩ := h.begins (by decide)
    have hentry : entry ∈ [kapEntry, kaEntry] := hmem
    simp only [List.mem_cons, List.not_mem_nil, or_false] at hentry
    rcases hentry with rfl | rfl
    · change Through greek _ kapEntry (kapEntry.raw ++ ascii "ara") _ _ _ at hthrough
      obtain ⟨-, -, lemmas', final', hseg, -⟩ := through_append_iff.mp hthrough
      exact absurd ⟨lemmas', final', hseg⟩ (hstuck (ascii "ara") rfl (by decide) _)
    · change Through greek _ kaEntry (kaEntry.raw ++ ascii "para") _ _ _ at hthrough
      obtain ⟨-, -, lemmas', final', hseg, -, rfl⟩ := through_append_iff.mp hthrough
      exact hpara hseg
  exact ⟨_, rfl, fun lemmas h => absurd (hkapara h) (by decide)⟩

end Examples

end Morpheus
