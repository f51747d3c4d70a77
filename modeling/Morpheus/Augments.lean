import Morpheus.DerivationExpanders
import Morpheus.RecessiveAccent

/-!
# Augments and reduplications

`augmentit` puts an augment in front of a stem and `unaugment` finds the stems that a form may have
come from; `redupit2` and `un_redupl` do the same with a reduplication.
-/
namespace Morpheus

/-- `HAS_AUGMENT` -/
def hasAugment : ℕ := 26

/-- `RAW_SONANT` -/
def rawSonant : ℕ := 57

section Tables

/-- `augtable` -/
structure AugTable where
  noaug : Bytes
  withaug : Bytes
  augdial : UInt16
  uniqueflag : Bool
  deriving DecidableEq, Repr

/-- A row for all dialects that lets the rows after it match as well. -/
def plainRow (noaug withaug : String) : AugTable := ⟨ascii noaug, ascii withaug, 0, false⟩

/-- `ATTIC|IONIC|EPIC` -/
def atticIonicEpic : UInt16 := 0o2 ||| 0o10 ||| 0o2100

/-- `TempAugments` -/
def tempAugments : List AugTable :=
  [plainRow "ai)" "h)|", plainRow "ai(" "h(|", plainRow "ei)" "h)|", plainRow "ei(" "h(|",
    plainRow "oi)" "w)|", plainRow "oi(" "w(|", plainRow "oi)" "w)|", plainRow "oi(" "w(|",
    plainRow "au)" "hu)", plainRow "au(" "hu(",
    ⟨ascii "au)", ascii "au)", 0o200, false⟩, ⟨ascii "au(", ascii "au(", 0o200, false⟩,
    plainRow "eu)" "hu)", plainRow "eu(" "hu(",
    ⟨ascii "e)e", ascii "e)e", 0o2100, true⟩, ⟨ascii "e(e", ascii "e(e", 0o2100, true⟩,
    ⟨ascii "a)", ascii "h)", atticIonicEpic, false⟩, ⟨ascii "a(", ascii "h(", atticIonicEpic, false⟩,
    ⟨ascii "a)", ascii "a_)", 0o220, false⟩, ⟨ascii "a(", ascii "a_(", 0o220, false⟩,
    plainRow "e)" "h)", plainRow "e(" "h(", plainRow "h(" "h(", plainRow "h)" "h)",
    plainRow "i(" "i_(", plainRow "i)" "i_)", plainRow "o)" "w)", plainRow "o(" "w(",
    plainRow "w)" "w)", plainRow "w(" "w(", plainRow "u)" "u_)", plainRow "u(" "u_(",
    plainRow "ou)" "ou)", plainRow "ou(" "ou("]

/-- `SyllAugments` -/
def syllAugments : List AugTable :=
  [plainRow "i)" "ei)", plainRow "i(" "ei(", plainRow "i)" "e)i", plainRow "i(" "e(i",
    plainRow "oi)w" "oi)w",
    ⟨ascii "e)oi", ascii "e)w|", 0, true⟩, ⟨ascii "e(oi", ascii "e(w|", 0, true⟩,
    plainRow "oi)" "e)w|", plainRow "oi(" "e(w|", plainRow "ei(" "ei(", plainRow "ei)" "ei)",
    plainRow "e)" "ei)", plainRow "e(" "ei(", plainRow "a)" "e)a", plainRow "a(" "e(a",
    plainRow "h)" "e)h", plainRow "h(" "e(h", plainRow "w)" "e)w", plainRow "w(" "e(w",
    plainRow "o)" "e)w", plainRow "o(" "e(w", plainRow "e)" "ei)", plainRow "e(" "ei(",
    plainRow "eu)" "eu)", plainRow "eu(" "eu(", plainRow "ou)" "e)ou", plainRow "ou(" "e(ou"]

end Tables

section Augmenting

/-- `striphyph` -/
def striphyph (s : Bytes) : Bytes := stripchar s 45

/-- The form that a row makes of a stem, `none` when it does not fit in its buffer. -/
def rowForm (row : AugTable) (tmpstem : Bytes) : Option Bytes :=
  let wstart := row.noaug.length + if tmpstem.getD row.noaug.length 0 = 94 then 1 else 0
  appendText (xstrncpy row.withaug maxWordSize) maxWordSize (tmpstem.drop wstart)

/-- The dialect of a record for a row, which is written before the text. -/
def rowDialect (gkform : GkWord) (row : AugTable) : UInt16 :=
  let d := andDialect gkform.dialect row.augdial
  if d ≠ 0 then d else gkform.dialect

/-- The record of a form: `do_syllaug` marks the augment and unmarks the stem. -/
def rowWord (syllabic : Bool) (gkform : GkWord) (row : AugTable) (form : Bytes) : GkWord :=
  let aug1 := { gkform.aug1 with
    gkstring := row.noaug ++ 62 :: row.withaug, dialect := row.augdial }
  { gkform with
    dialect := rowDialect gkform row
    aug1 := if syllabic then { aug1 with morphflags := addMorphflag aug1.morphflags syllAug } else aug1
    stem := if syllabic then
      { gkform.stem with morphflags := zapMorphflag gkform.stem.morphflags syllAug } else gkform.stem
    workword := form }

/-- What augments leave in the records: the forms, the record behind them when it was begun and its
text did not fit, and whether an error was recorded. -/
structure Augmented where
  forms : List GkWord
  stopped : Option GkWord
  failed : Bool

/-- The loop of `do_syllaug` and `do_tempaug` over a table, with room for so many records. -/
def augmentRows (syllabic : Bool) (gkform : GkWord) (tmpstem : Bytes) :
    ℕ → List AugTable → Augmented
  | _, [] => ⟨[], none, false⟩
  | maxaugs, row :: rows =>
    if row.noaug.isPrefixOf tmpstem then
      if negativeDialect (andDialect gkform.dialect row.augdial) then
        augmentRows syllabic gkform tmpstem maxaugs rows
      else
        match rowForm row tmpstem with
        | none => ⟨[], some { gkform with dialect := rowDialect gkform row }, true⟩
        | some form =>
          let others :=
            if maxaugs ≤ 1 ∨ row.uniqueflag then ⟨[], none, false⟩
            else augmentRows syllabic gkform tmpstem (maxaugs - 1) rows
          { others with forms := rowWord syllabic gkform row form :: others.forms }
    else augmentRows syllabic gkform tmpstem maxaugs rows

/-- `do_syllaug` and `do_tempaug` -/
def doAug (syllabic : Bool) (table : List AugTable) (gkform : GkWord) (maxaugs : ℕ) : Augmented :=
  if maxaugs = 0 then ⟨[], none, true⟩
  else augmentRows syllabic gkform (striphyph (xstrncpy gkform.workword maxWordSize)) maxaugs table

/-- `do_syllaug` -/
def doSyllaug : GkWord → ℕ → Augmented := doAug true syllAugments

/-- `do_tempaug` -/
def doTempaug : GkWord → ℕ → Augmented := doAug false tempAugments

/-- The stem of `augmentit` in front of which it puts the augment, and its note of the augment. -/
def beforeAugment (stem : GkString) (aug1 s : Bytes) : Except LengthFault (Bytes × Bytes) :=
  if s.take 2 = [114, 40] then
    .ok (if hasMorphflag stem.morphflags rawSonant then stripbreath s else 114 :: 114 :: s.drop 2,
      ascii "r(>e)rr")
  else if hasMorphflag stem.morphflags syllAugment then
    (cinsert (s.headD 0) s 0).map fun s =>
      (s, s.headD 0 :: 62 :: 101 :: 41 :: s.headD 0 :: [s.headD 0])
  else .ok (s, aug1)

/-- `augmentit`: what it leaves in the records. -/
def augmentit (gkform : GkWord) (syllabic : Bool) (maxaugs : ℕ) : Except LengthFault Augmented :=
  if maxaugs = 0 then .ok ⟨[], none, true⟩
  else if isCons (gkform.workword.headD 0) then
    (beforeAugment gkform.stem gkform.aug1.gkstring gkform.workword).bind fun (s, aug1) =>
      (cinsert 41 s 0).bind fun s =>
        (cinsert 101 s 0).map fun s =>
          ⟨[{ gkform with
            workword := s
            aug1 := { gkform.aug1 with gkstring := if aug1 = [] then ascii "e)" else aug1 } }],
            none, false⟩
  else .ok (if syllabic then doSyllaug gkform maxaugs else doTempaug gkform maxaugs)

end Augmenting

section Unaugmenting

/-- A candidate of `unaugment`, in records that were cleared. -/
structure Unaug where
  possib : GkString
  qpossib : Bytes

/-- The mood of a candidate, unless a reduplication is undone. -/
def withMood (wantredupl : Bool) (gstr : GkString) : GkString :=
  if wantredupl then gstr
  else { gstr with forminfo := { gstr.forminfo with mood := indicative } }

def unaugString (s : Bytes) : GkString := { GkString.zero with gkstring := xstrncpy s maxWordSize }

/-- The candidate of a row: the unaugmented text, and, from `TempAugments`, the text with the
quantity that the augment had. -/
def rowCandidate (syllabic wantredupl : Bool) (row : AugTable) (rest : Bytes) : Option Unaug :=
  (appendText (xstrncpy row.noaug maxWordSize) 128 rest).bind fun tmp =>
    let possib := withMood wantredupl (unaugString tmp)
    if syllabic then
      some ⟨{ possib with
        dialect := row.augdial, morphflags := addMorphflag possib.morphflags syllAugment }, []⟩
    else if stripquant row.withaug ≠ row.withaug then
      (appendText (xstrncpy row.withaug maxWordSize) 128 rest).map fun q =>
        ⟨{ possib with dialect := row.augdial }, xstrncpy q maxWordSize⟩
    else some ⟨possib, []⟩

/-- A loop of `unaugment` over a table, with room for so many candidates, and whether it comes to
its end. -/
def unaugmentRows (syllabic wantredupl : Bool) (s : Bytes) :
    ℕ → List AugTable → List Unaug × Bool
  | _, [] => ([], true)
  | 0, _ :: _ => ([], true)
  | slots + 1, row :: rows =>
    let augnoquant := stripquant (xstrncpy row.withaug maxWordSize)
    if morphstrncmp augnoquant s augnoquant.length = 0 then
      match rowCandidate syllabic wantredupl row (s.drop augnoquant.length) with
      | none => ([], false)
      | some candidate =>
        let rest := unaugmentRows syllabic wantredupl s slots rows
        (candidate :: rest.1, rest.2)
    else unaugmentRows syllabic wantredupl s (slots + 1) rows

/-- `unaugment` -/
def unaugment (s : Bytes) (maxstems : ℕ) (wantsyllaugs wantredupl : Bool) : List Unaug :=
  if maxstems = 0 then []
  else if s.take 4 = ascii "e)rr" then
    match appendText (ascii "r(") maxWordSize (s.drop 4) with
    | none => []
    | some tmp => [⟨withMood wantredupl (unaugString tmp), []⟩]
  else if s.take 3 = ascii "e)r" then
    match appendText (ascii "r(") maxWordSize (s.drop 3) with
    | none => []
    | some tmp =>
      let possib := withMood wantredupl (unaugString tmp)
      [⟨{ possib with morphflags := addMorphflag possib.morphflags rawSonant }, []⟩]
  else if s.take 2 = ascii "e)" ∧ isCons (s.getD 2 0) then
    ⟨withMood wantredupl (unaugString (s.drop 2)), []⟩ ::
      -- a doubled consonant
      if s.getD 2 0 = s.getD 3 0 then
        let possib := unaugString (s.drop 3)
        [⟨{ possib with morphflags := addMorphflag possib.morphflags syllAugment }, []⟩]
      else []
  else
    let temp := unaugmentRows false wantredupl s maxstems tempAugments
    if !temp.2 ∨ !wantsyllaugs then temp.1
    else temp.1 ++ (unaugmentRows true wantredupl s (maxstems - temp.1.length) syllAugments).1

end Unaugmenting
section Rows
variable {syllabic wantredupl : Bool} {gkform form : GkWord} {s tmpstem rest : Bytes}
  {row : AugTable} {rows : List AugTable} {maxaugs slots : ℕ}

theorem augmentRows_form (h : form ∈ (augmentRows syllabic gkform tmpstem maxaugs rows).forms) :
    ∃ row ∈ rows, row.noaug <+: tmpstem ∧
      ∃ text, rowForm row tmpstem = some text ∧ form = rowWord syllabic gkform row text := by
  induction rows generalizing maxaugs with
  | nil => simp [augmentRows] at h
  | cons row rows ih =>
    have hlater : ∀ {n : ℕ}, form ∈ (augmentRows syllabic gkform tmpstem n rows).forms →
        ∃ row' ∈ row :: rows, row'.noaug <+: tmpstem ∧
          ∃ text, rowForm row' tmpstem = some text ∧ form = rowWord syllabic gkform row' text := by
      intro n hmem
      obtain ⟨row', hrow', hfound⟩ := ih hmem
      exact ⟨row', List.mem_cons_of_mem _ hrow', hfound⟩
    rw [augmentRows] at h
    split at h
    · next hprefix =>
      split at h
      · exact hlater h
      · cases hform : rowForm row tmpstem with
        | none => simp [hform] at h
        | some text =>
          rw [hform] at h
          rcases List.mem_cons.mp h with rfl | h
          · exact ⟨row, by simp, List.isPrefixOf_iff_prefix.mp hprefix, text, hform, rfl⟩
          · split at h
            · cases h
            · exact hlater h
    · exact hlater h

/-- The loop records an error exactly when it stops at a row that the stem begins with and whose text
does not fit; the record that it had begun has the dialect of the row and nothing else of it. -/
theorem augmentRows_failed :
    ((augmentRows syllabic gkform tmpstem maxaugs rows).failed = true ↔
      (augmentRows syllabic gkform tmpstem maxaugs rows).stopped ≠ none) ∧
    ∀ record ∈ (augmentRows syllabic gkform tmpstem maxaugs rows).stopped,
      ∃ row ∈ rows, row.noaug <+: tmpstem ∧ rowForm row tmpstem = none ∧
        record = { gkform with dialect := rowDialect gkform row } := by
  induction rows generalizing maxaugs with
  | nil => simp [augmentRows]
  | cons row rows ih =>
    have hlater : ∀ n : ℕ,
        ((augmentRows syllabic gkform tmpstem n rows).failed = true ↔
          (augmentRows syllabic gkform tmpstem n rows).stopped ≠ none) ∧
        ∀ record ∈ (augmentRows syllabic gkform tmpstem n rows).stopped,
          ∃ row' ∈ row :: rows, row'.noaug <+: tmpstem ∧ rowForm row' tmpstem = none ∧
            record = { gkform with dialect := rowDialect gkform row' } := by
      intro n
      refine ⟨ih.1, fun record hrecord => ?_⟩
      obtain ⟨row', hrow', hfound⟩ := ih.2 record hrecord
      exact ⟨row', List.mem_cons_of_mem _ hrow', hfound⟩
    rw [augmentRows]
    split
    · next hprefix =>
      split
      · exact hlater _
      · cases hform : rowForm row tmpstem with
        | none =>
          refine ⟨by simp, fun record hrecord => ?_⟩
          exact ⟨row, List.mem_cons_self, List.isPrefixOf_iff_prefix.mp hprefix, hform,
            (Option.some.inj hrecord).symm⟩
        | some text =>
          dsimp only
          split
          · simp
          · exact hlater _
    · exact hlater _

/-- The texts of a row are short. -/
structure ShortRow (row : AugTable) : Prop where
  noaug : row.noaug.length ≤ 7
  withaug : row.withaug.length ≤ 7

theorem shortRow_of_mem (h : row ∈ tempAugments ++ syllAugments) : ShortRow row := by
  have hall : ∀ row ∈ tempAugments ++ syllAugments,
      row.noaug.length ≤ 7 ∧ row.withaug.length ≤ 7 := by decide +kernel
  exact ⟨(hall row h).1, (hall row h).2⟩

theorem rowCandidate_eq (hrow : ShortRow row) (hrest : rest.length < maxWordSize) :
    ∃ candidate, rowCandidate syllabic wantredupl row rest = some candidate ∧
      candidate.possib.gkstring = xstrncpy (row.noaug ++ rest) maxWordSize := by
  have hnoaug := hrow.noaug
  have hwithaug := hrow.withaug
  have hmood : ∀ gstr : GkString, (withMood wantredupl gstr).gkstring = gstr.gkstring := by
    intro gstr
    cases wantredupl <;> rfl
  simp only [maxWordSize] at hrest
  unfold rowCandidate
  rw [xstrncpy_of_lt (by simp only [maxWordSize]; omega), appendText_of_lt (by omega),
    xstrncpy_of_lt (by simp only [maxWordSize]; omega), appendText_of_lt (by omega)]
  simp only [Option.bind_some, Option.map_some]
  split
  · exact ⟨_, rfl, by simp [hmood, unaugString]⟩
  · split
    · exact ⟨_, rfl, by simp [hmood, unaugString]⟩
    · exact ⟨_, rfl, by simp [hmood, unaugString]⟩

theorem strncmpBy_self (key : Byte → Byte) (a t : Bytes) : strncmpBy key a.length a (a ++ t) = 0 := by
  induction a with
  | nil => rfl
  | cons c a ih => simpa [strncmpBy] using ih

theorem unaugmentRows_end (hrows : ∀ row ∈ rows, ShortRow row) (hs : s.length < maxWordSize) :
    (unaugmentRows syllabic wantredupl s slots rows).2 = true ∧
      (unaugmentRows syllabic wantredupl s slots rows).1.length ≤ rows.length := by
  induction rows generalizing slots with
  | nil => simp [unaugmentRows]
  | cons row rows ih =>
    have hlater := fun n => @ih n fun row' hrow' => hrows row' (by simp [hrow'])
    cases slots with
    | zero => simp [unaugmentRows]
    | succ slots =>
      rw [unaugmentRows]
      dsimp only
      split
      · obtain ⟨candidate, hcandidate, -⟩ := @rowCandidate_eq syllabic wantredupl
          (s.drop (stripquant (xstrncpy row.withaug maxWordSize)).length) row (hrows row (by simp))
          (by rw [List.length_drop]; omega)
        rw [hcandidate]
        exact ⟨(hlater slots).1, by simpa using (hlater slots).2⟩
      · exact ⟨(hlater (slots + 1)).1, (hlater (slots + 1)).2.trans (by simp)⟩

/-- A row whose augment the text has gives a candidate when there are slots for all rows. -/
theorem unaugmentRows_mem (hrows : ∀ row ∈ rows, ShortRow row) (hs : s.length < maxWordSize)
    (hslots : rows.length ≤ slots) (hrow : row ∈ rows) (hrest : s = stripquant row.withaug ++ rest) :
    ∃ candidate ∈ (unaugmentRows syllabic wantredupl s slots rows).1,
      candidate.possib.gkstring = xstrncpy (row.noaug ++ rest) maxWordSize := by
  induction rows generalizing slots with
  | nil => simp at hrow
  | cons first rows ih =>
    have hlater := fun n hn h => @ih n (fun row' hrow' => hrows row' (by simp [hrow'])) hn h
    rw [List.length_cons] at hslots
    cases slots with
    | zero => omega
    | succ slots =>
      rw [unaugmentRows]
      dsimp only
      have hshort := hrows first (by simp)
      obtain ⟨candidate, hcandidate, htext⟩ := @rowCandidate_eq syllabic wantredupl
        (s.drop (stripquant (xstrncpy first.withaug maxWordSize)).length) first hshort
        (by rw [List.length_drop]; omega)
      rw [hcandidate]
      rcases List.mem_cons.mp hrow with rfl | hrow
      · have hcopy : xstrncpy row.withaug maxWordSize = row.withaug :=
          xstrncpy_of_lt (by have := hshort.withaug; simp only [maxWordSize]; omega)
        rw [hcopy, hrest, List.drop_left] at htext
        rw [hcopy, morphstrncmp, hrest, strncmpBy_self, if_pos rfl]
        exact ⟨candidate, by simp, htext⟩
      · split
        · obtain ⟨found, hfound, heq⟩ := hlater slots (by omega) hrow
          exact ⟨found, by simp [hfound], heq⟩
        · exact hlater (slots + 1) (by omega) hrow

end Rows
section DictionaryForm
variable {syllabic wantredupl : Bool} {gkform form : GkWord} {s t stem rest : Bytes}
  {row : AugTable} {maxaugs maxstems : ℕ}

/-- `Is_greek` -/
def isGreek (c : Byte) : Bool :=
  isAlph c || isAccent c || isQuant c || isBreath c || c == 124 || c == 43

/-- A stem as the dictionary has it: Greek letters and diacritics without quantity marks; an
initial rho has the rough breathing, and that is its only one. -/
structure DictionaryStem (s : Bytes) : Prop where
  fits : s.length < maxWordSize
  greek : ∀ c ∈ s, isGreek c = true
  noQuant : ∀ c ∈ s, isQuant c = false
  rho : s.headD 0 = 114 →
    ∃ rest, s = 114 :: 40 :: rest ∧ (∀ c ∈ rest, isBreath c = false) ∧ rest.headD 0 ≠ 114

theorem stripquant_eq_filter (s : Bytes) : stripquant s = s.filter fun c => !isQuant c := by
  rw [stripquant, striplongmark, stripshortmark, List.filter_filter]
  refine List.filter_congr fun c _ => ?_
  rw [Bool.eq_iff_iff]
  simp [isQuant]

theorem stripquant_append (s t : Bytes) : stripquant (s ++ t) = stripquant s ++ stripquant t := by
  simp only [stripquant_eq_filter, List.filter_append]

theorem stripquant_eq_self (h : ∀ c ∈ s, isQuant c = false) : stripquant s = s := by
  rw [stripquant_eq_filter, List.filter_eq_self]
  exact fun c hc => by simp [h c hc]

theorem DictionaryStem.striphyph (h : DictionaryStem s) : striphyph (xstrncpy s maxWordSize) = s := by
  rw [xstrncpy_of_lt h.fits, Morpheus.striphyph, stripchar, List.filter_eq_self]
  intro c hc
  have hgreek := h.greek c hc
  by_contra hhyphen
  rw [Bool.not_eq_true, bne_eq_false_iff_eq] at hhyphen
  rw [hhyphen] at hgreek
  exact absurd hgreek (by decide)

/-- `unaugment` takes the text for one with a syllabic augment in front of a consonant. -/
def beforeConsonant (s : Bytes) : Bool := s.take 2 == [101, 41] && isCons (s.getD 2 0)

theorem rowWithaug (h : row ∈ tempAugments ++ syllAugments) :
    beforeConsonant (stripquant row.withaug ++ t) = false := by
  have hall : ∀ row ∈ tempAugments ++ syllAugments, 2 ≤ (stripquant row.withaug).length ∧
      ((stripquant row.withaug).take 2 = [101, 41] → 3 ≤ (stripquant row.withaug).length ∧
        isCons ((stripquant row.withaug).getD 2 0) = false) := by decide +kernel
  obtain ⟨htwo, hthree⟩ := hall row h
  rw [beforeConsonant, List.take_append_of_le_length htwo]
  by_cases hepsilon : (stripquant row.withaug).take 2 = [101, 41]
  · have hplace : (stripquant row.withaug ++ t).getD 2 0 = (stripquant row.withaug).getD 2 0 := by
      simp [List.getElem?_append_left (show 2 < (stripquant row.withaug).length by have := (hthree hepsilon).1; omega)]
    rw [hplace, (hthree hepsilon).2, Bool.and_false]
  · simp [hepsilon]

theorem unaugment_rows (hrows : beforeConsonant s = false) (hs : s.length < maxWordSize)
    (hslots : maxstems ≠ 0) :
    unaugment s maxstems true wantredupl =
      (unaugmentRows false wantredupl s maxstems tempAugments).1 ++
        (unaugmentRows true wantredupl s
          (maxstems - (unaugmentRows false wantredupl s maxstems tempAugments).1.length)
          syllAugments).1 := by
  have hcons : ¬(s.take 2 = ascii "e)" ∧ isCons (s.getD 2 0)) := by
    rintro ⟨htake, hcons⟩
    have htake' : s.take 2 = [101, 41] := htake
    rw [beforeConsonant, htake', hcons] at hrows
    simp at hrows
  have hrr : s.take 4 ≠ ascii "e)rr" := by
    intro htake
    have hsplit := List.take_append_drop 4 s
    rw [htake] at hsplit
    rw [← hsplit] at hcons
    exact hcons ⟨rfl, (by decide : isCons 114 = true)⟩
  have hr : s.take 3 ≠ ascii "e)r" := by
    intro htake
    have hsplit := List.take_append_drop 3 s
    rw [htake] at hsplit
    rw [← hsplit] at hcons
    exact hcons ⟨rfl, (by decide : isCons 114 = true)⟩
  have hend := (@unaugmentRows_end false wantredupl s tempAugments maxstems
    (fun row hrow => shortRow_of_mem (List.mem_append_left _ hrow)) hs).1
  rw [unaugment, if_neg hslots, if_neg hrr, if_neg hr, if_neg hcons]
  simp [hend]

theorem rowForm_eq (hstem : DictionaryStem (row.noaug ++ rest)) {text : Bytes}
    (h : rowForm row (row.noaug ++ rest) = some text) (hshort : ShortRow row) :
    text = row.withaug ++ rest ∧ text.length < maxWordSize := by
  have hmark : ¬(row.noaug ++ rest).getD row.noaug.length 0 = 94 := by
    cases rest with
    | nil => simp
    | cons c rest =>
      have hquant := hstem.noQuant c (by simp)
      rintro hc
      have hc' : c = 94 := by simpa using hc
      rw [hc'] at hquant
      exact absurd hquant (by decide)
  rw [rowForm, if_neg hmark, Nat.add_zero, List.drop_left, xstrncpy_of_lt (by
    have := hshort.withaug
    simp only [maxWordSize]
    omega)] at h
  exact ⟨appendText_eq h, appendText_length h⟩

/-- The candidates of `unaugment` have the stem of a form that a table made. -/
theorem unaugment_doAug (hstem : DictionaryStem gkform.workword)
    (hslots : tempAugments.length + syllAugments.length ≤ maxstems)
    (hform : form ∈
      (doAug syllabic (if syllabic then syllAugments else tempAugments) gkform maxaugs).forms) :
    ∃ candidate ∈ unaugment (stripquant form.workword) maxstems true wantredupl,
      candidate.possib.gkstring = gkform.workword := by
  rw [doAug, hstem.striphyph] at hform
  split at hform
  · cases hform
  obtain ⟨row, hrow, ⟨rest, hrest⟩, text, htext, hrecord⟩ := augmentRows_form hform
  obtain rfl : form.workword = text := by rw [hrecord, rowWord]
  have hmemRow : row ∈ tempAugments ++ syllAugments := by
    rw [List.mem_append]
    cases syllabic
    · exact .inl hrow
    · exact .inr hrow
  rw [← hrest] at htext hstem
  obtain ⟨hword, hlength⟩ := rowForm_eq hstem htext (shortRow_of_mem hmemRow)
  have hquant : stripquant rest = rest :=
    stripquant_eq_self fun c hc => hstem.noQuant c (by simp [hc])
  have hs : stripquant form.workword = stripquant row.withaug ++ rest := by
    rw [hword, stripquant_append, hquant]
  have hslength : (stripquant form.workword).length < maxWordSize := by
    refine lt_of_le_of_lt ?_ hlength
    rw [stripquant_eq_filter]
    exact List.length_filter_le _ _
  have hcopy : xstrncpy (row.noaug ++ rest) maxWordSize = gkform.workword := by
    rw [xstrncpy_of_lt hstem.fits, hrest]
  have hzero : maxstems ≠ 0 := by
    have : tempAugments.length = 34 := rfl
    omega
  rw [unaugment_rows (by rw [hs]; exact rowWithaug hmemRow) hslength hzero]
  cases syllabic with
  | false =>
    obtain ⟨candidate, hcandidate, heq⟩ := @unaugmentRows_mem false wantredupl _ rest row
      tempAugments maxstems (fun row hrow => shortRow_of_mem (List.mem_append_left _ hrow)) hslength
      (by omega) hrow hs
    exact ⟨candidate, List.mem_append_left _ hcandidate, heq.trans hcopy⟩
  | true =>
    have hused := (@unaugmentRows_end false wantredupl (stripquant form.workword) tempAugments
      maxstems (fun row hrow => shortRow_of_mem (List.mem_append_left _ hrow)) hslength).2
    obtain ⟨candidate, hcandidate, heq⟩ := @unaugmentRows_mem true wantredupl _ rest row
      syllAugments (maxstems - (unaugmentRows false wantredupl (stripquant form.workword) maxstems
        tempAugments).1.length)
      (fun row hrow => shortRow_of_mem (List.mem_append_right _ hrow)) hslength (by omega) hrow hs
    exact ⟨candidate, List.mem_append_right _ hcandidate, heq.trans hcopy⟩

theorem cinsert_ok {c : Byte} {out : Bytes} (h : cinsert c s 0 = .ok out) :
    out = c :: s ∧ out.length < maxWordSize := by
  unfold cinsert at h
  split at h
  · next hlt =>
    simp only [List.take_zero, List.nil_append, List.drop_zero, Except.ok.injEq] at h
    rw [← h]
    exact ⟨rfl, by simpa using hlt⟩
  · simp at h

/-- What `augmentit` can do: nothing without room for a record, put an epsilon in front of a stem with a
consonant, or go through a table. -/
theorem augmentit_cases {augmented : Augmented} (h : augmentit gkform syllabic maxaugs = .ok augmented) :
    augmented = ⟨[], none, true⟩ ∨
      isCons (gkform.workword.headD 0) = true ∧ (∃ before,
        beforeAugment gkform.stem gkform.aug1.gkstring gkform.workword = .ok before ∧
          before.1.length + 2 < maxWordSize ∧
            augmented = ⟨[{ gkform with
              workword := 101 :: 41 :: before.1
              aug1 := { gkform.aug1 with
                gkstring := if before.2 = [] then ascii "e)" else before.2 } }], none, false⟩) ∨
      augmented = doAug syllabic (if syllabic then syllAugments else tempAugments) gkform maxaugs := by
  unfold augmentit at h
  split at h
  · exact .inl (Except.ok.inj h).symm
  split at h
  · next hcons =>
    refine .inr (.inl ⟨hcons, ?_⟩)
    cases hbefore : beforeAugment gkform.stem gkform.aug1.gkstring gkform.workword with
    | error e => simp [hbefore, Except.bind] at h
    | ok before =>
      cases hsmooth : cinsert 41 before.1 0 with
      | error e => simp [hbefore, hsmooth, Except.bind] at h
      | ok smooth =>
        cases hepsilon : cinsert 101 smooth 0 with
        | error e => simp [hbefore, hsmooth, hepsilon, Except.bind, Except.map] at h
        | ok word =>
          simp only [hbefore, hsmooth, hepsilon, Except.bind, Except.map, Except.ok.injEq] at h
          obtain ⟨rfl, -⟩ := cinsert_ok hsmooth
          obtain ⟨rfl, hlength⟩ := cinsert_ok hepsilon
          exact ⟨before, rfl, hlength, h.symm⟩
  · refine .inr (.inr ?_)
    rw [← Except.ok.inj h]
    cases syllabic <;> rfl

/-- The text behind the augment of a stem with a consonant. -/
inductive Prepared (stem : Bytes) : Bytes → Prop
  | rho (rest : Bytes) : stem = 114 :: 40 :: rest → Prepared stem (114 :: 114 :: rest)
  | sonant (rest : Bytes) : stem = 114 :: 40 :: rest → (∀ c ∈ rest, isBreath c = false) →
      rest.headD 0 ≠ 114 → Prepared stem (114 :: rest)
  | doubled (c : Byte) (rest : Bytes) : stem = c :: rest → c ≠ 114 → isCons c = true →
      Prepared stem (c :: stem)
  | plain (c : Byte) (rest : Bytes) : stem = c :: rest → c ≠ 114 → isCons c = true →
      Prepared stem stem

theorem beforeAugment_prepared {gstr : GkString} {aug1 : Bytes} {before : Bytes × Bytes}
    (hstem : DictionaryStem stem) (hcons : isCons (stem.headD 0) = true)
    (h : beforeAugment gstr aug1 stem = .ok before) : Prepared stem before.1 := by
  unfold beforeAugment at h
  split at h
  · next hrho =>
    have hhead : stem.headD 0 = 114 := by
      cases stem with
      | nil => simp at hrho
      | cons c s => simpa using (List.cons.inj hrho).1
    obtain ⟨rest, hrest, hbreath, hnext⟩ := hstem.rho hhead
    rw [Except.ok.injEq] at h
    rw [← h]
    dsimp only
    split
    · have hstrip : stripbreath stem = 114 :: rest := by
        rw [hrest, stripbreath, List.filter_cons_of_pos (by decide),
          List.filter_cons_of_neg (by decide), List.filter_eq_self.mpr]
        exact fun c hc => by simp [hbreath c hc]
      rw [hstrip]
      exact .sonant rest hrest hbreath hnext
    · rw [hrest]
      exact .rho rest rfl
  · next hrho =>
    cases stem with
    | nil => exact absurd hcons (by decide)
    | cons c s =>
      rw [List.headD_cons] at hcons
      have hc : c ≠ 114 := by
        rintro rfl
        obtain ⟨rest, hrest, -⟩ := hstem.rho rfl
        rw [hrest] at hrho
        exact hrho rfl
      split at h
      · cases hdouble : cinsert c (c :: s) 0 with
        | error e => simp [hdouble, Except.map] at h
        | ok doubled =>
          simp only [List.headD_cons, hdouble, Except.map, Except.ok.injEq] at h
          rw [← h, (cinsert_ok hdouble).1]
          exact .doubled c s rfl hc hcons
      · rw [Except.ok.injEq] at h
        rw [← h]
        exact .plain c s rfl hc hcons

/-- A form of `augmentit` has an epsilon in front of its stem, or is one of a table. -/
theorem augmentit_form (hstem : DictionaryStem gkform.workword) {augmented : Augmented}
    (hforms : augmentit gkform syllabic maxaugs = .ok augmented) (hform : form ∈ augmented.forms) :
    (∃ t, Prepared gkform.workword t ∧ form.workword = 101 :: 41 :: t ∧
      form.workword.length < maxWordSize) ∨
    form ∈ (doAug syllabic (if syllabic then syllAugments else tempAugments) gkform maxaugs).forms := by
  rcases augmentit_cases hforms with rfl | ⟨hcons, before, hbefore, hlength, rfl⟩ | rfl
  · cases hform
  · obtain rfl := List.mem_singleton.mp hform
    exact .inl ⟨before.1, beforeAugment_prepared hstem hcons hbefore, rfl, hlength⟩
  · exact .inr hform

theorem withMood_gkstring (wantredupl : Bool) (gstr : GkString) :
    (withMood wantredupl gstr).gkstring = gstr.gkstring := by
  cases wantredupl <;> rfl

theorem err_eq : ascii "e)rr" = [101, 41, 114, 114] ∧ ascii "e)r" = [101, 41, 114] := by decide

theorem Prepared.mem (h : Prepared stem t) {c : Byte} (hc : c ∈ t) : c = 114 ∨ c ∈ stem := by
  cases h with
  | rho rest hrest =>
    rw [hrest]
    simp only [List.mem_cons] at hc ⊢
    tauto
  | sonant rest hrest =>
    rw [hrest]
    simp only [List.mem_cons] at hc ⊢
    tauto
  | doubled d rest hrest =>
    rcases List.mem_cons.mp hc with rfl | hc
    · exact .inr (by simp [hrest])
    · exact .inr hc
  | plain => exact .inr hc

theorem unaugment_cons {c : Byte} (hc : isCons c = true) (hne : c ≠ 114) (hslots : maxstems ≠ 0) :
    unaugment (101 :: 41 :: c :: t) maxstems true wantredupl =
      ⟨withMood wantredupl (unaugString (c :: t)), []⟩ ::
        if c = t.headD 0 then
          [⟨{ unaugString t with
            morphflags := addMorphflag (unaugString t).morphflags syllAugment }, []⟩]
        else [] := by
  have hrr : (101 :: 41 :: c :: t : Bytes).take 4 ≠ ascii "e)rr" := by
    intro h
    rw [err_eq.1] at h
    cases t <;> simp_all
  have hr : (101 :: 41 :: c :: t : Bytes).take 3 ≠ ascii "e)r" := by
    intro h
    rw [err_eq.2] at h
    simp_all
  have hhead : (101 :: 41 :: c :: t : Bytes).getD 3 0 = t.headD 0 := by cases t <;> rfl
  rw [unaugment, if_neg hslots, if_neg hrr, if_neg hr, if_pos ⟨rfl, hc⟩, hhead]
  rfl

theorem unaugment_prepared (hstem : DictionaryStem stem) (hprepared : Prepared stem t)
    (hlength : (101 :: 41 :: t : Bytes).length < maxWordSize) (hslots : maxstems ≠ 0) :
    ∃ candidate ∈ unaugment (stripquant (101 :: 41 :: t)) maxstems true wantredupl,
      candidate.possib.gkstring = stem := by
  have hquant : ∀ c ∈ 101 :: 41 :: t, isQuant c = false := by
    intro c hc
    rw [List.mem_cons, List.mem_cons] at hc
    rcases hc with rfl | rfl | hc
    · decide
    · decide
    · rcases hprepared.mem hc with rfl | hc
      · decide
      · exact hstem.noQuant c hc
  rw [stripquant_eq_self hquant]
  have hcopy := xstrncpy_of_lt hstem.fits
  cases hprepared with
  | rho rest hrest =>
    have hlt : (ascii "r(").length + rest.length < maxWordSize := by
      have hfits := hstem.fits
      have hr : (ascii "r(").length = 2 := rfl
      rw [hrest, List.length_cons, List.length_cons] at hfits
      omega
    refine ⟨⟨withMood wantredupl (unaugString stem), []⟩, ?_, by rw [withMood_gkstring]; exact hcopy⟩
    rw [unaugment, if_neg hslots, if_pos (by rw [err_eq.1]; rfl)]
    have hdrop : (101 :: 41 :: 114 :: 114 :: rest : Bytes).drop 4 = rest := rfl
    rw [hdrop, appendText_of_lt hlt]
    rw [hrest]
    exact List.mem_singleton.mpr rfl
  | sonant rest hrest _ hnext =>
    have hlt : (ascii "r(").length + rest.length < maxWordSize := by
      have hfits := hstem.fits
      have hr : (ascii "r(").length = 2 := rfl
      rw [hrest, List.length_cons, List.length_cons] at hfits
      omega
    have hrr : (101 :: 41 :: 114 :: rest : Bytes).take 4 ≠ ascii "e)rr" := by
      intro h
      rw [err_eq.1] at h
      cases rest <;> simp_all
    rw [unaugment, if_neg hslots, if_neg hrr, if_pos (by rw [err_eq.2]; rfl)]
    have hdrop : (101 :: 41 :: 114 :: rest : Bytes).drop 3 = rest := rfl
    rw [hdrop, appendText_of_lt hlt]
    refine ⟨_, List.mem_singleton.mpr rfl, ?_⟩
    dsimp only
    rw [withMood_gkstring, hrest]
    rw [hrest] at hcopy
    exact hcopy
  | doubled c rest hrest hc hcons =>
    rw [unaugment_cons hcons hc hslots, if_pos (by rw [hrest]; rfl)]
    exact ⟨_, List.mem_cons_of_mem _ (List.mem_singleton.mpr rfl), hcopy⟩
  | plain c rest hrest hc hcons =>
    rw [hrest, unaugment_cons hcons hc hslots, ← hrest]
    exact ⟨_, List.mem_cons_self, by rw [withMood_gkstring]; exact hcopy⟩

/-- Every form that `augmentit` makes of a stem of the dictionary leads `unaugment` back to that
stem. -/
theorem unaugment_augmentit (gkform form : GkWord) (augmented : Augmented) (syllabic wantredupl : Bool)
    (maxaugs maxstems : ℕ) (hstem : DictionaryStem gkform.workword)
    (hforms : augmentit gkform syllabic maxaugs = .ok augmented) (hform : form ∈ augmented.forms)
    (hslots : tempAugments.length + syllAugments.length ≤ maxstems) :
    ∃ candidate ∈ unaugment (stripquant form.workword) maxstems true wantredupl,
      candidate.possib.gkstring = gkform.workword := by
  rcases augmentit_form hstem hforms hform with ⟨t, hprepared, hword, hlength⟩ | hform
  · rw [hword] at hlength ⊢
    have hrows : tempAugments.length = 34 := rfl
    exact unaugment_prepared hstem hprepared hlength (by omega)
  · exact unaugment_doAug hstem hslots hform

/-- The stem of *a)/gw*: its augment is eta, or in Doric and Aeolic a long alpha. -/
def leadStem : GkWord := { GkWord.zero with workword := ascii "a)g" }

/-- The stem of *r(i/ptw*, whose rho is doubled behind the augment. -/
def throwStem : GkWord := { GkWord.zero with workword := ascii "r(ip" }

theorem unaugment_augmentit_lead :
    (∃ candidate ∈ unaugment (stripquant (ascii "h)g")) 61 true false,
        candidate.possib.gkstring = ascii "a)g") ∧
      (∃ candidate ∈ unaugment (stripquant (ascii "a_)g")) 61 true false,
        candidate.possib.gkstring = ascii "a)g") ∧
      ∃ candidate ∈ unaugment (stripquant (ascii "e)rrip")) 61 true false,
        candidate.possib.gkstring = ascii "r(ip" := by
  have hlead : DictionaryStem leadStem.workword :=
    ⟨by decide, by decide +kernel, by decide +kernel, fun h => absurd h (by decide)⟩
  have hthrow : DictionaryStem throwStem.workword :=
    ⟨by decide, by decide +kernel, by decide +kernel,
      fun _ => ⟨ascii "ip", by decide, by decide +kernel, by decide⟩⟩
  have hback : ∀ (gkform : GkWord) (texts : List Bytes), DictionaryStem gkform.workword →
      (augmentit gkform false 8).toOption.map (·.forms.map (·.workword)) = some texts →
        ∀ text ∈ texts, ∃ candidate ∈ unaugment (stripquant text) 61 true false,
          candidate.possib.gkstring = gkform.workword := by
    intro gkform texts hstem htexts text htext
    cases hforms : augmentit gkform false 8 with
    | error fault =>
      rw [hforms] at htexts
      cases htexts
    | ok augmented =>
      rw [hforms] at htexts
      obtain rfl := Option.some.inj htexts
      obtain ⟨form, hform, rfl⟩ := List.mem_map.mp htext
      exact unaugment_augmentit gkform form augmented false false 8 61 hstem hforms hform (by decide)
  have hwords := hback leadStem [ascii "h)g", ascii "a_)g"] hlead (by decide +kernel)
  exact ⟨hwords _ List.mem_cons_self, hwords _ (List.mem_cons_of_mem _ List.mem_cons_self),
    hback throwStem [ascii "e)rrip"] hthrow (by decide +kernel) _ List.mem_cons_self⟩

end DictionaryForm
section Reduplication
variable {gkform form : GkWord} {stem : Bytes} {redupc : Byte}

/-- `Is_liquid` -/
def isLiquid (c : Byte) : Bool := c == 114 || c == 108

/-- `redupit2` puts an augment in front of the stem instead of a reduplication. -/
def augmentsInstead (s : Bytes) (redupc : Byte) : Bool :=
  let c := s.headD 0
  let d := s.tail.headD 0
  isCons c && isCons d && !isLiquid d && redupc != 105 || (c == 122 || c == 99 || c == 121) ||
    (isVowel c || c == 114) || (s.take 2 == ascii "gn" || s.take 2 == ascii "gl") && redupc != 105

/-- The consonant of a reduplication. -/
def redupCons (c : Byte) : Byte := if c = 113 then 116 else if c = 120 then 107 else if c = 102 then 112 else c

/-- `redupit2` -/
def redupit2 (gkform : GkWord) (syllabic : Bool) (redupc : Byte) (nredups : ℕ) :
    Except LengthFault Augmented :=
  let s := gkform.workword
  if augmentsInstead s redupc then augmentit gkform syllabic nredups
  else
    (cinsert redupc s 0).bind fun s' =>
      (cinsert (redupCons (s.headD 0)) s' 0).map fun s' =>
        ⟨[{ gkform with workword := s' }], none, false⟩

theorem plain_of_cons (c : Byte) (h : isCons c = true) : isAccent c = false ∧ isAccent (redupCons c) = false := by
  revert c
  refine @forall_byte _ ?_
  decide +kernel

theorem redupit2_adds {syllabic : Bool} {nredups : ℕ} (hadds : augmentsInstead gkform.workword redupc = false)
    {redupls : Augmented} (h : redupit2 gkform syllabic redupc nredups = .ok redupls)
    (hform : form ∈ redupls.forms) :
    form.workword = redupCons (gkform.workword.headD 0) :: redupc :: gkform.workword ∧
      form.workword.length < maxWordSize := by
  unfold redupit2 at h
  dsimp only at h
  rw [if_neg (by rw [hadds]; simp)] at h
  cases hvowel : cinsert redupc gkform.workword 0 with
  | error e => simp [hvowel, Except.bind] at h
  | ok s =>
    cases hcons : cinsert (redupCons (gkform.workword.headD 0)) s 0 with
    | error e => simp only [hvowel, hcons, Except.bind, Except.map, reduceCtorEq] at h
    | ok word =>
      simp only [hvowel, hcons, Except.bind, Except.map, Except.ok.injEq] at h
      rw [← h, List.mem_singleton] at hform
      obtain ⟨rfl, -⟩ := cinsert_ok hvowel
      obtain ⟨hword, hlength⟩ := cinsert_ok hcons
      exact ⟨by rw [hform, hword], by rw [hform]; exact hlength⟩

/-- `un_redupl` copies what follows the first two bytes, an accent included. -/
theorem unRedupl_accented (hcons : isCons (stem.headD 0) = true) (hvowel : isVowel redupc = true)
    (accent : Option Byte) (haccent : ∀ a ∈ accent, isAccent a = true) :
    unRedupl (redupCons (stem.headD 0) :: redupc :: (accent.toList ++ stem)) redupc =
      some (xstrncpy (accent.toList ++ stem) maxWordSize) := by
  cases stem with
  | nil => exact absurd hcons (by decide)
  | cons c s =>
    rw [List.headD_cons] at hcons ⊢
    obtain ⟨hplain, hredup⟩ := plain_of_cons c hcons
    have hvowel' : isAccent redupc = false := by
      by_contra h
      rw [Bool.not_eq_false] at h
      rw [not_vowel_of_accent h] at hvowel
      simp at hvowel
    have hsbuf : ∃ rest, stripacc (xstrncpy (redupCons c :: redupc :: (accent.toList ++ c :: s))
        maxWordSize) = redupCons c :: redupc :: c :: rest := by
      cases accent with
      | none => exact ⟨_, by simp [xstrncpy, maxWordSize, stripacc, hplain, hredup, hvowel']; rfl⟩
      | some a =>
        have ha : isAccent a = true := haccent a rfl
        exact ⟨_, by simp [xstrncpy, maxWordSize, stripacc, hplain, hredup, hvowel', ha]; rfl⟩
    obtain ⟨rest, hrest⟩ := hsbuf
    unfold unRedupl
    rw [hrest]
    simp [redupCons]

/-- `un_redupl` gives back the stem that `redupit2` reduplicated exactly when no accent is written
on the reduplication. -/
theorem unRedupl_redupit2_iff (gkform form : GkWord) (redupls : Augmented) (syllabic : Bool)
    (redupc : Byte) (nredups : ℕ) (accent : Option Byte)
    (hcons : isCons (gkform.workword.headD 0) = true) (hvowel : isVowel redupc = true)
    (hadds : augmentsInstead gkform.workword redupc = false)
    (hforms : redupit2 gkform syllabic redupc nredups = .ok redupls) (hform : form ∈ redupls.forms)
    (haccent : ∀ a ∈ accent, isAccent a = true) :
    unRedupl (form.workword.take 2 ++ accent.toList ++ form.workword.drop 2) redupc =
      some gkform.workword ↔ accent = none := by
  obtain ⟨hword, hlength⟩ := redupit2_adds hadds hforms hform
  rw [hword] at hlength ⊢
  have hshape := unRedupl_accented hcons hvowel accent haccent
  simp only [List.take_succ_cons, List.take_zero, List.cons_append, List.nil_append,
    List.drop_succ_cons, List.drop_zero] at hshape ⊢
  rw [hshape, Option.some.injEq]
  cases accent with
  | none =>
    have hcopy : xstrncpy gkform.workword maxWordSize = gkform.workword :=
      xstrncpy_of_lt (by simp only [List.length_cons] at hlength; omega)
    simp [hcopy]
  | some a =>
    have hcopy : xstrncpy (a :: gkform.workword) maxWordSize = a :: gkform.workword :=
      xstrncpy_of_lt (by simp only [List.length_cons] at hlength ⊢; omega)
    simp [hcopy]

/-- The stem of *lu/w*. -/
def loosen : GkWord := { GkWord.zero with workword := ascii "lu" }

theorem unRedupl_redupit2_iff_loosen : unRedupl (ascii "lelu") 101 = some (ascii "lu") :=
  (unRedupl_redupit2_iff loosen { loosen with workword := ascii "lelu" } _ false 101 1 none
    (by decide) (by decide) (by decide +kernel) rfl (List.mem_singleton.mpr rfl) (by simp)).mpr rfl

/-- The accent of an accented reduplication stays in front of the stem. -/
theorem unRedupl_keepsAccent : ¬∀ (gkform form : GkWord) (redupc : Byte) (accent : Option Byte),
    isCons (gkform.workword.headD 0) = true → isVowel redupc = true →
    augmentsInstead gkform.workword redupc = false →
    redupit2 gkform false redupc 1 = .ok ⟨[form], none, false⟩ → (∀ a ∈ accent, isAccent a = true) →
    unRedupl (form.workword.take 2 ++ accent.toList ++ form.workword.drop 2) redupc =
      some gkform.workword := by
  intro h
  have heq := h loosen { loosen with workword := ascii "lelu" } 101 (some 47) (by decide) (by decide)
    (by decide +kernel) rfl (by simp [isAccent])
  exact absurd heq (by decide +kernel)

end Reduplication

end Morpheus
