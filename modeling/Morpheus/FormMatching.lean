import Morpheus.FormGeneration

/-!
# Matching forms with the word

`CheckGenWords` compares the generated forms with the word, without quantity marks, diaereses and
breathings behind the first consonant, and adds an analysis for each that agrees.
-/
namespace Morpheus

/-- The loop of `zap_extra_breath`; `extra` when a breathing would be one too many. -/
def zapBreathFrom (extra : Bool) : Bytes → Bytes
  | [] => []
  | c :: s =>
    if isCons c then c :: zapBreathFrom true s
    else if isBreath c then if extra then zapBreathFrom true s else c :: zapBreathFrom true s
    else c :: zapBreathFrom extra s

/-- `zap_extra_breath` -/
def zapExtraBreath (s : Bytes) : Bytes :=
  if s.take 2 = [114, 40] then s.take 2 ++ zapBreathFrom false (s.drop 2) else zapBreathFrom false s

/-- `zap2acc`; `haveacc` behind an accent. -/
def zap2acc (haveacc : Bool) : Bytes → Bytes
  | [] => []
  | c :: s =>
    if isAccent c then if haveacc then zap2acc true s else c :: zap2acc true s
    else c :: zap2acc haveacc s

/-- How `CheckGenWords` spells a word to compare it: `accword`. -/
def accword (gkword : GkWord) : Bytes :=
  stripquant (stripdiaer (zapExtraBreath (xstrncpy gkword.workword (maxWordSize + 1))))

/-- The word that a form is compared with: `checks`. -/
def checksFor (ignoreAccents : Bool) (preverb : Bytes) (gkword form : GkWord) : Bytes :=
  if ignoreAccents then stripacc (stripacute (accword gkword))
  else if hasMorphflag form.stem.morphflags enclitic ∧ preverb = [] then stripacute (accword gkword)
  else accword gkword

/-- A form before its marks are taken off: `curform`. -/
def curform (ignoreAccents : Bool) (form : GkWord) : Bytes :=
  let text := xstrncpy form.workword (maxWordSize + 1)
  zap2acc false (zapExtraBreath (if ignoreAccents then stripacc text else text))

/-- `CheckGenWords` adds an analysis for a form, where `preverb` is that of the first form. -/
def matchesForm (ignoreAccents : Bool) (preverb : Bytes) (gkword form : GkWord) : Bool :=
  let text := curform ignoreAccents form
  !(text.getLast? = some 95 && gkword.workword.getLast? = some 94) &&
    morphstrcmp (stripmetachars (stripdiaer text)) (checksFor ignoreAccents preverb gkword form) == 0 &&
    !(hasMorphflag form.stem.morphflags compOnly && preverb = []) &&
    !(hasMorphflag form.stem.morphflags notInComposition && preverb ≠ [])

/-- The forms that `CheckGenWords` adds analyses for; it looks at the forms up to one without a word. -/
def matchingForms (ignoreAccents : Bool) (gkword : GkWord) (gkforms : List GkWord) : List GkWord :=
  (gkforms.takeWhile fun form => form.workword ≠ []).filter
    (matchesForm ignoreAccents (gkforms.headD .zero).preverb.gkstring gkword)

/-- `poss_thirdmono` -/
def possThirdmono (stemtype : UInt32) (stem endstring : Bytes) : Bool :=
  stemtype &&& decl3 ≠ 0 && (getsyll stem 1).isNone && (getsyll endstring 1).isNone

/-- The dictionary as `checkdict` uses it: what stands in memory before the preverb, the index of
compound verbs, and whether accents are ignored; there is memory for the analyses. -/
structure StemDictionary extends FormTables where
  memory : Bytes
  chckcmpvb : Bytes → Bytes
  ignoreAccents : Bool

/-- What `checkdict` calls. -/
def StemDictionary.generator (dictionary : StemDictionary) : FormGenerator where
  language := dictionary.language
  memory := dictionary.memory
  genStemForms gkword keys := (dictionary.genStemForms gkword keys).bind Prod.fst
  isUltimaAccent morphflags := hasMorphflag morphflags suffAcc
  nsylls := Morpheus.nsylls
  possThirdmono gkword :=
    Morpheus.possThirdmono gkword.stemtype gkword.stem.gkstring gkword.endstring.gkstring
  matching gkword gkforms := (matchingForms dictionary.ignoreAccents gkword gkforms).map fun gkform =>
    ⟨gkform, dictionary.chckcmpvb, true, true, true⟩

section Spelled
variable {c : Byte} {s t : Bytes}

theorem comptab_eq_zero : comptab c = 0 ↔ c = 0 := blankBelow_comptab.separatesNul c

theorem nulFree_iff_spelling : NulFree s ↔ 0 ∉ spelling s := by
  rw [NulFree, not_iff_not, spelling, List.mem_map]
  constructor
  · exact fun h => ⟨0, List.mem_filter.mpr ⟨h, rfl⟩, rfl⟩
  · rintro ⟨c, hc, hzero⟩
    rw [comptab_eq_zero.mp hzero] at hc
    exact (List.mem_filter.mp hc).1

theorem isLetter_comptab (c : Byte) : isLetter (comptab c) = isLetter c := by
  revert c
  refine @forall_byte _ ?_
  decide +kernel

theorem spelling_eq_filter (s : Bytes) : spelling s = (s.map comptab).filter isLetter := by
  rw [spelling, List.filter_map]
  congr 1
  exact List.filter_congr fun c _ => (isLetter_comptab c).symm

/-- Texts that `morphstrcmp` does not tell apart have the same letters. -/
theorem spelling_of_morphstrcmp (hs : NulFree s) (ht : NulFree t) (h : morphstrcmp s t = 0) :
    spelling s = spelling t := by
  have hrank := (strcmpBy_eq_zero blankBelow_comptab.separatesNul hs ht).mp h
  have hmap : s.map comptab = t.map comptab := by
    apply List.map_injective_iff.mpr (fun a b hab => UInt8.toNat_inj.mp hab)
    simpa only [rank, List.map_map, Function.comp_def] using hrank
  rw [spelling_eq_filter, spelling_eq_filter, hmap]

theorem spelling_zapBreathFrom (extra : Bool) (s : Bytes) : spelling (zapBreathFrom extra s) = spelling s := by
  induction s generalizing extra with
  | nil => rfl
  | cons c s ih =>
    rw [zapBreathFrom]
    split
    · rw [spelling_cons, ih, ← spelling_cons]
    · split
      · next hbreath =>
        have hmark : isLetter c = false := by
          rcases (by simpa [isBreath] using hbreath : c = 40 ∨ c = 41) with rfl | rfl <;> rfl
        split
        · rw [ih, spelling_cons_mark hmark]
        · rw [spelling_cons, ih, ← spelling_cons]
      · rw [spelling_cons, ih, ← spelling_cons]

theorem spelling_zapExtraBreath (s : Bytes) : spelling (zapExtraBreath s) = spelling s := by
  unfold zapExtraBreath
  split
  · rw [spelling_append, spelling_zapBreathFrom, ← spelling_append, List.take_append_drop]
  · exact spelling_zapBreathFrom false s

theorem spelling_zap2acc (haveacc : Bool) (s : Bytes) : spelling (zap2acc haveacc s) = spelling s := by
  induction s generalizing haveacc with
  | nil => rfl
  | cons c s ih =>
    rw [zap2acc]
    split
    · next haccent =>
      split
      · rw [ih, spelling_cons_mark (not_letter (.inl haccent))]
      · rw [spelling_cons, ih, ← spelling_cons]
    · rw [spelling_cons, ih, ← spelling_cons]

theorem spelling_zapRrFrom (s : Bytes) : spelling (zapRrFrom s) = spelling s := by
  induction s using zapRrFrom.induct with
  | case1 => rw [zapRrFrom]
  | case2 c s h ih =>
    rw [zapRrFrom, if_pos h, spelling_cons, ih, h.1, spelling_cons 114 s, ← List.take_append_drop 3 s, h.2]
    rfl
  | case3 c s h ih => rw [zapRrFrom, if_neg h, spelling_cons, ih, ← spelling_cons]

theorem spelling_stripmetachars (s : Bytes) : spelling (stripmetachars s) = spelling s := by
  have h : spelling ((stripzeroend (stripquant s)).filter (· ≠ 45)) = spelling s := by
    rw [spelling_filter_ne rfl, stripzeroend_eq, spelling_dropStar, spelling_stripquant]
  unfold stripmetachars
  split
  · next hnil => rw [← h, hnil]
  · next c t hcons => rw [← h, hcons, spelling_cons, spelling_zapRrFrom, ← spelling_cons]

variable {ignoreAccents : Bool} {preverb : Bytes} {gkword form : GkWord}

theorem spelling_accword (h : gkword.workword.length ≤ maxWordSize) :
    spelling (accword gkword) = spelling gkword.workword := by
  rw [accword, spelling_stripquant, spelling_stripdiaer, spelling_zapExtraBreath,
    xstrncpy_of_lt (Nat.lt_succ_of_le h)]

theorem spelling_checksFor (h : gkword.workword.length ≤ maxWordSize) :
    spelling (checksFor ignoreAccents preverb gkword form) = spelling gkword.workword := by
  unfold checksFor
  split_ifs
  · rw [spelling_stripacc, spelling_stripacute, spelling_accword h]
  · rw [spelling_stripacute, spelling_accword h]
  · exact spelling_accword h

theorem spelling_curform (h : form.workword.length ≤ maxWordSize) :
    spelling (curform ignoreAccents form) = spelling form.workword := by
  rw [curform, spelling_zap2acc, spelling_zapExtraBreath, xstrncpy_of_lt (Nat.lt_succ_of_le h)]
  split
  · exact spelling_stripacc _
  · rfl

/-- A form that is taken for the word has its letters. -/
theorem matchesForm_spelling (h : matchesForm ignoreAccents preverb gkword form = true)
    (hword : gkword.workword.length ≤ maxWordSize) (hform : form.workword.length ≤ maxWordSize)
    (hnul : NulFree gkword.workword) (hnul' : NulFree form.workword) :
    spelling form.workword = spelling gkword.workword := by
  have htext : spelling (stripmetachars (stripdiaer (curform ignoreAccents form))) =
      spelling form.workword := by
    rw [spelling_stripmetachars, spelling_stripdiaer, spelling_curform hform]
  have hchecks := @spelling_checksFor ignoreAccents preverb gkword form hword
  unfold matchesForm at h
  simp only [Bool.and_eq_true, beq_iff_eq] at h
  have hsame := spelling_of_morphstrcmp (nulFree_iff_spelling.mpr (htext ▸ nulFree_iff_spelling.mp hnul'))
    (nulFree_iff_spelling.mpr (hchecks ▸ nulFree_iff_spelling.mp hnul)) h.1.1.2
  rw [← htext, hsame, hchecks]

end Spelled

end Morpheus
