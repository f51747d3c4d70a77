import Morpheus.DerivationSearch
import Morpheus.SpellingRetries

/-!
# Words as long as their buffers

The steps on the way to a lookup copy the word into buffers of its own size, some of them behind a
tag or with a letter more. Here every copy checks its buffer, as the source does not always.
-/
namespace Morpheus

/-- What a long text can do: an access outside a buffer, or a recorded error. -/
inductive LengthFault where
  | outside
  | error
  deriving DecidableEq

section Copies

/-- `Xstrncpy` into a buffer of `maxWordSize` bytes behind its first `offset` bytes. -/
def xstrncpyAt (offset : ℕ) (s : Bytes) (len : ℕ) : Except LengthFault Bytes :=
  if offset + (xstrncpy s len).length < maxWordSize then .ok (xstrncpy s len) else .error .outside

/-- `morpheus_runtime_string_append` -/
def stringAppend (destination source : Bytes) : Except LengthFault Bytes :=
  match appendText destination maxWordSize source with
  | none => .error .error
  | some s => .ok s

/-- `cinsert`, at the place `i` of a word in its buffer. -/
def cinsert (c : Byte) (word : Bytes) (i : ℕ) : Except LengthFault Bytes :=
  if word.length + 1 < maxWordSize then .ok (word.take i ++ c :: word.drop i)
  else .error .outside

def isBreath (c : Byte) : Bool := c == 40 || c == 41

def stripbreath (word : Bytes) : Bytes := word.filter fun c => !isBreath c

/-- The place where `addbreath` inserts a breathing: behind the vowel or the diphthong at the
beginning. -/
def breathPlace (w : Bytes) : ℕ :=
  let c := w.headD 0
  let d := w.tail.headD 0
  if c = 97 ∨ c = 101 ∨ c = 111 then
    if (d = 105 ∨ d = 117) ∧ w.tail.tail.headD 0 ≠ 43 then 2 else 1
  else if c = 119 ∨ c = 104 then if d = 117 then 2 else 1
  else if isVowel c then 1
  else 0

def addbreath (w : Bytes) (c : Byte) : Except LengthFault Bytes :=
  if w = [] then .ok w
  else if isBreath c then cinsert c w (breathPlace w)
  else .ok w

end Copies

/-- The spelling of the input with a breathing, for the retry without accents. -/
def breathRetry (string : Bytes) (c : Byte) : Except LengthFault Bytes :=
  addbreath (stripbreath (xstrncpy string maxWordSize)) c

/-- A text behind the tag of an index. -/
def tagText (tag : Byte) (text : Bytes) : Except LengthFault Bytes :=
  (xstrncpyAt 1 text maxWordSize).map fun s => tag :: s

/-- The tag that `checkendind` searches for. -/
def endingTag (endstr : Bytes) : Except LengthFault Bytes :=
  stringAppend (xstrncpy endstr maxWordSize) [32]

/-- `zap_rr_breath` behind the first letter -/
def zapRrFrom : Bytes → Bytes
  | [] => []
  | c :: s =>
    if c = 114 ∧ s.take 3 = [41, 114, 40] then 114 :: zapRrFrom (114 :: s.drop 3)
    else c :: zapRrFrom s
  termination_by s => s.length
  decreasing_by
  · simp only [List.length_cons, List.length_drop]
    rename_i h
    have hlength := congrArg List.length h.2
    simp only [List.length_take, List.length_cons, List.length_nil] at hlength
    omega
  · simp

/-- `stripmetachars` -/
def stripmetachars (s : Bytes) : Bytes :=
  match (stripzeroend (stripquant s)).filter (· ≠ 45) with
  | [] => []
  | c :: s => c :: zapRrFrom s

section Lookups

/-- `chckirrverb` up to the comparison with the index. -/
def chckirrverbTag (irregstr : Bytes) : Except LengthFault Bytes :=
  (tagText 49 irregstr).bind fun workstem => endingTag (stripacc (stripmetachars workstem))

/-- `chckindecl` up to the comparison with the index. -/
def chckindeclTag (indeclstr : Bytes) : Except LengthFault Bytes :=
  (tagText 50 indeclstr).map fun tmpindecl => stripacc (stripdiaer (stripquant tmpindecl))

/-- `chckderiv` up to the comparison with the index. -/
def chckderivTag (derivstr : Bytes) : Except LengthFault Bytes :=
  (tagText 51 derivstr).bind fun tmpderivstr => endingTag (stripdiaer (stripquant tmpderivstr))

/-- A byte of a word in its buffer, or the NUL behind it. -/
def readByte (word : Bytes) (i : ℤ) : Except LengthFault Byte :=
  if 0 ≤ i ∧ i ≤ word.length then .ok (word.getD i.toNat 0) else .error .outside

/-- What `checkapostr` reads in front of the apostrophe. -/
def checkapostrReads (word : Bytes) : Except LengthFault Unit :=
  let p : ℤ := word.length - 1
  (readByte word p).bind fun c =>
    if c = 39 ∧ 0 < p then
      (readByte word (p - 1)).bind fun d =>
        if d = 113 then (readByte word (p - 2)).map fun _ => () else .ok ()
    else .ok ()

/-- A vowel that `checkapostr` puts in the place of the apostrophe. -/
abbrev ElidedVowel := { vow : Bytes // vow ∈ (elidedVowels 1).map (·.1) }

/-- `add_apostrvowel` with the apostrophe at the end of the word, in buffers. -/
def addVowelAt (word vow : Bytes) : Except LengthFault Bytes :=
  if word = [] then .error .outside
  else
    (xstrncpyAt (word.length - 1) vow maxWordSize).bind fun s =>
      let changed := word.dropLast ++ s
      let accented := if changed.any isAccent then .ok changed else stringAppend changed [47]
      accented.bind fun candidate =>
        if vow.headD 0 = 117 ∨ vow.headD 0 = 105 ∨ vow.headD 0 = 97 then stringAppend candidate [94]
        else .ok candidate

end Lookups

/-- A step on the way to a lookup: a word is respelled, by `set_workword`; the input is given a
breathing; a text is looked up; `checkapostr` looks at the apostrophe of the word, or puts a vowel
in its place. -/
inductive LookupStep where
  | respell (s : Bytes)
  | breath (rough : Bool)
  | irrverb (form : Bytes)
  | indecl (form : Bytes)
  | deriv (form : Bytes)
  | ending (endstr : Bytes)
  | apostrophe
  | vowel (vow : ElidedVowel)

/-- The step on the input and the working word: the working word afterwards. -/
def LookupStep.run (string workword : Bytes) : LookupStep → Except LengthFault Bytes
  | .respell s => .ok (xstrncpy s maxWordSize)
  | .breath rough => breathRetry string (if rough then 40 else 41)
  | .irrverb form => (chckirrverbTag form).map fun _ => workword
  | .indecl form => (chckindeclTag form).map fun _ => workword
  | .deriv form => (chckderivTag form).map fun _ => workword
  | .ending endstr => (endingTag endstr).map fun _ => workword
  | .apostrophe => (checkapostrReads workword).map fun _ => workword
  | .vowel vow => addVowelAt workword vow.val

def runLookups (string : Bytes) : Bytes → List LookupStep → Except LengthFault Bytes
  | workword, [] => .ok workword
  | workword, step :: steps =>
    (step.run string workword).bind fun workword => runLookups string workword steps

/-- The marks that `add_apostrvowel` appends to the word. -/
def vowelMarks (word vow : Bytes) : ℕ :=
  (if (word.dropLast ++ vow).any isAccent then 0 else 1) +
    (if vow.headD 0 = 117 ∨ vow.headD 0 = 105 ∨ vow.headD 0 = 97 then 1 else 0)

/-- There is room for what the step writes, and a byte where it reads. -/
def LookupStep.Fits (string workword : Bytes) : LookupStep → Prop
  | .respell _ => True
  | .breath _ => stripbreath (xstrncpy string maxWordSize) = [] ∨
      (stripbreath (xstrncpy string maxWordSize)).length + 1 < maxWordSize
  | .irrverb form => form.length + 1 < maxWordSize ∧
      (stripacc (stripmetachars (49 :: form))).length + 1 < maxWordSize
  | .indecl form => form.length + 1 < maxWordSize
  | .deriv form => form.length + 1 < maxWordSize ∧
      (stripdiaer (stripquant (51 :: form))).length + 1 < maxWordSize
  | .ending endstr => endstr.length + 1 < maxWordSize
  | .apostrophe => workword ≠ [] ∧ workword ≠ ascii "q'"
  | .vowel vow => workword ≠ [] ∧
      workword.length - 1 + vow.val.length + vowelMarks workword vow.val < maxWordSize

/-- Every step of a run fits the word it finds. -/
def RunFits (string : Bytes) : Bytes → List LookupStep → Prop
  | _, [] => True
  | workword, step :: steps => step.Fits string workword ∧
      ∀ next, step.run string workword = .ok next → RunFits string next steps

section Steps
variable {string word s t vow : Bytes}

def Done {α : Type} (r : Except LengthFault α) : Prop := ∃ a, r = .ok a

theorem done_ok {α : Type} (a : α) : Done (.ok a : Except LengthFault α) := ⟨a, rfl⟩

theorem not_done_error {α : Type} (fault : LengthFault) :
    ¬ Done (.error fault : Except LengthFault α) := by
  rintro ⟨a, h⟩
  cases h

theorem done_map {α β : Type} (f : α → β) (r : Except LengthFault α) : Done (r.map f) ↔ Done r := by
  cases r with
  | error fault => exact iff_of_false (not_done_error fault) (not_done_error fault)
  | ok a => exact iff_of_true (done_ok _) (done_ok a)

theorem stringAppend_done : Done (stringAppend s t) ↔ s.length + t.length < maxWordSize := by
  unfold stringAppend appendText
  by_cases h : s.length ≥ maxWordSize ∨ t.length ≥ maxWordSize - s.length
  · rw [if_pos h]
    exact iff_of_false (not_done_error _) (by omega)
  · rw [if_neg h]
    exact iff_of_true (done_ok _) (by omega)

theorem stringAppend_eq (h : s.length + t.length < maxWordSize) :
    stringAppend s t = .ok (s ++ t) := by
  unfold stringAppend appendText
  rw [if_neg (by omega)]

theorem stringAppend_bind_done (f : Bytes → Except LengthFault Bytes) :
    Done ((stringAppend s t).bind f) ↔ s.length + t.length < maxWordSize ∧ Done (f (s ++ t)) := by
  by_cases h : s.length + t.length < maxWordSize
  · rw [stringAppend_eq h, and_iff_right h]
    rfl
  · refine iff_of_false ?_ fun hdone => h hdone.1
    cases happend : stringAppend s t with
    | error fault => exact not_done_error fault
    | ok a => exact absurd (stringAppend_done.mp ⟨a, happend⟩) h

theorem tagText_eq (tag : Byte) (h : s.length + 1 < maxWordSize) :
    tagText tag s = .ok (tag :: s) := by
  have hcopy : xstrncpy s maxWordSize = s := xstrncpy_of_lt (by omega)
  unfold tagText xstrncpyAt
  rw [hcopy, if_pos (by omega)]
  rfl

theorem tagText_done (tag : Byte) : Done (tagText tag s) ↔ s.length + 1 < maxWordSize := by
  constructor
  · intro h
    by_contra hlong
    have hcopy : maxWordSize ≤ 1 + (xstrncpy s maxWordSize).length := by
      rw [xstrncpy, List.length_take]
      omega
    unfold tagText xstrncpyAt at h
    rw [if_neg (by omega)] at h
    exact not_done_error _ h
  · intro h
    rw [tagText_eq tag h]
    exact done_ok _

theorem endingTag_done : Done (endingTag s) ↔ s.length + 1 < maxWordSize := by
  unfold endingTag
  rw [stringAppend_done, xstrncpy, List.length_take]
  simp only [List.length_singleton, maxWordSize]
  omega

theorem breathRetry_done {c : Byte} (hc : isBreath c = true) :
    Done (breathRetry string c) ↔ stripbreath (xstrncpy string maxWordSize) = [] ∨
      (stripbreath (xstrncpy string maxWordSize)).length + 1 < maxWordSize := by
  unfold breathRetry addbreath cinsert
  generalize stripbreath (xstrncpy string maxWordSize) = w
  by_cases hempty : w = []
  · rw [if_pos hempty]
    exact iff_of_true (done_ok _) (.inl hempty)
  · rw [if_neg hempty, if_pos hc]
    by_cases hroom : w.length + 1 < maxWordSize
    · rw [if_pos hroom]
      exact iff_of_true (done_ok _) (.inr hroom)
    · rw [if_neg hroom]
      exact iff_of_false (not_done_error _) (by tauto)

theorem tagText_bind_done (tag : Byte) (f : Bytes → Except LengthFault Bytes) :
    Done ((tagText tag s).bind f) ↔ s.length + 1 < maxWordSize ∧ Done (f (tag :: s)) := by
  by_cases h : s.length + 1 < maxWordSize
  · rw [tagText_eq tag h, and_iff_right h]
    rfl
  · refine iff_of_false ?_ fun hdone => h hdone.1
    cases htag : tagText tag s with
    | error fault => exact not_done_error fault
    | ok a => exact absurd ((tagText_done tag).mp ⟨a, htag⟩) h

theorem chckirrverbTag_done : Done (chckirrverbTag s) ↔ s.length + 1 < maxWordSize ∧
    (stripacc (stripmetachars (49 :: s))).length + 1 < maxWordSize := by
  rw [chckirrverbTag, tagText_bind_done, endingTag_done]

theorem chckindeclTag_done : Done (chckindeclTag s) ↔ s.length + 1 < maxWordSize := by
  rw [chckindeclTag, done_map, tagText_done]

theorem chckderivTag_done : Done (chckderivTag s) ↔ s.length + 1 < maxWordSize ∧
    (stripdiaer (stripquant (51 :: s))).length + 1 < maxWordSize := by
  rw [chckderivTag, tagText_bind_done, endingTag_done]

theorem readByte_nat {i : ℕ} (h : i ≤ word.length) : readByte word i = .ok (word.getD i 0) :=
  if_pos ⟨by omega, by omega⟩

theorem readByte_done {i : ℤ} : Done (readByte word i) ↔ 0 ≤ i ∧ i ≤ word.length := by
  unfold readByte
  split_ifs with h
  · exact iff_of_true (done_ok _) h
  · exact iff_of_false (not_done_error _) h

theorem checkapostrReads_done :
    Done (checkapostrReads word) ↔ word ≠ [] ∧ word ≠ ascii "q'" := by
  unfold checkapostrReads
  rcases List.eq_nil_or_concat word with rfl | ⟨front, c, rfl⟩
  · exact iff_of_false (not_done_error _) fun h => h.1 rfl
  · have hlength : ((front.concat c).length : ℤ) - 1 = front.length := by simp
    have hlast : readByte (front.concat c) front.length = .ok c := by
      rw [readByte_nat (by simp)]
      simp
    dsimp only
    rw [hlength, hlast]
    change Done (if c = 39 ∧ (0 : ℤ) < front.length then _ else _) ↔ _
    rcases List.eq_nil_or_concat front with rfl | ⟨front, d, rfl⟩
    · rw [if_neg fun h => absurd h.2 (by simp)]
      exact iff_of_true (done_ok _) ⟨by simp, by simp [ascii]⟩
    · have hbefore : (((front.concat d).length : ℕ) : ℤ) - 1 = front.length := by simp
      have hread : readByte ((front.concat d).concat c) front.length = .ok d := by
        rw [readByte_nat (by simp)]
        simp
      have hshort : (front.concat d).concat c = ascii "q'" ↔ front = [] ∧ d = 113 ∧ c = 39 := by
        have hascii : ascii "q'" = ([] : Bytes) ++ [113, 39] := rfl
        rw [hascii, List.concat_eq_append, List.concat_eq_append, List.append_assoc]
        constructor
        · intro h
          obtain ⟨hfront, htail⟩ := List.append_inj' h rfl
          simp only [List.cons_append, List.nil_append, List.cons.injEq, and_true] at htail
          exact ⟨hfront, htail⟩
        · rintro ⟨rfl, rfl, rfl⟩
          rfl
      have hright : ((front.concat d).concat c ≠ [] ∧ (front.concat d).concat c ≠ ascii "q'") ↔
          ¬ (front = [] ∧ d = 113 ∧ c = 39) := by
        rw [ne_eq, ne_eq, hshort, and_iff_right (by simp)]
      rw [hright, hbefore, hread]
      by_cases hc : c = 39
      · rw [if_pos ⟨hc, by simp⟩]
        change Done (if d = 113 then _ else _) ↔ _
        by_cases hd : d = 113
        · rw [if_pos hd, done_map, readByte_done]
          simp only [hc, hd, and_true, List.length_concat, ← List.length_eq_zero_iff]
          omega
        · rw [if_neg hd]
          exact iff_of_true (done_ok _) fun h => hd h.2.1
      · rw [if_neg fun h => hc h.1]
        exact iff_of_true (done_ok _) fun h => hc h.2.2

theorem elidedVowel_length {vow : Bytes} (hvow : vow ∈ (elidedVowels 1).map (·.1)) : vow.length ≤ 2 := by
  have hall : ∀ v ∈ (elidedVowels 1).map (·.1), v.length ≤ 2 := by decide
  exact hall vow hvow

theorem addVowelAt_done (hvow : vow ∈ (elidedVowels 1).map (·.1)) :
    Done (addVowelAt word vow) ↔ word ≠ [] ∧
      word.length - 1 + vow.length + vowelMarks word vow < maxWordSize := by
  have hshort := elidedVowel_length hvow
  have hcopy : xstrncpy vow maxWordSize = vow := xstrncpy_of_lt (by unfold maxWordSize; omega)
  unfold addVowelAt xstrncpyAt vowelMarks
  rw [hcopy]
  by_cases hempty : word = []
  · rw [if_pos hempty]
    exact iff_of_false (not_done_error _) fun h => h.1 hempty
  · rw [if_neg hempty, and_iff_right hempty]
    by_cases hroom : word.length - 1 + vow.length < maxWordSize
    · rw [if_pos hroom]
      have hlength : (word.dropLast ++ vow).length = word.length - 1 + vow.length := by
        rw [List.length_append, List.length_dropLast]
      change Done (Except.bind (if (word.dropLast ++ vow).any isAccent then
        .ok (word.dropLast ++ vow) else stringAppend (word.dropLast ++ vow) [47]) _) ↔ _
      rw [← hlength] at hroom ⊢
      generalize word.dropLast ++ vow = changed at hroom ⊢
      have hmark : ∀ candidate : Bytes, Done (if vow.headD 0 = 117 ∨ vow.headD 0 = 105 ∨
          vow.headD 0 = 97 then stringAppend candidate [94] else .ok candidate) ↔
            (vow.headD 0 = 117 ∨ vow.headD 0 = 105 ∨ vow.headD 0 = 97 →
              candidate.length + 1 < maxWordSize) := by
        intro candidate
        split_ifs with h
        · rw [stringAppend_done, List.length_singleton, forall_prop_of_true h]
        · exact iff_of_true (done_ok _) fun hvowel => absurd hvowel h
      by_cases haccent : changed.any isAccent = true
      · rw [if_pos haccent, if_pos haccent]
        refine (hmark changed).trans ?_
        split_ifs with h
        · simp only [h, forall_const, Nat.zero_add]
        · exact iff_of_true (fun hvowel => absurd hvowel h) hroom
      · rw [if_neg haccent, if_neg haccent, stringAppend_bind_done, hmark]
        split_ifs with h
        · simp only [h, forall_const, List.length_append, List.length_singleton]
          omega
        · exact ⟨fun hdone => hdone.1, fun hfit => ⟨hfit, fun hvowel => absurd hvowel h⟩⟩
    · rw [if_neg hroom]
      exact iff_of_false (not_done_error _) (by omega)

end Steps

/-- A step does what it is to do if and only if it fits. -/
theorem LookupStep.run_done (string workword : Bytes) (step : LookupStep) :
    Done (step.run string workword) ↔ step.Fits string workword := by
  cases step with
  | respell s => exact iff_of_true (done_ok _) trivial
  | breath rough => exact breathRetry_done (by cases rough <;> rfl)
  | irrverb form => exact (done_map _ _).trans chckirrverbTag_done
  | indecl form => exact (done_map _ _).trans chckindeclTag_done
  | deriv form => exact (done_map _ _).trans chckderivTag_done
  | ending endstr => exact (done_map _ _).trans endingTag_done
  | apostrophe => exact (done_map _ _).trans checkapostrReads_done
  | vowel vow => exact addVowelAt_done vow.property

/-- No step of a run leaves a buffer or records an error if and only if every step fits the word it
finds. -/
theorem runLookups_done_iff (string workword : Bytes) (steps : List LookupStep) :
    Done (runLookups string workword steps) ↔ RunFits string workword steps := by
  induction steps generalizing workword with
  | nil => exact iff_of_true (done_ok workword) trivial
  | cons step steps ih =>
    unfold runLookups RunFits
    rw [← LookupStep.run_done]
    cases hstep : step.run string workword with
    | error fault => exact iff_of_false (not_done_error fault) fun h => not_done_error fault h.1
    | ok next =>
      have hrest : (∀ other, (Except.ok next : Except LengthFault Bytes) = .ok other →
          RunFits string other steps) ↔ RunFits string next steps := by
        constructor
        · intro h
          exact h next rfl
        · rintro h other hother
          rw [← Except.ok.inj hother]
          exact h
      rw [hrest, and_iff_right (done_ok next)]
      exact ih next

section Short
variable {string workword : Bytes}

theorem zapRrFrom_length (s : Bytes) : (zapRrFrom s).length ≤ s.length := by
  fun_induction zapRrFrom s with
  | case1 => exact le_rfl
  | case2 c s h ih =>
    simp only [List.length_cons, List.length_drop] at ih ⊢
    have hlength := congrArg List.length h.2
    simp only [List.length_take, List.length_cons, List.length_nil] at hlength
    omega
  | case3 c s h ih =>
    rw [List.length_cons, List.length_cons]
    omega

theorem stripquant_length (s : Bytes) : (stripquant s).length ≤ s.length :=
  (List.length_filter_le _ _).trans (List.length_filter_le _ _)

theorem stripmetachars_length (s : Bytes) : (stripmetachars s).length ≤ s.length := by
  have hquant := stripquant_length s
  have hzero : (stripzeroend (stripquant s)).length ≤ (stripquant s).length := by
    unfold stripzeroend
    split_ifs
    · rw [List.length_dropLast]
      omega
    · exact le_rfl
  have hsep := List.length_filter_le (fun c => decide (c ≠ 45)) (stripzeroend (stripquant s))
  unfold stripmetachars
  generalize (stripzeroend (stripquant s)).filter (fun c => decide (c ≠ 45)) = t at hsep ⊢
  cases t with
  | nil => exact Nat.zero_le _
  | cons c t =>
    have hzap := zapRrFrom_length t
    rw [List.length_cons] at hsep
    simp only [List.length_cons]
    omega

/-- The text that a step looks up. -/
def LookupStep.text : LookupStep → Bytes
  | .irrverb form => form
  | .indecl form => form
  | .deriv form => form
  | .ending endstr => endstr
  | _ => []

/-- Words and texts that are a few bytes shorter than the buffers fit every step, an elided `q'`
apart. -/
theorem LookupStep.fits_of_short (step : LookupStep) (hstring : string.length + 1 < maxWordSize)
    (hword : workword.length + 3 < maxWordSize) (hne : workword ≠ [] ∧ workword ≠ ascii "q'")
    (htext : step.text.length + 2 < maxWordSize) : step.Fits string workword := by
  cases step with
  | respell s => trivial
  | breath rough =>
    have hstrip : (stripbreath (xstrncpy string maxWordSize)).length ≤
        (xstrncpy string maxWordSize).length := List.length_filter_le _ _
    have hcopy : (xstrncpy string maxWordSize).length ≤ string.length := List.length_take_le' _ _
    exact .inr (by omega)
  | irrverb form =>
    have hkey : (stripacc (stripmetachars (49 :: form))).length ≤ form.length + 1 :=
      (List.length_filter_le _ _).trans (stripmetachars_length _)
    change form.length + 2 < maxWordSize at htext
    exact ⟨by omega, by omega⟩
  | indecl form => exact lt_of_le_of_lt (Nat.le_succ _) htext
  | deriv form =>
    have hkey : (stripdiaer (stripquant (51 :: form))).length ≤ form.length + 1 :=
      (List.length_filter_le _ _).trans (stripquant_length _)
    change form.length + 2 < maxWordSize at htext
    exact ⟨by omega, by omega⟩
  | ending endstr => exact lt_of_le_of_lt (Nat.le_succ _) htext
  | apostrophe => exact hne
  | vowel vow =>
    have hshort := elidedVowel_length vow.property
    have hmarks : vowelMarks workword vow.val ≤ 2 := by
      unfold vowelMarks
      split_ifs <;> omega
    have hpos := List.length_pos_iff.mpr hne.1
    exact ⟨hne.1, by omega⟩

end Short

/-- A word of 59 letters writes behind the buffer of the first lookup, and an elided `q'` reads in
front of its own. -/
theorem runLookups_limits :
    runLookups (List.replicate 59 97) (List.replicate 59 97) [.indecl (List.replicate 59 97)] =
        .error .outside ∧
      runLookups (ascii "q'") (ascii "q'") [.apostrophe] = .error .outside := by
  decide

theorem stringAppend_ok {s t r : Bytes} (h : stringAppend s t = .ok r) :
    appendText s maxWordSize t = some r := by
  unfold stringAppend at h
  cases happend : appendText s maxWordSize t with
  | none =>
    rw [happend] at h
    cases h
  | some a =>
    rw [happend] at h
    rw [Except.ok.inj h]

/-- In its buffers `add_apostrvowel` makes the word that the retries look up. -/
theorem addVowelAt_eq {word vow s : Bytes} (hvow : vow ∈ (elidedVowels 1).map (·.1))
    (h : addVowelAt word vow = .ok s) : addApostrvowel word vow = s := by
  have hshort := elidedVowel_length hvow
  have hcopy : xstrncpy vow maxWordSize = vow := xstrncpy_of_lt (by unfold maxWordSize; omega)
  obtain ⟨hne, hroom⟩ := (addVowelAt_done hvow).mp ⟨s, h⟩
  have hchanged : ¬ (word.dropLast ++ vow).length ≥ maxWordSize := by
    rw [List.length_append, List.length_dropLast]
    omega
  unfold addVowelAt xstrncpyAt at h
  rw [hcopy, if_neg hne, if_pos (by omega)] at h
  change Except.bind (if (word.dropLast ++ vow).any isAccent then
    .ok (word.dropLast ++ vow) else stringAppend (word.dropLast ++ vow) [47]) _ = _ at h
  unfold addApostrvowel
  dsimp only
  rw [if_neg hchanged]
  generalize word.dropLast ++ vow = changed at h ⊢
  have hmark : ∀ candidate : Bytes, (if vow.headD 0 = 117 ∨ vow.headD 0 = 105 ∨ vow.headD 0 = 97 then
      stringAppend candidate [94] else .ok candidate) = .ok s →
        (if vow.headD 0 = 117 ∨ vow.headD 0 = 105 ∨ vow.headD 0 = 97 then
          (some candidate).bind fun candidate => appendText candidate maxWordSize [94]
        else some candidate) = some s := by
    intro candidate hcandidate
    split_ifs at hcandidate ⊢
    · exact stringAppend_ok hcandidate
    · rw [Except.ok.inj hcandidate]
  by_cases haccent : changed.any isAccent = true
  · rw [if_pos haccent] at h ⊢
    rw [hmark changed h]
    rfl
  · rw [if_neg haccent] at h ⊢
    cases happend : stringAppend changed [47] with
    | error fault =>
      rw [happend] at h
      cases h
    | ok candidate =>
      rw [happend] at h
      rw [stringAppend_ok happend, hmark candidate h]
      rfl

end Morpheus
