import Morpheus.InputLength

/-!
# Syllables and accents

`getsyll` finds the vowels of the last three syllables from the end of a word; `addaccent` writes
an accent on one of them, and `getaccent`, `checkaccent` and `stripacc` find it again.
-/
namespace Morpheus

theorem forall_byte {P : Byte → Prop} (h : ∀ n : Fin 256, P (UInt8.ofNat n)) (c : Byte) : P c := by
  have hc := h ⟨c.toNat, c.toNat_lt⟩
  simpa using hc

theorem isVowel_tolower (c : Byte) : isVowel (tolower c) = isVowel c := by
  revert c
  refine @forall_byte _ ?_
  decide +kernel

theorem isVowel_of_diphthong {c : Byte} (h : tolower c = 105 ∨ tolower c = 117) : isVowel c = true := by
  rw [← isVowel_tolower]
  rcases h with h | h <;> rw [h] <;> decide

section Definitions

/-- `getsyll` on the bytes up to a position, from the last one on. -/
def getsyllFrom (syll : ℕ) : Bytes → Bytes → ℕ → Option ℕ
  | [], _, _ => none
  | c :: rev, after, syllcount =>
    if isVowel c then
      if syllcount = syll then some rev.length
      else getsyllFrom syll rev (c :: after)
        (if isDiphth rev.reverse c after then syllcount else syllcount + 1)
    else getsyllFrom syll rev (c :: after) syllcount

/-- `getsyll`: the place of the vowel of a syllable, counted from the end. -/
def getsyll (word : Bytes) (syll : ℕ) : Option ℕ :=
  if 2 < syll then none else getsyllFrom syll word.reverse [] 0

/-- The place behind a vowel and the breathings and quantity marks on it. -/
def behindMarks (word : Bytes) (p : ℕ) : ℕ :=
  p + 1 + ((word.drop (p + 1)).takeWhile isBreathOrQuant).length

/-- `getaccp` -/
def getaccp (word : Bytes) (syll : ℕ) : Option ℕ := (getsyll word syll).map (behindMarks word)

/-- `getaccent`; `C_ERR` where there is no such syllable, `NOACCENT` where it has no accent. -/
def getaccent (word : Bytes) (syll : ℕ) : Byte :=
  match getaccp word syll with
  | none => 255
  | some p => if isAccent (word.getD p 0) then word.getD p 0 else 32

/-- `is_diphth` at a place of the word. -/
def isDiphthAt (word : Bytes) (p : ℕ) : Bool :=
  isDiphth (word.take p) (word.getD p 0) (word.drop (p + 1))

/-- The place is that of a capital letter behind `*` and a breathing, or of the second vowel of a
diphthong that it begins. -/
def onCapital (word : Bytes) (p : ℕ) : Bool :=
  word.headD 0 == 42 && isBreath (word.getD 1 0) && (p == 2 || p == 3 && isDiphthAt word p)

/-- `addaccent` at a place of the word. The accent of a capital letter comes before it; a circumflex
takes the place of a long mark. -/
def addaccent (word : Bytes) (accent : Byte) (p : ℕ) : Bytes :=
  if word.length ≤ p then word
  else if onCapital word p then word.take 2 ++ accent :: word.drop 2
  else
    let p := behindMarks word p
    if accent = 61 ∧ word.getD (p - 1) 0 = 95 then word.take (p - 1) ++ accent :: word.drop p
    else word.take p ++ accent :: word.drop p

/-- `naccents` -/
def naccents (word : Bytes) : ℕ := word.countP isAccent

/-- `checkaccent`: the syllable and the accent on it. -/
def checkaccent (word : Bytes) : Option (ℕ × Byte) :=
  if isAccent (getaccent word 0) then some (0, getaccent word 0)
  else if isAccent (getaccent word 1) then some (1, getaccent word 1)
  else if isAccent (getaccent word 2) then some (2, getaccent word 2)
  else none

/-- `stripacc` from the last byte on: the word that is left and the syllable of its last accent,
counted from 1. -/
def stripaccFrom : Bytes → Bytes → ℕ → Bytes × ℕ
  | [], after, rval => (after, rval)
  | c :: rev, after, rval =>
    if isAccent c then stripaccFrom rev after (if rval = 0 then nsylls (c :: after) + 1 else rval)
    else stripaccFrom rev (c :: after) rval

/-- The syllable that `stripacc` returns. -/
def strippedSyll (word : Bytes) : ℕ := (stripaccFrom word.reverse [] 0).2

end Definitions

section Scan
variable {before before' rest word : Bytes} {c : Byte} {syll : ℕ}

theorem isDiphth_congr (h : before.getLast? = before'.getLast?) :
    isDiphth before c rest = isDiphth before' c rest := by
  simp only [isDiphth, h]

theorem nsyllsFrom_congr (h : before.getLast? = before'.getLast?) (s : Bytes) :
    nsyllsFrom before s = nsyllsFrom before' s := by
  cases s with
  | nil => rfl
  | cons c s =>
    rw [nsyllsFrom, nsyllsFrom, isDiphth_congr h]
    congr 1
    induction s generalizing before before' c with
    | nil => rfl
    | cons d s ih =>
      have hlast : (before ++ [c]).getLast? = (before' ++ [c]).getLast? := by simp
      rw [nsyllsFrom, nsyllsFrom, isDiphth_congr hlast, ih hlast]

theorem isVowel_of_isDiphth (h : isDiphth before c rest = true) : isVowel c = true := by
  unfold isDiphth at h
  split at h
  · simp at h
  · simp only [Bool.and_eq_true, Bool.or_eq_true, beq_iff_eq] at h
    exact isVowel_of_diphthong h.1.1.1

theorem isDiphth_behind (h : isVowel c = false) (d : Byte) :
    isDiphth (before ++ [c]) d rest = false := by
  unfold isDiphth
  simp [isVowel_tolower, h]

theorem isDiphth_zero : isDiphth before 0 rest = false := by
  unfold isDiphth
  split <;> simp [tolower]

theorem nsyllsFrom_behind (s t : Bytes) : nsyllsFrom (before ++ s) t ≤ nsyllsFrom before (s ++ t) := by
  induction s generalizing before with
  | nil => simp
  | cons c s ih =>
    have hrest := @ih (before ++ [c])
    rw [List.append_assoc, List.singleton_append] at hrest
    rw [List.cons_append, nsyllsFrom]
    omega

/-- A vowel counts, or a vowel before it does. -/
theorem nsyllsFrom_vowel {s t : Bytes} (hvowel : isVowel c = true)
    (hfirst : isDiphth before ((s ++ [c]).headD 0) ((s ++ c :: t).tail) = false) :
    nsyllsFrom (before ++ s ++ [c]) t < nsyllsFrom before (s ++ c :: t) := by
  induction s generalizing before with
  | nil =>
    rw [List.nil_append] at hfirst
    simp only [List.headD_cons, List.nil_append, List.tail_cons] at hfirst
    rw [List.nil_append, nsyllsFrom, hvowel, hfirst, List.append_nil]
    simp
  | cons d s ih =>
    rw [List.cons_append, nsyllsFrom]
    have hassoc : before ++ d :: s = before ++ [d] ++ s := by simp
    by_cases hd : isVowel d = true
    · simp only [List.cons_append, List.headD_cons, List.tail_cons] at hfirst
      have hrest := @nsyllsFrom_behind (before ++ [d]) (s ++ [c]) t
      have hshape : s ++ [c] ++ t = s ++ c :: t := by simp
      rw [hshape, ← List.append_assoc, ← hassoc] at hrest
      rw [hd, hfirst]
      simp only [Bool.not_false, Bool.and_self, if_true]
      omega
    · have hrest := @ih (before ++ [d]) (isDiphth_behind (Bool.eq_false_iff.mpr hd) _)
      rw [← hassoc] at hrest
      omega

end Scan

section Places
variable {rest word pre post : Bytes} {c v : Byte} {syll p : ℕ}

/-- The word split at the vowel that `getsyll` finds for a syllable: so many syllables follow it,
and it is not the first vowel of a diphthong. -/
structure SyllableAt (word : Bytes) (syll : ℕ) (pre : Bytes) (v : Byte) (post : Bytes) : Prop where
  split : word = pre ++ v :: post
  vowel : isVowel v = true
  count : nsyllsFrom (pre ++ [v]) post = syll
  last : isDiphth (pre ++ [v]) (post.headD 0) post.tail = false

theorem getsyllFrom_step (rev after : Bytes) :
    getsyllFrom syll (c :: rev) after (nsyllsFrom (rev.reverse ++ [c]) after) =
      if isVowel c = true ∧ nsyllsFrom (rev.reverse ++ [c]) after = syll then some rev.length
      else getsyllFrom syll rev (c :: after) (nsyllsFrom rev.reverse (c :: after)) := by
  rw [getsyllFrom, nsyllsFrom]
  by_cases hvowel : isVowel c = true
  · by_cases hsyll : nsyllsFrom (rev.reverse ++ [c]) after = syll
    · simp [hvowel, hsyll]
    · cases hdiph : isDiphth rev.reverse c after <;> simp [hvowel, hsyll, Nat.add_comm]
  · simp [hvowel]

theorem getsyllFrom_sound {rev after : Bytes}
    (hfirst : isVowel (after.headD 0) = true →
      nsyllsFrom (rev.reverse ++ [after.headD 0]) after.tail ≠ syll)
    (h : getsyllFrom syll rev after (nsyllsFrom rev.reverse after) = some p) :
    ∃ pre v post, pre.length = p ∧ SyllableAt (rev.reverse ++ after) syll pre v post := by
  induction rev generalizing after with
  | nil => simp [getsyllFrom] at h
  | cons c rev ih =>
    rw [List.reverse_cons] at h hfirst ⊢
    rw [getsyllFrom_step] at h
    split at h
    · next hfound =>
      refine ⟨rev.reverse, c, after, by simpa using h, by simp, hfound.1, hfound.2, ?_⟩
      cases after with
      | nil => exact isDiphth_zero
      | cons w s =>
        by_contra hdiph
        rw [Bool.not_eq_false] at hdiph
        simp only [List.headD_cons, List.tail_cons] at hdiph hfirst
        have hcount := hfound.2
        rw [nsyllsFrom, hdiph] at hcount
        exact hfirst (isVowel_of_isDiphth hdiph) (by simpa using hcount)
    · next hnot =>
      obtain ⟨pre, v, post, hp, hat⟩ := @ih (c :: after) (fun hvowel hcount => hnot ⟨hvowel, hcount⟩) h
      exact ⟨pre, v, post, hp, by simpa using hat⟩

/-- No vowel of the bytes that the scan has passed is the one of the syllable. -/
theorem getsyllFrom_skip {rev s after : Bytes}
    (hskip : ∀ a w b, s = a ++ w :: b → isVowel w = true →
      nsyllsFrom (rev.reverse ++ a ++ [w]) (b ++ after) ≠ syll) :
    getsyllFrom syll (s.reverse ++ rev) after (nsyllsFrom (rev.reverse ++ s) after) =
      getsyllFrom syll rev (s ++ after) (nsyllsFrom rev.reverse (s ++ after)) := by
  induction s using List.reverseRecOn generalizing after with
  | nil => simp
  | append_singleton s x ih =>
    have hx : ¬(isVowel x = true ∧ nsyllsFrom (rev.reverse ++ s ++ [x]) after = syll) := by
      rintro ⟨hvowel, hcount⟩
      exact hskip s x [] rfl hvowel (by simpa using hcount)
    have hstep := @getsyllFrom_step x syll (s.reverse ++ rev) after
    have hrev : (s.reverse ++ rev).reverse = rev.reverse ++ s := by simp
    rw [hrev, if_neg hx] at hstep
    have hrest := @ih (x :: after) (by
      intro a w b hs hvowel
      have := hskip a w (b ++ [x]) (by rw [hs]; simp) hvowel
      simpa using this)
    rw [← List.append_assoc, List.reverse_append, List.reverse_singleton, List.append_assoc,
      List.singleton_append, hstep, hrest]
    simp

theorem getsyllFrom_complete {pre post : Bytes} (h : SyllableAt word syll pre v post) :
    getsyllFrom syll word.reverse [] 0 = some pre.length := by
  have hskip := @getsyllFrom_skip syll (v :: pre.reverse) post [] (by
    intro a w b hpost hvowel
    have hlast := h.last
    have hcount := h.count
    rw [hpost] at hlast hcount
    have hlt := @nsyllsFrom_vowel (pre ++ [v]) w a b hvowel (by
      cases a <;> simpa using hlast)
    simp only [List.reverse_cons, List.reverse_reverse, List.append_nil]
    omega)
  have hstep := @getsyllFrom_step v syll pre.reverse post
  simp only [List.reverse_reverse, List.reverse_cons, List.append_nil, List.length_reverse]
    at hskip hstep
  rw [if_pos ⟨h.vowel, h.count⟩] at hstep
  have hzero : nsyllsFrom (pre ++ [v] ++ post) [] = 0 := rfl
  rw [hzero] at hskip
  rw [h.split, List.reverse_append, List.reverse_cons, List.append_assoc, List.singleton_append,
    hskip, hstep]

theorem getsyll_eq_some : getsyll word syll = some p ↔
    syll ≤ 2 ∧ ∃ pre v post, pre.length = p ∧ SyllableAt word syll pre v post := by
  unfold getsyll
  constructor
  · intro h
    split at h
    · simp at h
    · next hsyll =>
      have hfound := @getsyllFrom_sound syll p word.reverse [] (fun h0 => absurd h0 (by decide)) h
      rw [List.reverse_reverse, List.append_nil] at hfound
      exact ⟨by omega, hfound⟩
  · rintro ⟨hsyll, pre, v, post, hp, hat⟩
    rw [if_neg (by omega), getsyllFrom_complete hat, hp]

theorem nsyllsFrom_step_le (rev after : Bytes) (h : nsyllsFrom (rev.reverse ++ [c]) after ≤ syll)
    (hnot : ¬(isVowel c = true ∧ nsyllsFrom (rev.reverse ++ [c]) after = syll)) :
    nsyllsFrom rev.reverse (c :: after) ≤ syll := by
  rw [nsyllsFrom]
  by_cases hvowel : isVowel c = true
  · have hlt : nsyllsFrom (rev.reverse ++ [c]) after ≠ syll := fun heq => hnot ⟨hvowel, heq⟩
    split <;> omega
  · simpa [hvowel] using h

theorem getsyllFrom_none {rev after : Bytes} (hcount : nsyllsFrom rev.reverse after ≤ syll)
    (h : getsyllFrom syll rev after (nsyllsFrom rev.reverse after) = none) :
    nsylls (rev.reverse ++ after) ≤ syll := by
  induction rev generalizing after with
  | nil => exact hcount
  | cons c rev ih =>
    rw [List.reverse_cons] at hcount h ⊢
    rw [getsyllFrom_step] at h
    split at h
    · simp at h
    · next hnot =>
      have hrest := @ih (c :: after) (nsyllsFrom_step_le rev after hcount hnot) h
      simpa using hrest

/-- A word has a syllable for each of the last three numbers below the number of its syllables. -/
theorem getsyll_eq_none (hsyll : syll ≤ 2) : getsyll word syll = none ↔ nsylls word ≤ syll := by
  constructor
  · intro h
    rw [getsyll, if_neg (by omega)] at h
    have hcount := @getsyllFrom_none syll word.reverse [] (by simp [nsyllsFrom]) h
    simpa using hcount
  · intro h
    by_contra hsome
    obtain ⟨p, hp⟩ := Option.ne_none_iff_exists'.mp hsome
    obtain ⟨-, pre, v, post, -, hat⟩ := getsyll_eq_some.mp hp
    have hlt := @nsyllsFrom_vowel [] v pre post hat.vowel rfl
    have hcount := hat.count
    have hword := hat.split
    rw [List.nil_append] at hlt
    rw [hword, nsylls] at h
    omega

end Places

section Placement
variable {word pre post marks long rest : Bytes} {v accent : Byte} {syll p : ℕ}

/-- Where `addaccent` puts an accent behind a vowel: the breathings and quantity marks on the
vowel stay before it, and a circumflex takes the place of a long mark at the end of them. -/
structure AccentPlace (accent : Byte) (post marks long rest : Bytes) : Prop where
  split : post = marks ++ long ++ rest
  marks : ∀ c ∈ marks, isBreathOrQuant c = true
  rest : isBreathOrQuant (rest.headD 0) = false
  long : long = [] ∨ accent = 61 ∧ long = [95]

theorem not_vowel_of_mark {c : Byte} (h : isBreathOrQuant c = true) : isVowel c = false := by
  revert c
  refine @forall_byte _ ?_
  decide +kernel

theorem not_vowel_of_accent {c : Byte} (h : isAccent c = true) : isVowel c = false := by
  revert c
  refine @forall_byte _ ?_
  decide +kernel

theorem not_mark_of_accent {c : Byte} (h : isAccent c = true) : isBreathOrQuant c = false := by
  revert c
  refine @forall_byte _ ?_
  decide +kernel

theorem takeWhile_marks {s t : Bytes} (hs : ∀ c ∈ s, isBreathOrQuant c = true)
    (ht : isBreathOrQuant (t.headD 0) = false) : (s ++ t).takeWhile isBreathOrQuant = s := by
  rw [List.takeWhile_append_of_pos hs]
  cases t with
  | nil => simp
  | cons c t => rw [List.takeWhile_cons_of_neg (by simpa using ht), List.append_nil]

theorem headD_dropWhile_marks (post : Bytes) :
    isBreathOrQuant ((post.dropWhile isBreathOrQuant).headD 0) = false := by
  induction post with
  | nil => decide
  | cons c post ih =>
    by_cases hc : isBreathOrQuant c = true
    · rw [List.dropWhile_cons_of_pos hc]
      exact ih
    · rw [List.dropWhile_cons_of_neg hc]
      simpa using hc

theorem behindMarks_eq (hmarks : ∀ c ∈ marks, isBreathOrQuant c = true)
    (hrest : isBreathOrQuant (rest.headD 0) = false) :
    behindMarks (pre ++ v :: (marks ++ rest)) pre.length = pre.length + 1 + marks.length := by
  have hdrop : (pre ++ v :: (marks ++ rest)).drop (pre.length + 1) = marks ++ rest := by simp
  rw [behindMarks, hdrop, takeWhile_marks hmarks hrest]

theorem addaccent_place (hcapital : onCapital (pre ++ v :: post) pre.length = false) (hvowel : isVowel v = true) :
    ∃ marks long rest, AccentPlace accent post marks long rest ∧
      addaccent (pre ++ v :: post) accent pre.length = pre ++ v :: (marks ++ accent :: rest) := by
  obtain ⟨s, t, hpost, hs, ht⟩ : ∃ s t, post = s ++ t ∧ (∀ c ∈ s, isBreathOrQuant c = true) ∧
      isBreathOrQuant (t.headD 0) = false :=
    ⟨_, _, (List.takeWhile_append_dropWhile (p := isBreathOrQuant)).symm,
      fun c hc => List.mem_takeWhile_imp hc, headD_dropWhile_marks post⟩
  subst hpost
  have hlen : ¬(pre ++ v :: (s ++ t)).length ≤ pre.length := by simp
  unfold addaccent
  rw [if_neg hlen, if_neg (by rw [hcapital]; simp)]
  simp only [behindMarks_eq hs ht]
  have hshape : pre ++ v :: (s ++ t) = (pre ++ v :: s) ++ t := by simp
  have hplace : pre.length + 1 + s.length = (pre ++ v :: s).length := by simp; omega
  split
  · next hlong =>
    obtain ⟨rfl, hmark⟩ := hlong
    have hs0 : s ≠ [] := by
      rintro rfl
      have hv : v = 95 := by simpa using hmark
      rw [hv] at hvowel
      exact absurd hvowel (by decide)
    obtain ⟨m, c, rfl⟩ : ∃ m c, s = m ++ [c] := ⟨_, _, (List.dropLast_concat_getLast hs0).symm⟩
    have hback : pre.length + 1 + (m ++ [c]).length - 1 = (pre ++ v :: m).length := by simp; omega
    have hc : c = 95 := by
      rw [hback] at hmark
      have hword : pre ++ v :: (m ++ [c] ++ t) = (pre ++ v :: m) ++ c :: t := by simp
      rw [hword] at hmark
      simpa [List.getD_eq_getElem?_getD] using hmark
    subst hc
    refine ⟨m, [95], t, ⟨rfl, fun c hc => hs c (by simp [hc]), ht, .inr ⟨rfl, rfl⟩⟩, ?_⟩
    have hword : pre ++ v :: (m ++ [95] ++ t) = (pre ++ v :: m) ++ 95 :: t := by simp
    rw [hback, hplace, hshape, List.drop_left, ← hshape, hword, List.take_left]
    simp
  · refine ⟨s, [], t, ⟨by simp, hs, ht, .inl rfl⟩, ?_⟩
    rw [hplace, hshape, List.take_left, List.drop_left]
    simp

theorem nsyllsFrom_fresh (h : isDiphth pre (rest.headD 0) rest.tail = false) :
    nsyllsFrom pre rest = nsylls rest := by
  rw [nsylls]
  cases rest with
  | nil => rfl
  | cons c rest =>
    rw [List.headD_cons, List.tail_cons] at h
    have hnil : isDiphth [] c rest = false := rfl
    rw [nsyllsFrom, nsyllsFrom, h, hnil, @nsyllsFrom_congr (pre ++ [c]) ([] ++ [c]) (by simp)]

/-- Bytes that are no vowels do not count, and no vowel after them makes a diphthong with what
stands before them. -/
theorem nsyllsFrom_marks {s : Bytes} (hs : s ≠ []) (hmarks : ∀ c ∈ s, isVowel c = false) :
    nsyllsFrom pre (s ++ rest) = nsylls rest := by
  induction s generalizing pre with
  | nil => exact absurd rfl hs
  | cons c s ih =>
    have hc := hmarks c (by simp)
    rw [List.cons_append, nsyllsFrom, hc, Bool.false_and, if_neg (by simp), Nat.zero_add]
    by_cases hs0 : s = []
    · rw [hs0, List.nil_append]
      exact nsyllsFrom_fresh (isDiphth_behind hc _)
    · exact ih hs0 fun d hd => hmarks d (by simp [hd])

theorem not_vowel_written (hmarks : ∀ c ∈ marks, isBreathOrQuant c = true)
    (haccent : isAccent accent = true) : ∀ c ∈ marks ++ [accent], isVowel c = false := by
  intro c hc
  rw [List.mem_append, List.mem_singleton] at hc
  rcases hc with hc | rfl
  · exact not_vowel_of_mark (hmarks c hc)
  · exact not_vowel_of_accent haccent

theorem SyllableAt.addaccent (hat : SyllableAt word syll pre v post)
    (hplace : AccentPlace accent post marks long rest) (haccent : isAccent accent = true) :
    SyllableAt (pre ++ v :: (marks ++ accent :: rest)) syll pre v (marks ++ accent :: rest) := by
  have hnew := not_vowel_written hplace.marks haccent
  have hcount : nsylls rest = syll := by
    rw [← hat.count, hplace.split]
    by_cases hold : marks ++ long = []
    · have hlast := hat.last
      rw [hplace.split, hold, List.nil_append] at hlast
      rw [hold, List.nil_append]
      exact (nsyllsFrom_fresh hlast).symm
    · refine (nsyllsFrom_marks hold fun c hc => ?_).symm
      rw [List.mem_append] at hc
      rcases hc with hc | hc
      · exact not_vowel_of_mark (hplace.marks c hc)
      · rcases hplace.long with hlong | ⟨-, hlong⟩ <;> rw [hlong] at hc
        · simp at hc
        · rw [List.mem_singleton] at hc
          rw [hc]
          decide
  have hshape : marks ++ accent :: rest = (marks ++ [accent]) ++ rest := by simp
  refine ⟨rfl, hat.vowel, ?_, ?_⟩
  · rw [hshape, nsyllsFrom_marks (by simp) hnew, hcount]
  · by_contra hdiph
    rw [Bool.not_eq_false] at hdiph
    have hvowel := isVowel_of_isDiphth hdiph
    have hhead : (marks ++ accent :: rest).headD 0 ∈ marks ++ [accent] := by
      cases marks <;> simp
    rw [hnew _ hhead] at hvowel
    simp at hvowel

end Placement

section ReadBack
variable {word pre post marks long rest : Bytes} {v accent : Byte} {syll p : ℕ}

/-- A list is split in one way only at its first member with a property. -/
theorem split_first {α : Type} {P : α → Bool} {a b a' b' : List α} {x x' : α}
    (h : a ++ x :: b = a' ++ x' :: b') (ha : ∀ c ∈ a, P c = false) (ha' : ∀ c ∈ a', P c = false)
    (hx : P x = true) (hx' : P x' = true) : a = a' ∧ x = x' ∧ b = b' := by
  induction a generalizing a' with
  | nil =>
    cases a' with
    | nil => exact ⟨rfl, List.cons.inj h⟩
    | cons c a' =>
      rw [List.nil_append, List.cons_append, List.cons.injEq] at h
      rw [h.1, ha' c (by simp)] at hx
      simp at hx
  | cons c a ih =>
    cases a' with
    | nil =>
      rw [List.nil_append, List.cons_append, List.cons.injEq] at h
      rw [← h.1, ha c (by simp)] at hx'
      simp at hx'
    | cons c' a' =>
      rw [List.cons_append, List.cons_append, List.cons.injEq] at h
      obtain ⟨rfl, h⟩ := h
      obtain ⟨rfl, hrest⟩ := ih h (fun d hd => ha d (by simp [hd])) fun d hd => ha' d (by simp [hd])
      exact ⟨rfl, hrest⟩

theorem getsyll_addaccent (hcapital : onCapital word p = false) (hp : getsyll word syll = some p) :
    ∃ pre v post marks long rest, syll ≤ 2 ∧ pre.length = p ∧ SyllableAt word syll pre v post ∧
      AccentPlace accent post marks long rest ∧
      addaccent word accent p = pre ++ v :: (marks ++ accent :: rest) := by
  obtain ⟨hsyll, pre, v, post, rfl, hat⟩ := getsyll_eq_some.mp hp
  have hword := hat.split
  subst hword
  obtain ⟨marks, long, rest, hplace, heq⟩ := @addaccent_place pre post v accent hcapital hat.vowel
  exact ⟨pre, v, post, marks, long, rest, hsyll, rfl, hat, hplace, heq⟩

theorem getaccent_split (hsyll : syll ≤ 2)
    (hat : SyllableAt word syll pre v (marks ++ accent :: rest))
    (hmarks : ∀ c ∈ marks, isBreathOrQuant c = true) (haccent : isAccent accent = true) :
    getaccent word syll = accent := by
  have hp : getsyll word syll = some pre.length :=
    getsyll_eq_some.mpr ⟨hsyll, pre, v, _, rfl, hat⟩
  have hbehind : behindMarks word pre.length = pre.length + 1 + marks.length := by
    rw [hat.split]
    exact behindMarks_eq hmarks (by simpa using not_mark_of_accent haccent)
  have hword : word = (pre ++ v :: marks) ++ accent :: rest := by rw [hat.split]; simp
  have hplace : pre.length + 1 + marks.length = (pre ++ v :: marks).length := by simp; omega
  have hget : word.getD (pre.length + 1 + marks.length) 0 = accent := by
    rw [hplace, hword]
    simp
  simp only [getaccent, getaccp, hp, Option.map_some, hbehind, hget, haccent, if_true]

/-- An accent that `getaccent` finds stands behind the vowel of the syllable. -/
theorem exists_of_getaccent (h : isAccent (getaccent word syll) = true) :
    ∃ pre v marks rest, SyllableAt word syll pre v (marks ++ getaccent word syll :: rest) ∧
      ∀ c ∈ marks, isBreathOrQuant c = true := by
  cases hp : getsyll word syll with
  | none =>
    simp only [getaccent, getaccp, hp, Option.map_none] at h
    exact absurd h (by decide)
  | some p =>
    obtain ⟨-, pre, v, post, rfl, hat⟩ := getsyll_eq_some.mp hp
    have hsplit := (List.takeWhile_append_dropWhile (p := isBreathOrQuant) (l := post)).symm
    have hmarks : ∀ c ∈ post.takeWhile isBreathOrQuant, isBreathOrQuant c = true :=
      fun c hc => List.mem_takeWhile_imp hc
    have hbehind : behindMarks word pre.length =
        pre.length + 1 + (post.takeWhile isBreathOrQuant).length := by
      rw [hat.split, hsplit, takeWhile_marks hmarks (headD_dropWhile_marks post)]
      exact behindMarks_eq hmarks (headD_dropWhile_marks post)
    have hword : word = (pre ++ v :: post.takeWhile isBreathOrQuant) ++
        post.dropWhile isBreathOrQuant := by
      rw [List.append_assoc, List.cons_append, ← hsplit]
      exact hat.split
    have hplace : pre.length + 1 + (post.takeWhile isBreathOrQuant).length =
        (pre ++ v :: post.takeWhile isBreathOrQuant).length := by simp; omega
    have hget : word.getD (pre.length + 1 + (post.takeWhile isBreathOrQuant).length) 0 =
        (post.dropWhile isBreathOrQuant).headD 0 := by
      rw [hplace, hword]
      cases post.dropWhile isBreathOrQuant <;> simp
    simp only [getaccent, getaccp, hp, Option.map_some, hbehind, hget] at h ⊢
    split at h
    · next hacc =>
      rw [if_pos hacc]
      cases hdrop : post.dropWhile isBreathOrQuant with
      | nil =>
        rw [hdrop] at hacc
        exact absurd hacc (by decide)
      | cons c rest =>
        refine ⟨pre, v, post.takeWhile isBreathOrQuant, rest, ?_, hmarks⟩
        rw [List.headD_cons, ← hdrop, ← hsplit]
        exact hat
    · exact absurd h (by decide)

theorem not_accent_of_naccents {a b : Bytes} (haccent : isAccent accent = true)
    (hone : naccents (a ++ accent :: b) = 1) :
    (∀ c ∈ a, isAccent c = false) ∧ ∀ c ∈ b, isAccent c = false := by
  rw [naccents, List.countP_append, List.countP_cons_of_pos haccent] at hone
  have ha : a.countP isAccent = 0 := by omega
  have hb : b.countP isAccent = 0 := by omega
  rw [List.countP_eq_zero] at ha hb
  exact ⟨fun c hc => Bool.eq_false_iff.mpr (ha c hc), fun c hc => Bool.eq_false_iff.mpr (hb c hc)⟩

/-- The syllable of a word's only accent is the one behind whose vowel it stands. -/
theorem syll_of_getaccent (hone : naccents word = 1)
    (hat : SyllableAt word syll pre v (marks ++ accent :: rest))
    (hmarks : ∀ c ∈ marks, isBreathOrQuant c = true) (haccent : isAccent accent = true)
    {j : ℕ} (hj : isAccent (getaccent word j) = true) : j = syll := by
  obtain ⟨pre', v', marks', rest', hat', hmarks'⟩ := exists_of_getaccent hj
  have hword : word = (pre ++ v :: marks) ++ accent :: rest := by rw [hat.split]; simp
  have hword' : word = (pre' ++ v' :: marks') ++ getaccent word j :: rest' := by
    conv_lhs => rw [hat'.split]
    simp
  have hbefore := (not_accent_of_naccents haccent (hword ▸ hone)).1
  have hbefore' := (not_accent_of_naccents hj (hword' ▸ hone)).1
  obtain ⟨hfront, heq, hrest⟩ := split_first (hword.symm.trans hword') hbefore hbefore' haccent hj
  have hback : marks.reverse ++ v :: pre.reverse = marks'.reverse ++ v' :: pre'.reverse := by
    simpa using congrArg List.reverse hfront
  obtain ⟨hmark, rfl, hpre⟩ := split_first (P := isVowel) hback
    (fun c hc => not_vowel_of_mark (hmarks c (by simpa using hc)))
    (fun c hc => not_vowel_of_mark (hmarks' c (by simpa using hc))) hat.vowel hat'.vowel
  rw [List.reverse_inj] at hmark hpre
  rw [← hat.count, ← hat'.count, hpre, ← hmark, ← heq, ← hrest]

theorem naccents_addaccent (hplain : naccents word = 0) (hat : SyllableAt word syll pre v post)
    (hplace : AccentPlace accent post marks long rest) (haccent : isAccent accent = true) :
    naccents (pre ++ v :: (marks ++ accent :: rest)) = 1 := by
  rw [hat.split, hplace.split] at hplain
  simp only [naccents, List.countP_append, List.countP_cons, haccent, if_true] at hplain ⊢
  omega

theorem stripacc_eq_self {s : Bytes} (h : naccents s = 0) : stripacc s = s := by
  rw [naccents, List.countP_eq_zero] at h
  rw [stripacc, List.filter_eq_self]
  exact fun c hc => by simpa using h c hc

theorem stripacc_split {a b : Bytes} (haccent : isAccent accent = true)
    (hone : naccents (a ++ accent :: b) = 1) : stripacc (a ++ accent :: b) = a ++ b := by
  obtain ⟨ha, hb⟩ := not_accent_of_naccents haccent hone
  have ha0 : naccents a = 0 := List.countP_eq_zero.mpr fun c hc => by simp [ha c hc]
  have hb0 : naccents b = 0 := List.countP_eq_zero.mpr fun c hc => by simp [hb c hc]
  have hsplit : stripacc (a ++ accent :: b) = stripacc a ++ stripacc b := by
    simp [stripacc, List.filter_append, haccent]
  rw [hsplit, stripacc_eq_self ha0, stripacc_eq_self hb0]

/-- An accented word: the accent stands behind the vowel of the syllable and the breathings and
quantity marks on it, and it is the only one. -/
structure Written (word : Bytes) (accent : Byte) (syll : ℕ) (pre : Bytes) (v : Byte)
    (marks long rest : Bytes) : Prop where
  syll_le : syll ≤ 2
  before : SyllableAt word syll pre v (marks ++ long ++ rest)
  after : SyllableAt (pre ++ v :: (marks ++ accent :: rest)) syll pre v (marks ++ accent :: rest)
  onVowel : ∀ c ∈ marks, isBreathOrQuant c = true
  long : long = [] ∨ accent = 61 ∧ long = [95]
  one : naccents (pre ++ v :: marks ++ accent :: rest) = 1

theorem exists_written (hcapital : onCapital word p = false) (hplain : naccents word = 0)
    (haccent : isAccent accent = true) (hp : getsyll word syll = some p) :
    ∃ pre v marks long rest, pre.length = p ∧ Written word accent syll pre v marks long rest ∧
      addaccent word accent p = pre ++ v :: (marks ++ accent :: rest) := by
  obtain ⟨pre, v, post, marks, long, rest, hsyll, hlen, hat, hplace, heq⟩ :=
    @getsyll_addaccent word accent syll p hcapital hp
  have hone := naccents_addaccent hplain hat hplace haccent
  refine ⟨pre, v, marks, long, rest, hlen, ⟨hsyll, hplace.split ▸ hat,
    hat.addaccent hplace haccent, hplace.marks, hplace.long, ?_⟩, heq⟩
  simpa using hone

theorem Written.stripacc (h : Written word accent syll pre v marks long rest)
    (haccent : isAccent accent = true) :
    stripacc (pre ++ v :: (marks ++ accent :: rest)) = pre ++ v :: marks ++ rest := by
  have hstrip := stripacc_split haccent h.one
  simpa using hstrip

theorem Written.getaccent_other (h : Written word accent syll pre v marks long rest)
    (haccent : isAccent accent = true) {j : ℕ} (hj : j ≠ syll) :
    isAccent (getaccent (pre ++ v :: (marks ++ accent :: rest)) j) = false := by
  by_contra hacc
  rw [Bool.not_eq_false] at hacc
  exact hj (syll_of_getaccent (by simpa using h.one) h.after h.onVowel haccent hacc)

theorem onCapital_of_lower (hlower : 42 ∉ word) : onCapital word p = false := by
  have hhead : word.headD 0 ≠ 42 := by
    cases word with
    | nil => decide
    | cons c s =>
      rintro rfl
      exact hlower (by simp)
  have hstar : (word.headD 0 == 42) = false := by simpa using hhead
  rw [onCapital, hstar, Bool.false_and, Bool.false_and]

/-- The accent that `addaccent` writes on a syllable of a word without accents is the word's only
one, `getaccent` finds it on that syllable and on no other, and without it the word is the old one,
up to the long mark that a circumflex takes away. -/
theorem addaccent_readBack (word : Bytes) (accent : Byte) (syll p : ℕ) (hlower : 42 ∉ word)
    (hplain : naccents word = 0) (haccent : isAccent accent = true)
    (hp : getsyll word syll = some p) :
    getaccent (addaccent word accent p) syll = accent ∧
      (∀ j, j ≠ syll → isAccent (getaccent (addaccent word accent p) j) = false) ∧
      naccents (addaccent word accent p) = 1 ∧
      ∃ before long after, word = before ++ long ++ after ∧
        stripacc (addaccent word accent p) = before ++ after ∧
        (long = [] ∨ accent = 61 ∧ long = [95]) := by
  obtain ⟨pre, v, marks, long, rest, -, hwritten, heq⟩ :=
    exists_written (onCapital_of_lower hlower) hplain haccent hp
  rw [heq]
  refine ⟨getaccent_split hwritten.syll_le hwritten.after hwritten.onVowel haccent,
    fun j hj => hwritten.getaccent_other haccent hj, by simpa using hwritten.one,
    pre ++ v :: marks, long, rest, ?_, hwritten.stripacc haccent, hwritten.long⟩
  rw [hwritten.before.split]
  simp

theorem addaccent_readBack_anthropos : getsyll (ascii "a)nqrwpos") 2 = some 0 ∧
    getaccent (addaccent (ascii "a)nqrwpos") 47 0) 2 = 47 := by
  have hp : getsyll (ascii "a)nqrwpos") 2 = some 0 := by decide +kernel
  exact ⟨hp, (addaccent_readBack _ 47 2 0 (by decide +kernel) (by decide +kernel) (by decide) hp).1⟩

end ReadBack

section Agreement
variable {a b : Bytes} {accent : Byte}

theorem stripaccFrom_fst (rev after : Bytes) (rval : ℕ) :
    (stripaccFrom rev after rval).1 = stripacc rev.reverse ++ after := by
  induction rev generalizing after rval with
  | nil => rfl
  | cons c rev ih =>
    rw [stripaccFrom, List.reverse_cons, stripacc, List.filter_append]
    by_cases hc : isAccent c = true
    · rw [if_pos hc, ih]
      simp [stripacc, hc]
    · rw [if_neg hc, ih]
      simp [stripacc, hc]

theorem stripaccFrom_plain {rev after : Bytes} {rval : ℕ} (h : ∀ c ∈ rev, isAccent c = false) (s : Bytes) :
    stripaccFrom (rev ++ s) after rval = stripaccFrom s (rev.reverse ++ after) rval := by
  induction rev generalizing after with
  | nil => rfl
  | cons c rev ih =>
    rw [List.cons_append, stripaccFrom, if_neg (by rw [h c (by simp)]; simp),
      ih fun d hd => h d (by simp [hd])]
    simp

theorem strippedSyll_split (haccent : isAccent accent = true)
    (hone : naccents (a ++ accent :: b) = 1) :
    strippedSyll (a ++ accent :: b) = nsylls (accent :: b) + 1 := by
  obtain ⟨ha, hb⟩ := not_accent_of_naccents haccent hone
  have hrev : (a ++ accent :: b).reverse = b.reverse ++ (accent :: a.reverse) := by simp
  have hplain := @stripaccFrom_plain a.reverse b (nsylls (accent :: b) + 1)
    (fun c hc => ha c (by simpa using hc)) []
  rw [strippedSyll, hrev, stripaccFrom_plain fun c hc => hb c (by simpa using hc)]
  rw [List.reverse_reverse, List.append_nil, stripaccFrom, if_pos haccent, if_pos rfl]
  rw [List.append_nil] at hplain
  rw [hplain]
  rfl

/-- `checkaccent` and `stripacc` find the accent that `addaccent` writes on the same syllable, and
`stripacc` takes out that accent and nothing else. -/
theorem checkaccent_stripacc (word : Bytes) (accent : Byte) (syll p : ℕ) (hlower : 42 ∉ word)
    (hplain : naccents word = 0) (haccent : isAccent accent = true)
    (hp : getsyll word syll = some p) :
    checkaccent (addaccent word accent p) = some (syll, accent) ∧
      strippedSyll (addaccent word accent p) = syll + 1 ∧
      ∃ a b, addaccent word accent p = a ++ accent :: b ∧
        (stripaccFrom (addaccent word accent p).reverse [] 0).1 = a ++ b := by
  obtain ⟨pre, v, marks, long, rest, -, hwritten, heq⟩ :=
    exists_written (onCapital_of_lower hlower) hplain haccent hp
  have hat := hwritten.after
  rw [heq]
  have hsplit : pre ++ v :: (marks ++ accent :: rest) = pre ++ v :: marks ++ accent :: rest := by simp
  have hfound := getaccent_split hwritten.syll_le hat hwritten.onVowel haccent
  refine ⟨?_, ?_, pre ++ v :: marks, rest, hsplit, ?_⟩
  · have hother := fun j hj => @Written.getaccent_other _ _ _ _ _ _ _ _ hwritten haccent j hj
    obtain rfl | rfl | rfl : syll = 0 ∨ syll = 1 ∨ syll = 2 := by have := hwritten.syll_le; omega
    · rw [checkaccent, hfound, if_pos haccent]
    · rw [checkaccent, hfound, hother 0 (by decide), if_neg (by simp), if_pos haccent]
    · rw [checkaccent, hfound, hother 0 (by decide), hother 1 (by decide), if_neg (by simp),
        if_neg (by simp), if_pos haccent]
  · have hshape : marks ++ accent :: rest = (marks ++ [accent]) ++ rest := by simp
    have hcount := hat.count
    rw [hshape, nsyllsFrom_marks (by simp) (not_vowel_written hwritten.onVowel haccent)] at hcount
    have htail : nsylls (accent :: rest) = nsylls rest :=
      nsyllsFrom_marks (s := [accent]) (by simp) (by simpa using not_vowel_of_accent haccent)
    rw [hsplit, strippedSyll_split haccent hwritten.one, htail, hcount]
  · rw [stripaccFrom_fst, List.reverse_reverse, List.append_nil, hwritten.stripacc haccent]

theorem checkaccent_stripacc_anthropos : getsyll (ascii "a)nqrwpos") 2 = some 0 ∧
    checkaccent (addaccent (ascii "a)nqrwpos") 47 0) = some (2, 47) := by
  have hp : getsyll (ascii "a)nqrwpos") 2 = some 0 := by decide +kernel
  exact ⟨hp, (checkaccent_stripacc _ 47 2 0 (by decide +kernel) (by decide +kernel) (by decide) hp).1⟩

end Agreement

end Morpheus
