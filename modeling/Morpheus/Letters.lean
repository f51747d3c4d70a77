import Morpheus.EndRewriting
import Morpheus.EndingAccents
import Morpheus.NominalSearch
import Morpheus.StandWord

/-!
# The letters of a text

Accents, breathings, quantity marks, diaereses, hyphens and the `*` of a null ending are no letters,
and an iota subscript is an iota. What puts accents on a word, or takes marks from it, leaves its
letters as they are. A NUL counts as a letter here, so that texts of the same letters are both strings
if one is.
-/
namespace Morpheus

/-- `stripacute` -/
def stripacute (s : Bytes) : Bytes := stripchar s 47

/-- `stripstemsep` -/
def stripstemsep (word : Bytes) : Bytes := stripchar word 45

/-- `Is_alph`, or the sign of an iota subscript, or a NUL. -/
def isLetter (c : Byte) : Bool := isAlpha c || c == 124 || c == 0

/-- The letters of a text, with an iota for an iota subscript. -/
def spelling (s : Bytes) : Bytes := (s.filter isLetter).map comptab

section Marks
variable {word result : Bytes} {accent c : Byte} {syll p : ℕ} {s : Bytes}

theorem not_letter (h : isAccent c = true ∨ isBreathOrQuant c = true ∨ c ∈ [42, 43, 45, 33]) :
    isLetter c = false := by
  revert h
  revert c
  refine @forall_byte _ ?_
  decide +kernel

@[simp]
theorem spelling_nil : spelling [] = [] := rfl

@[simp]
theorem spelling_append (s t : Bytes) : spelling (s ++ t) = spelling s ++ spelling t := by
  simp [spelling]

theorem spelling_cons (c : Byte) (s : Bytes) : spelling (c :: s) = spelling [c] ++ spelling s :=
  spelling_append [c] s

theorem spelling_mark (h : isLetter c = false) : spelling [c] = [] := by
  simp [spelling, h]

theorem spelling_cons_mark (h : isLetter c = false) (s : Bytes) : spelling (c :: s) = spelling s := by
  rw [spelling_cons, spelling_mark h, List.nil_append]

/-- What takes only marks from a text. -/
theorem spelling_filter {keeps : Byte → Bool} (h : ∀ c, isLetter c = true → keeps c = true) (s : Bytes) :
    spelling (s.filter keeps) = spelling s := by
  rw [spelling, spelling, List.filter_filter]
  congr 1
  apply List.filter_congr
  intro c _
  cases hc : isLetter c with
  | false => rfl
  | true => rw [h c hc, Bool.and_self]

/-- What takes only marks from a text, when it takes what a test names. -/
theorem spelling_strip {strips : Byte → Bool} (h : ∀ c, strips c = true → isLetter c = false) (s : Bytes) :
    spelling (s.filter fun c => !strips c) = spelling s := by
  apply spelling_filter
  intro c hc
  cases hs : strips c with
  | false => rfl
  | true =>
    rw [h c hs] at hc
    cases hc

@[simp]
theorem spelling_stripacc (s : Bytes) : spelling (stripacc s) = spelling s :=
  spelling_strip (fun _ h => not_letter (.inl h)) s

@[simp]
theorem spelling_stripbreath (s : Bytes) : spelling (stripbreath s) = spelling s := by
  refine spelling_strip (fun c h => not_letter (.inr (.inl ?_))) s
  rcases (by simpa [isBreath] using h : c = 40 ∨ c = 41) with rfl | rfl <;> rfl

theorem spelling_filter_ne (h : isLetter c = false) (s : Bytes) :
    spelling (s.filter (· ≠ c)) = spelling s := by
  apply spelling_filter
  intro d hd
  simp only [decide_eq_true_eq]
  rintro rfl
  rw [h] at hd
  cases hd

theorem spelling_stripchar (h : isLetter c = false) (s : Bytes) : spelling (stripchar s c) = spelling s :=
  spelling_strip (fun d hd => by rwa [beq_iff_eq.mp hd]) s

@[simp]
theorem spelling_stripquant (s : Bytes) : spelling (stripquant s) = spelling s := by
  rw [stripquant, striplongmark, stripshortmark, spelling_filter_ne rfl, spelling_filter_ne rfl]

@[simp]
theorem spelling_stripdiaer (s : Bytes) : spelling (stripdiaer s) = spelling s :=
  spelling_filter_ne rfl s

@[simp]
theorem spelling_stripacute (s : Bytes) : spelling (stripacute s) = spelling s :=
  spelling_stripchar rfl s

@[simp]
theorem spelling_stripstemsep (s : Bytes) : spelling (stripstemsep s) = spelling s :=
  spelling_stripchar rfl s

theorem spelling_dropStar (s : Bytes) : spelling (dropStar s) = spelling s := by
  unfold dropStar
  split
  · next h =>
    conv_rhs => rw [← List.dropLast_append_getLast? _ h]
    rw [spelling_append, spelling_mark rfl, List.append_nil]
  · rfl

theorem stripzeroend_eq (s : Bytes) : stripzeroend s = dropStar s := rfl

/-- An accent on a vowel, with or without the long mark that a circumflex takes the place of. -/
theorem StandsAt.spelling (h : StandsAt word accent p result) (haccent : isAccent accent = true) :
    spelling result = spelling word := by
  have hmark : isLetter accent = false := not_letter (.inl haccent)
  rcases h with ⟨pre, v, marks, long, rest, -, hword, hresult, -, hlong⟩ |
      ⟨b, rest, -, hword, hresult, -⟩
  · have hnone : Morpheus.spelling long = [] := by rcases hlong with rfl | ⟨-, rfl⟩ <;> rfl
    have hleft : pre ++ v :: (marks ++ accent :: rest) = pre ++ [v] ++ marks ++ [accent] ++ rest := by simp
    have hright : pre ++ v :: (marks ++ long ++ rest) = pre ++ [v] ++ marks ++ long ++ rest := by simp
    rw [hword, hresult, hleft, hright]
    simp only [spelling_append, spelling_mark hmark, hnone]
  · rw [hword, hresult, spelling_cons 42, spelling_cons b, spelling_cons accent,
      spelling_mark hmark, spelling_cons 42 (b :: rest), spelling_cons b rest]
    rfl

theorem spelling_addaccentAt (haccent : isAccent accent = true) (word : Bytes) (syll : ℕ) :
    spelling (addaccentAt word accent (getsyll word syll)) = spelling word := by
  cases hp : getsyll word syll with
  | none => rfl
  | some p => exact (addaccent_standsAt hp).spelling haccent

theorem spelling_fixnacc2 (language : ℤ) (gstring : GkString) (formInfo : WordForm) (isOblique : Bool)
    (word : Bytes) : spelling (fixnacc2 language gstring formInfo isOblique word) = spelling word := by
  rcases fixnacc2_cases language gstring formInfo isOblique word with h | ⟨accent, syll, p, haccent, hp, h⟩
  · rw [h]
  · rw [h]
    exact (addaccent_standsAt hp).spelling (by rcases haccent with rfl | rfl <;> rfl)

theorem spelling_fixRecAcc (language : ℤ) (gkform : GkWord) (mflags : MorphFlags) (word : Bytes) :
    spelling (fixRecAcc language gkform mflags word) = spelling word := by
  unfold fixRecAcc
  dsimp only
  split_ifs <;> first | rfl | exact spelling_addaccentAt rfl word _

theorem spelling_penultAccent (stemgstr : GkString) (mflags : MorphFlags) (workstem endstring : Bytes)
    (isOblique : Bool) :
    spelling (penultAccent stemgstr mflags workstem endstring isOblique) = spelling workstem := by
  unfold penultAccent
  dsimp only
  split_ifs <;> first | rfl | exact spelling_addaccentAt rfl workstem 0

theorem spelling_antepenAccent (mflags : MorphFlags) (workstem endstring : Bytes) (isOblique : Bool) :
    spelling (antepenAccent mflags workstem endstring isOblique) = spelling workstem := by
  unfold antepenAccent
  dsimp only
  split_ifs <;> exact spelling_addaccentAt rfl workstem _

theorem spelling_accentFrom {accented : Bytes → Bytes}
    (h : ∀ text, spelling (accented text) = spelling text) (text : Bytes) (p : ℕ) :
    spelling (accentFrom accented text p) = spelling text := by
  rw [accentFrom, spelling_append, h, ← spelling_append, List.take_append_drop]

end Marks

section Joining
variable {stem endstring word text : Bytes} {language : ℤ} {gstring stemgstr : GkString}
  {mflags : MorphFlags} {formInfo : WordForm} {isOblique isEnding : Bool} {accent : Byte}

theorem joinEnding_eq (hstem : stem.length < maxWordSize)
    (hword : (joinEnding stem endstring).1 ≠ []) :
    (joinEnding stem endstring).1 = stem ++ endstring := by
  unfold joinEnding at hword ⊢
  split
  · next word happend => rw [appendText_eq happend, xstrncpy_of_lt hstem]
  · next hnone =>
    rw [hnone] at hword
    exact absurd rfl hword

theorem joinEnding_spelling {front back : Bytes} (hfront : spelling front = spelling stem)
    (hback : spelling back = spelling endstring) (hlen : front.length < maxWordSize)
    (hword : (joinEnding front back).1 ≠ []) :
    spelling (joinEnding front back).1 = spelling stem ++ spelling endstring := by
  rw [joinEnding_eq hlen hword, spelling_append, hfront, hback]

theorem accentFrom_length {accented : Bytes → Bytes}
    (h : ∀ text, (accented text).length ≤ text.length + 1) (text : Bytes) (p : ℕ) :
    (accentFrom accented text p).length ≤ text.length + 1 := by
  have := h (text.drop p)
  rw [List.length_drop] at this
  rw [accentFrom, List.length_append, List.length_take]
  omega

theorem addaccentAt_length (haccent : accent = 47 ∨ accent = 61) (word : Bytes) (syll : ℕ) :
    (addaccentAt word accent (getsyll word syll)).length ≤ word.length + 1 := by
  cases hp : getsyll word syll with
  | none => exact Nat.le_succ _
  | some p => rcases ((addaccent_standsAt hp).accented haccent hp).length with h | h <;> exact h.le.trans (by omega)

/-- A word fits its buffer, with an accent on top. -/
def FitsAccented (word : Bytes) : Prop :=
  word.length < maxWordSize ∨ hasaccent word = true ∧ word.length ≤ maxWordSize

theorem FitsAccented.length_le (h : FitsAccented word) : word.length ≤ maxWordSize := by
  rcases h with h | h
  · exact h.le
  · exact h.2

theorem StandsAt.hasaccent {result : Bytes} {p : ℕ} (h : StandsAt word accent p result)
    (haccent : isAccent accent = true) : hasaccent result = true := by
  have hmem : accent ∈ result := by
    rcases h with ⟨_, _, _, _, _, -, -, rfl, -, -⟩ | ⟨_, _, -, -, rfl, -⟩ <;> simp
  exact List.any_eq_true.mpr ⟨accent, hmem, haccent⟩

theorem FitsAccented.addaccentAt (h : FitsAccented word) (hplain : Morpheus.hasaccent word = false)
    (haccent : accent = 47 ∨ accent = 61) (syll : ℕ) :
    FitsAccented (addaccentAt word accent (getsyll word syll)) := by
  have hlen : word.length < maxWordSize := by
    rcases h with h | h
    · exact h
    · rw [hplain] at h
      cases h.1
  have hgrows := addaccentAt_length haccent word syll
  cases hp : getsyll word syll with
  | none => exact h
  | some p =>
    rw [hp] at hgrows
    exact .inr ⟨(addaccent_standsAt hp).hasaccent (by rcases haccent with rfl | rfl <;> rfl), by omega⟩

theorem FitsAccented.fixRecAcc (h : FitsAccented word) (gkform : GkWord) :
    FitsAccented (fixRecAcc language gkform mflags word) := by
  unfold Morpheus.fixRecAcc
  dsimp only
  by_cases hplain : Morpheus.hasaccent word = true
  · rw [if_pos hplain]
    split <;> exact h
  · rw [Bool.not_eq_true] at hplain
    split_ifs <;> first
      | exact h
      | exact h.addaccentAt hplain (.inl rfl) _
      | exact h.addaccentAt hplain (.inr rfl) _

theorem FitsAccented.stripstemsep (h : FitsAccented word) : FitsAccented (stripstemsep word) := by
  have hlen : (Morpheus.stripstemsep word).length ≤ word.length := List.length_filter_le _ _
  rcases h with h | ⟨haccent, h⟩
  · exact .inl (by omega)
  · refine .inr ⟨?_, by omega⟩
    obtain ⟨c, hc, hmark⟩ := List.any_eq_true.mp haccent
    refine List.any_eq_true.mpr ⟨c, List.mem_filter.mpr ⟨hc, ?_⟩, hmark⟩
    rw [bne_iff_ne]
    rintro rfl
    cases hmark

theorem FitsAccented.stripacc (h : FitsAccented word) : FitsAccented (stripacc word) := by
  rcases h with h | ⟨haccent, h⟩
  · exact .inl ((List.length_filter_le _ _).trans_lt h)
  · obtain ⟨c, hc, hmark⟩ := List.any_eq_true.mp haccent
    have hlt : (Morpheus.stripacc word).length < word.length := by
      apply List.length_filter_lt_length_iff_exists.mpr
      exact ⟨c, hc, by simp [hmark]⟩
    exact .inl (by omega)

theorem penultAccent_length (stemgstr : GkString) (mflags : MorphFlags) (workstem endstring : Bytes)
    (isOblique : Bool) :
    (penultAccent stemgstr mflags workstem endstring isOblique).length ≤ workstem.length + 1 := by
  unfold penultAccent
  dsimp only
  split_ifs <;> first
    | exact Nat.le_succ _
    | exact addaccentAt_length (.inl rfl) _ _
    | exact addaccentAt_length (.inr rfl) _ _

theorem antepenAccent_length (mflags : MorphFlags) (workstem endstring : Bytes) (isOblique : Bool) :
    (antepenAccent mflags workstem endstring isOblique).length ≤ workstem.length + 1 := by
  unfold antepenAccent
  dsimp only
  split_ifs <;> first
    | exact addaccentAt_length (.inl rfl) _ _
    | exact addaccentAt_length (.inr rfl) _ _

theorem fixnacc2_length (language : ℤ) (gstring : GkString) (formInfo : WordForm) (isOblique : Bool)
    (text : Bytes) : (fixnacc2 language gstring formInfo isOblique text).length ≤ text.length + 1 := by
  rcases (fixnacc2_accented language gstring formInfo isOblique text).length with h | h <;> omega

theorem joinEnding_ok (hstem : stem.length < maxWordSize)
    (h : joinEnding stem endstring = (word, false)) : word = stem ++ endstring := by
  unfold joinEnding at h
  rw [xstrncpy_of_lt hstem] at h
  split at h
  · next happend =>
    obtain ⟨rfl, -⟩ := Prod.mk.inj h
    exact appendText_eq happend
  · cases h

/-- What `FixPersAcc2` makes of stem and ending is spelled as they are, if there is room for the accent
and the ending is not proclitic. -/
theorem fixPersAcc2_spelling
    (hfits : stemgstr.gkstring.length + endstring.length + 1 < maxWordSize)
    (hproclitic : hasMorphflag mflags proclitic = false)
    (hword : (fixPersAcc2 language gstring mflags stemgstr endstring formInfo isEnding).1 ≠ []) :
    spelling (fixPersAcc2 language gstring mflags stemgstr endstring formInfo isEnding).1 =
      spelling stemgstr.gkstring ++ spelling endstring := by
  have hstem : stemgstr.gkstring.length < maxWordSize := by omega
  generalize hisOblique : (formInfo.case_ = genitive ∨ formInfo.case_ = dative : Bool) = isOblique
  have hletters := spelling_fixnacc2 language gstring formInfo isOblique
  have hgrows := fixnacc2_length language gstring formInfo isOblique
  have hjoined : ∀ {back}, spelling back = spelling endstring →
      (joinEnding stemgstr.gkstring back).1 ≠ [] →
      spelling (joinEnding stemgstr.gkstring back).1 =
        spelling stemgstr.gkstring ++ spelling endstring :=
    fun hback => joinEnding_spelling rfl hback hstem
  -- an accent on the joined text is not cut
  have hwhole : ∀ {tmp accented : Bytes}, joinEnding stemgstr.gkstring endstring = (tmp, false) →
      spelling accented = spelling tmp → accented.length ≤ tmp.length + 1 →
      spelling (xstrncpy accented maxWordSize) =
        spelling stemgstr.gkstring ++ spelling endstring := by
    intro tmp accented htmp hspelled hlen
    rw [joinEnding_ok hstem htmp, List.length_append] at hlen
    rw [xstrncpy_of_lt (by omega), hspelled, joinEnding_ok hstem htmp, spelling_append]
  revert hword
  unfold fixPersAcc2
  dsimp only
  rw [hisOblique, xstrncpy_of_lt hstem, hproclitic]
  simp only [Bool.false_eq_true, if_false]
  split
  · exact hjoined rfl
  split
  · exact hjoined rfl
  split
  · exact hjoined rfl
  split
  · exact hjoined rfl
  split
  · split
    · exact hjoined rfl
    · split
      · exact hjoined rfl
      · exact hjoined (spelling_accentFrom hletters _ _)
  split
  · split
    · split
      · exact hjoined (hletters _)
      · exact hjoined rfl
    · split
      · exact absurd rfl
      · next tmp htmp =>
        split
        · exact absurd rfl
        · exact fun _ => hwhole htmp (spelling_accentFrom hletters _ _) (accentFrom_length hgrows _ _)
  split
  · exact joinEnding_spelling (spelling_penultAccent ..) rfl (by
      have := penultAccent_length stemgstr mflags stemgstr.gkstring endstring isOblique
      omega)
  split
  · exact joinEnding_spelling (spelling_antepenAccent ..) rfl (by
      have := antepenAccent_length mflags stemgstr.gkstring endstring isOblique
      omega)
  split
  · exact absurd rfl
  · next tmp htmp => exact fun _ => hwhole htmp (hletters _) (hgrows _)

/-- A proclitic ending is joined where stem or language has no accents, and else left out. -/
theorem fixPersAcc2_proclitic (hstem : stemgstr.gkstring.length < maxWordSize)
    (hproclitic : hasMorphflag mflags proclitic = true)
    (hword : (fixPersAcc2 language gstring mflags stemgstr endstring formInfo isEnding).1 ≠ []) :
    spelling (fixPersAcc2 language gstring mflags stemgstr endstring formInfo isEnding).1 =
        spelling stemgstr.gkstring ++ spelling endstring ∨
      spelling (fixPersAcc2 language gstring mflags stemgstr endstring formInfo isEnding).1 =
        spelling stemgstr.gkstring := by
  revert hword
  unfold fixPersAcc2
  dsimp only
  split
  · exact fun hword => .inl (joinEnding_spelling rfl rfl hstem hword)
  split
  · exact fun hword => .inl (joinEnding_spelling rfl rfl hstem hword)
  rw [xstrncpy_of_lt hstem]
  exact fun _ => .inr rfl

theorem fixPersAcc2_length :
    (fixPersAcc2 language gstring mflags stemgstr endstring formInfo isEnding).1.length < maxWordSize := by
  have hjoin : ∀ front back, (joinEnding front back).1.length < maxWordSize := by
    intro front back
    unfold joinEnding
    split
    · next happend => exact appendText_length happend
    · exact Nat.zero_lt_succ _
  have hcut : ∀ s, (xstrncpy s maxWordSize).length < maxWordSize := by
    intro s
    rw [xstrncpy, List.length_take]
    exact (Nat.min_le_left _ _).trans_lt (by decide)
  unfold fixPersAcc2
  dsimp only
  split_ifs <;> repeat' first | exact hjoin _ _ | exact hcut _ | exact Nat.zero_lt_succ _ | split

theorem fixPersAcc_spelling
    (hfits : stemgstr.gkstring.length + endstring.length + 1 < maxWordSize)
    (hword : (fixPersAcc language gstring mflags stemgstr endstring formInfo isEnding).1 ≠ []) :
    spelling (fixPersAcc language gstring mflags stemgstr endstring formInfo isEnding).1 =
        spelling stemgstr.gkstring ++ spelling endstring ∨
      hasMorphflag mflags proclitic = true ∧
        spelling (fixPersAcc language gstring mflags stemgstr endstring formInfo isEnding).1 =
          spelling stemgstr.gkstring := by
  have hsome : (fixPersAcc2 language gstring mflags stemgstr endstring formInfo isEnding).1 ≠ [] := by
    intro hnone
    apply hword
    rw [fixPersAcc, hnone]
    rfl
  rw [fixPersAcc, spelling_dropStar]
  cases hproclitic : hasMorphflag mflags proclitic with
  | false => exact .inl (fixPersAcc2_spelling hfits hproclitic hsome)
  | true => exact (fixPersAcc2_proclitic (by omega) hproclitic hsome).imp_right fun hstem => ⟨rfl, hstem⟩

theorem fixPersAcc_length :
    (fixPersAcc language gstring mflags stemgstr endstring formInfo isEnding).1.length < maxWordSize := by
  rw [fixPersAcc]
  apply lt_of_le_of_lt _ (@fixPersAcc2_length endstring language gstring stemgstr mflags formInfo isEnding)
  unfold dropStar
  split
  · rw [List.length_dropLast]
    exact Nat.sub_le _ _
  · exact le_rfl

end Joining

end Morpheus
