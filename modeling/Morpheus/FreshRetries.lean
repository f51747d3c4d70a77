import Morpheus.LatinRetries

/-!
# Leftovers of failed retries

When every retry of a Latin word starts from the word as it was entered: a capital `I` is not
replaced together with another `i`, and what the retries before it have left does not begin with
an `ex-` to be expanded.
-/
namespace Morpheus

section Condition
variable {spelling : Spelling} {word : Bytes}

theorem latinExpandEx_of_exStart {s : Bytes} {capacity : ℕ} (h : exStart s = true)
    (hlength : s.length < capacity - 1) :
    ∃ c rest, s = 101 :: 120 :: c :: rest ∧
      latinExpandEx s capacity = some (101 :: 120 :: 115 :: c :: rest) := by
  obtain ⟨c, hc, rest, rfl⟩ := exStart_iff.mp h
  refine ⟨c, rest, rfl, ?_⟩
  unfold latinExpandEx
  have hcontains : (ascii "cpt").contains c = true := by simpa using hc
  rw [if_neg (by simp at hlength ⊢; omega), if_pos ⟨rfl, hcontains⟩]
  rfl

theorem exStart_of_prefix {s : Bytes} (h : s <+: word) (hlength : 3 ≤ s.length)
    (hword : exStart word = true) : exStart s = true := by
  obtain ⟨c, hc, hstart⟩ := exStart_iff.mp hword
  exact exStart_iff.mpr ⟨c, hc, List.prefix_of_prefix_length_le hstart h hlength⟩

/-- A word with `ex-` is longer than an ending of it that has no `x`. -/
theorem length_of_ending {ending : Bytes} (h : (cmpend word ending).isSome = true)
    (hex : exStart word = true) (hthree : 3 ≤ ending.length) (hhead : ending.headD 0 ≠ 120) :
    5 ≤ word.length := by
  obtain ⟨⟨front, rfl⟩, hlength⟩ := cmpend_isSome h
  rw [List.length_append] at hlength ⊢
  by_contra hshort
  obtain ⟨a, rfl⟩ := List.length_eq_one_iff.mp (by omega : front.length = 1)
  obtain ⟨c, -, rest, hword⟩ := exStart_iff.mp hex
  have hending : ending = 120 :: c :: rest := (List.cons.inj hword).2.symm
  rw [hending] at hhead
  exact hhead rfl

/-- The retries before the one of `j` shorten the word, put `s` for its final `n`, or replace
every `u` that may stand for `v`. -/
theorem early_cases {s : Bytes} (h : s ∈ earlySpellings spelling word) :
    (s <+: word ∧ (exStart word = true → 3 ≤ s.length)) ∨
      (∃ stem, word = stem ++ [110] ∧ s = stem ++ [115]) ∨ s = (u2v spelling word).1 := by
  unfold earlySpellings Plan.spellings at h
  simp only [List.mem_append, List.mem_map] at h
  rcases h with (((⟨retry, hretry, rfl⟩ | ⟨retry, hretry, rfl⟩) | ⟨retry, hretry, rfl⟩) |
    ⟨retry, hretry, rfl⟩) | ⟨retry, hretry, rfl⟩
  · left
    unfold prodelision at hretry
    split_ifs at hretry with happlies
    · rw [List.mem_singleton.mp hretry]
      refine ⟨List.take_prefix _ _, fun hex => ?_⟩
      obtain ⟨ending, hending, hend⟩ := List.any_eq_true.mp happlies.2
      have hall : ([ascii "ast", ascii "est", ascii "umst", ascii "amst", ascii "emst",
          ascii "omst"].all fun ending => decide (3 ≤ ending.length ∧ ending.headD 0 ≠ 120)) =
          true := by decide
      obtain ⟨hthree, hhead⟩ := of_decide_eq_true (List.all_eq_true.mp hall ending hending)
      have hlength := length_of_ending hend hex hthree hhead
      simp only [List.length_take]
      omega
    · cases hretry
  · left
    unfold ustRetry at hretry
    split_ifs at hretry with happlies
    · rw [List.mem_singleton.mp hretry]
      refine ⟨List.dropLast_prefix _, fun hex => ?_⟩
      have hlength := length_of_ending happlies.2 hex (by decide) (by decide)
      simp only [List.length_dropLast]
      omega
    · cases hretry
  · left
    unfold istRetry at hretry
    split_ifs at hretry with happlies
    · have hlength : exStart word = true → 5 ≤ word.length := by
        intro hex
        rcases happlies.2 with hend | hend <;>
          exact length_of_ending hend hex (by decide) (by decide)
      rcases List.mem_cons.mp hretry with rfl | hretry
      · refine ⟨List.dropLast_prefix _, fun hex => ?_⟩
        have hlength := hlength hex
        simp only [List.length_dropLast]
        omega
      · rw [List.mem_singleton.mp hretry]
        refine ⟨(List.dropLast_prefix _).trans (List.dropLast_prefix _), fun hex => ?_⟩
        have hlength := hlength hex
        simp only [List.length_dropLast]
        omega
    · cases hretry
  · unfold finalN at hretry
    split_ifs at hretry with happlies
    · obtain ⟨⟨stem, rfl⟩, -⟩ := cmpend_isSome happlies.2.2
      have hn : ascii "n" = [110] := by decide
      rw [hn] at hretry ⊢
      rw [List.dropLast_concat] at hretry
      rcases List.mem_cons.mp hretry with rfl | hretry
      · exact .inr (.inl ⟨stem, rfl, rfl⟩)
      · rw [List.mem_singleton.mp hretry]
        refine .inl ⟨List.prefix_append _ _, fun hex => ?_⟩
        rw [exStart_concat (by decide)] at hex
        obtain ⟨c, hc, hstart⟩ := exStart_iff.mp hex
        exact hstart.length_le
    · cases hretry
  · right
    right
    unfold uRetry at hretry
    split_ifs at hretry with happlies
    · rw [List.mem_singleton.mp hretry]
    · cases hretry

/-- The respellings in front of the retry for `ex-` are no longer than the word. -/
theorem early_length {s : Bytes} (h : s ∈ earlySpellings spelling word) :
    s.length ≤ word.length := by
  rcases early_cases h with ⟨hbegins, -⟩ | ⟨stem, rfl, rfl⟩ | rfl
  · exact hbegins.length_le
  · rw [List.length_append, List.length_append]
    exact Nat.le_refl _
  · exact (u2v_respelling spelling word).1.length_eq.le

/-- A word with `ex-` and one without are told apart by every retry before. -/
theorem early_exStart {s : Bytes} (h : s ∈ earlySpellings spelling word) :
    exStart s = exStart word := by
  rcases early_cases h with ⟨hbegins, hthree⟩ | ⟨stem, rfl, rfl⟩ | rfl
  · apply Bool.eq_iff_iff.mpr
    constructor
    · intro hs
      obtain ⟨c, hc, hstart⟩ := exStart_iff.mp hs
      exact exStart_iff.mpr ⟨c, hc, hstart.trans hbegins⟩
    · intro hword
      exact exStart_of_prefix hbegins (hthree hword) hword
  · rw [exStart_concat (by decide), exStart_concat (by decide)]
  · exact exStart_respelling (u2v_respelling spelling word).1

theorem jSpellings_before (before s : Bytes) :
    jSpellings before s = (jSpellings [] s).map fun rest => before ++ rest := by
  induction s generalizing before with
  | nil => rfl
  | cons c s ih =>
    unfold jSpellings
    rw [ih (before ++ [c]), ih ([] ++ [c]), List.map_append, List.map_map]
    congr 1
    · split_ifs <;> rfl
    · apply List.map_congr_left
      intro rest _
      simp

/-- A first letter other than `i` stays. -/
theorem jSpellings_cons {c : Byte} (hc : c ≠ 105) (s : Bytes) :
    jSpellings [] (c :: s) = (jSpellings [] s).map fun rest => c :: rest := by
  have hretry : latinCanRetryJ (c :: s) = false := by
    unfold latinCanRetryJ
    split
    · rename_i heq
      obtain ⟨rfl, -⟩ := List.cons.inj heq
      rw [beq_eq_false_iff_ne.mpr hc, Bool.false_and]
    · rfl
  rw [jSpellings, hretry]
  exact jSpellings_before [c] s

/-- The retry of `j` for a word without a capital `I`. -/
theorem jRetry_plain (hlatin : spelling.language = latin) (hfirst : word.headD 0 ≠ 73) :
    (jRetry spelling word).spellings word = singleJ word := by
  have hbeq : (word.headD 0 == 73) = false := by simpa using hfirst
  have hplan : ∀ empty, jRetry spelling word word empty =
      (jSpellings [] word).map fun s => { spelling := s } := by
    intro empty
    unfold jRetry
    rw [if_pos hlatin, hbeq]
    rfl
  rw [Plan.spellings_plain hplan]
  unfold singleJ
  rw [hbeq]
  rfl

/-- The `J` for a capital `I` stays while the other letters are replaced. -/
theorem jRetry_capital (hlatin : spelling.language = latin) (rest : Bytes) :
    (jRetry spelling (73 :: rest)).spellings (73 :: rest) =
      (74 :: rest) :: (jSpellings [] rest).map fun s => 74 :: s := by
  have hplan : ∀ empty, jRetry spelling (73 :: rest) (73 :: rest) empty =
      ((74 :: rest) :: jSpellings [] (74 :: rest)).map fun s => { spelling := s } := by
    intro empty
    unfold jRetry
    rw [if_pos hlatin]
    rfl
  rw [Plan.spellings_plain hplan]
  congr 1
  exact jSpellings_cons (by decide) rest

theorem singleJ_capital (rest : Bytes) :
    singleJ (73 :: rest) = (74 :: rest) :: (jSpellings [] rest).map fun s => 73 :: s := by
  unfold singleJ
  rw [jSpellings_cons (by decide)]
  rfl

theorem exRetry_spellings (hlatin : spelling.language = latin) (w : Bytes) :
    (exRetry spelling).spellings w = (latinExpandEx w maxWordSize).toList := by
  apply Plan.spellings_plain
  intro empty
  unfold exRetry
  by_cases hex : w.take 2 = ascii "ex"
  · exact if_pos ⟨hlatin, hex⟩
  · rw [if_neg fun h => hex h.2]
    cases hexpand : latinExpandEx w maxWordSize with
    | none => rfl
    | some t =>
      obtain ⟨c, -, rest, rfl, -⟩ := latinExpandEx_some hexpand
      exact absurd rfl hex

theorem exists_capital (h : word.headD 0 = 73) : ∃ rest, word = 73 :: rest := by
  cases word with
  | nil => exact absurd h (by decide)
  | cons c rest => exact ⟨rest, congrArg (· :: rest) h⟩

/-- The spellings in front of the retry for `ex-` begin with `ex-` when the word does. -/
theorem leftover_small (hlatin : spelling.language = latin) {s : Bytes}
    (h : s ∈ earlySpellings spelling word ++ (jRetry spelling word).spellings word) :
    s.length ≤ word.length ∧ exStart s = exStart word := by
  rcases List.mem_append.mp h with h | h
  · exact ⟨early_length h, early_exStart h⟩
  · by_cases hfirst : word.headD 0 = 73
    · obtain ⟨rest, rfl⟩ := exists_capital hfirst
      have hnone : ∀ (c : Byte) (s : Bytes), c ≠ 101 → exStart (c :: s) = false := by
        intro c s hc
        apply Bool.eq_false_iff.mpr
        intro hstart
        obtain ⟨d, -, tail, heq⟩ := exStart_iff.mp hstart
        exact hc (List.cons.inj heq).1.symm
      rw [jRetry_capital hlatin] at h
      rw [hnone 73 rest (by decide)]
      rcases List.mem_cons.mp h with rfl | h
      · exact ⟨Nat.le_refl _, hnone 74 rest (by decide)⟩
      · obtain ⟨t, ht, rfl⟩ := List.mem_map.mp h
        refine ⟨?_, hnone 74 t (by decide)⟩
        have hlength := (jSpellings_respelling ht).1.length_eq
        rw [List.nil_append] at hlength
        exact Nat.succ_le_succ hlength.le
    · rw [jRetry_plain hlatin hfirst] at h
      unfold singleJ at h
      rw [beq_eq_false_iff_ne.mpr hfirst] at h
      have hrespelling := (jSpellings_respelling (by simpa using h)).1
      exact ⟨hrespelling.length_eq.le, exStart_respelling hrespelling⟩

theorem leftover_mem (spelling : Spelling) (word : Bytes) : leftover spelling word = word ∨
    leftover spelling word ∈ earlySpellings spelling word ++
      (jRetry spelling word).spellings word := by
  unfold leftover
  rcases List.eq_nil_or_concat (earlySpellings spelling word ++
      (jRetry spelling word).spellings word) with hnil | ⟨front, s, hconcat⟩
  · rw [hnil]
    exact .inl rfl
  · rw [hconcat, List.concat_eq_append, List.getLastD_concat]
    right
    simp

theorem leftover_like (hlatin : spelling.language = latin) (word : Bytes) :
    (leftover spelling word).length ≤ word.length ∧
      exStart (leftover spelling word) = exStart word := by
  rcases leftover_mem spelling word with hsame | hmem
  · rw [hsame]
    exact ⟨Nat.le_refl _, rfl⟩
  · exact leftover_small hlatin hmem

/-- Without leftovers the retries are those that one retry makes of the word. -/
theorem executedSpellings_fresh (hlatin : spelling.language = latin)
    (hlength : word.length < maxWordSize) (h : NoLeftover spelling word) :
    executedSpellings spelling word = singleRespellings spelling word := by
  obtain ⟨hcapital, hleftover⟩ := h
  have hj : (jRetry spelling word).spellings word = singleJ word := by
    by_cases hfirst : word.headD 0 = 73
    · have hnone := hcapital hfirst
      obtain ⟨rest, rfl⟩ := exists_capital hfirst
      rw [jSpellings_cons (by decide)] at hnone
      have hrest := List.map_eq_nil_iff.mp hnone
      rw [jRetry_capital hlatin, singleJ_capital, hrest]
      rfl
    · exact jRetry_plain hlatin hfirst
  have hex : (exRetry spelling).spellings (leftover spelling word) =
      (exRetry spelling).spellings word := by
    rcases hleftover with hsame | hnone
    · rw [hsame]
    · have hword : latinExpandEx word maxWordSize = none := by
        by_contra hsome
        obtain ⟨t, ht⟩ := Option.ne_none_iff_exists'.mp hsome
        obtain ⟨hex, hshort⟩ := exStart_of_latinExpandEx ht
        obtain ⟨hle, hsame⟩ := leftover_like hlatin word
        rw [← hsame] at hex
        obtain ⟨c, rest, -, hexpand⟩ := latinExpandEx_of_exStart hex (hle.trans_lt hshort)
        rw [hexpand] at hnone
        cases hnone
      rw [exRetry_spellings hlatin, exRetry_spellings hlatin, hnone, hword]
  unfold executedSpellings singleRespellings
  rw [hj, hex]

/-- The head of what a retry before the one of `j` makes of a word with a capital `I`. -/
theorem early_capital {rest s : Bytes} (h : s ∈ earlySpellings spelling (73 :: rest)) :
    s.head? ≠ some 74 := by
  rcases early_cases h with ⟨⟨tail, htail⟩, -⟩ | ⟨stem, hstem, rfl⟩ | rfl
  · cases s with
    | nil => simp
    | cons c s =>
      rw [(List.cons.inj htail).1]
      simp
  · cases stem with
    | nil => exact absurd (List.cons.inj hstem).1 (by decide)
    | cons c stem =>
      rw [← (List.cons.inj hstem).1]
      simp
  · have hu : (u2v spelling (73 :: rest)).1 = 73 :: (u2vFrom spelling [73] rest).1 := rfl
    rw [hu]
    simp

theorem encliticStems_prefix {s : Bytes} (h : s ∈ encliticStems spelling word) : s <+: word := by
  obtain ⟨retry, hretry, rfl⟩ := List.mem_map.mp h
  obtain ⟨enclitic, -, hfound⟩ := List.mem_filterMap.mp hretry
  obtain ⟨stem, hstem, rfl⟩ := Option.map_eq_some_iff.mp hfound
  obtain ⟨-, -, -, rfl⟩ := cmpend_some hstem
  exact List.take_prefix _ _

/-- With leftovers a spelling is tried that no single retry makes of the word. -/
theorem noLeftover_of_subset (hlatin : spelling.language = latin)
    (h : ∀ s ∈ executedSpellings spelling word,
      s ∈ encliticStems spelling word ++ singleRespellings spelling word) :
    NoLeftover spelling word := by
  constructor
  · intro hfirst
    obtain ⟨rest, rfl⟩ := exists_capital hfirst
    rw [jSpellings_cons (by decide)]
    apply List.map_eq_nil_iff.mpr
    apply List.eq_nil_iff_forall_not_mem.mpr
    intro s hs
    have hmem : 74 :: s ∈ executedSpellings spelling (73 :: rest) := by
      apply List.mem_append_left
      apply List.mem_append_right
      rw [jRetry_capital hlatin]
      exact List.mem_cons_of_mem _ (List.mem_map_of_mem hs)
    rcases List.mem_append.mp (h _ hmem) with henclitic | hsingle
    · obtain ⟨tail, htail⟩ := encliticStems_prefix henclitic
      exact absurd (List.cons.inj htail).1 (by decide)
    · unfold singleRespellings at hsingle
      rw [List.mem_append, List.mem_append, singleJ_capital, exRetry_spellings hlatin] at hsingle
      rcases hsingle with (hearly | hj) | hex
      · exact early_capital hearly rfl
      · rcases List.mem_cons.mp hj with heq | hj
        · exact (jSpellings_respelling hs).2 (List.cons.inj heq).2
        · obtain ⟨t, -, heq⟩ := List.mem_map.mp hj
          exact absurd (List.cons.inj heq).1 (by decide)
      · obtain ⟨c, -, tail, heq, -⟩ := latinExpandEx_some (Option.mem_toList.mp hex)
        exact absurd (List.cons.inj heq).1 (by decide)
  · by_contra hnot
    push Not at hnot
    obtain ⟨hne, hsome⟩ := hnot
    obtain ⟨t, ht⟩ := Option.ne_none_iff_exists'.mp hsome
    obtain ⟨c, hc, rest, hleftover, rfl⟩ := latinExpandEx_some ht
    have hword : exStart word = true := by
      rw [← (leftover_like hlatin word).2]
      exact (exStart_of_latinExpandEx ht).1
    have hmem : 101 :: 120 :: 115 :: c :: rest ∈ executedSpellings spelling word := by
      apply List.mem_append_right
      rw [exRetry_spellings hlatin, ht]
      exact List.mem_cons_self
    have hfirst : word.headD 0 ≠ 73 := by
      obtain ⟨d, -, tail, rfl⟩ := exStart_iff.mp hword
      exact (by decide : (101 : Byte) ≠ 73)
    rcases List.mem_append.mp (h _ hmem) with henclitic | hsingle
    · obtain ⟨d, hd, hstart⟩ := exStart_iff.mp hword
      obtain ⟨tail, rfl⟩ := encliticStems_prefix henclitic
      obtain ⟨more, hmore⟩ := hstart
      have hds := (List.cons.inj (List.cons.inj (List.cons.inj hmore).2).2).1
      rw [hds] at hd
      exact absurd hd (by decide)
    · unfold singleRespellings at hsingle
      rw [List.mem_append, exRetry_spellings hlatin, ← jRetry_plain hlatin hfirst] at hsingle
      rcases hsingle with hsmall | hex
      · have hsame := (leftover_small hlatin hsmall).2
        rw [exStart_expanded, hword] at hsame
        cases hsame
      · obtain ⟨d, -, tail, rfl, heq⟩ := latinExpandEx_some (Option.mem_toList.mp hex)
        apply hne
        rw [hleftover]
        simpa using heq

end Condition

section Dictionaries
variable (spelling : Spelling) (dictionary : Dictionary) (word : Bytes)

theorem earlySpellings_answered :
    earlySpellings (spelling.answered dictionary) word = earlySpellings spelling word := by
  unfold earlySpellings
  rw [uRetry_answered]
  rfl

theorem noLeftover_answered :
    NoLeftover (spelling.answered dictionary) word ↔ NoLeftover spelling word := by
  unfold NoLeftover leftover
  rw [earlySpellings_answered]
  rfl

end Dictionaries

/-- In an activation for a Latin word every retry starts from the entered spelling, whatever the
dictionary answers, just when no failed retry leaves a spelling on which a later one builds. -/
theorem retriesFresh_iff_noLeftover (spelling : Spelling) (hlatin : spelling.language = latin)
    (word : Bytes) (hlength : word.length < maxWordSize) (fuel : ℕ)
    (hfuel : spellingRank word ≤ fuel) :
    (∀ dictionary : Dictionary, ∀ gkword : SpellWord, gkword.workword = word →
      RetriesFresh (spelling.answered dictionary) fuel gkword) ↔ NoLeftover spelling word := by
  constructor
  · intro h
    have hlatin' : (spelling.answered emptyDictionary).language = latin := hlatin
    have hkeeps := keeps_silent (emptyDictionary_silent spelling) []
    obtain ⟨hcheck4, hself, hapostr⟩ := checks_keeping (answered_honest spelling emptyDictionary) hfuel
    obtain ⟨hsettle4, hsettle, hsettleApostr⟩ := checks_settle hkeeps hfuel
    obtain ⟨act, hfinal, hend⟩ := (activation_latin hlatin'
      (rfl : (SpellWord.unanalysed word).workword = word) hlength hcheck4 hself hapostr).final
    obtain ⟨act', hfinal', hrestored⟩ := (activation_settles hkeeps hsettle4 hsettle hsettleApostr
      (⟨Nat.zero_le _, rfl⟩ : 0 ≤ (SpellWord.unanalysed word).lookups ∧
        (SpellWord.unanalysed word).analyses = [])).final
    obtain ⟨act'', hfinal'', hfresh, -⟩ := h emptyDictionary (SpellWord.unanalysed word) rfl
    obtain rfl : act' = act := Option.some.inj (hfinal'.symm.trans hfinal)
    obtain rfl : act'' = act' := Option.some.inj (hfinal''.symm.trans hfinal)
    obtain ⟨-, hrval, -, hanalyses⟩ := hrestored.elim id id
    rw [← noLeftover_answered spelling emptyDictionary]
    apply noLeftover_of_subset hlatin'
    intro s hs
    rcases hend with ⟨hne, -⟩ | ⟨-, htried⟩
    · exact absurd hrval hne
    · rcases htried with hne | htried
      · exact absurd hanalyses hne
      · exact hfresh _ (htried s hs)
  · intro h dictionary gkword hword
    have hlatin' : (spelling.answered dictionary).language = latin := hlatin
    obtain ⟨hcheck4, hself, hapostr⟩ := checks_keeping (answered_honest spelling dictionary) hfuel
    obtain ⟨act, hfinal, hend⟩ :=
      (activation_latin hlatin' hword hlength hcheck4 hself hapostr).final
    have hsame := executedSpellings_fresh hlatin' hlength
      ((noLeftover_answered spelling dictionary word).mpr h)
    have htried : ∀ attempt ∈ act.tried,
        attempt.1 ∈ triedSpellings (spelling.answered dictionary) word :=
      hend.elim (fun h => h.2) fun h => h.1
    unfold RetriesFresh
    rw [hword]
    refine ⟨act, hfinal, fun attempt hattempt => ?_, fun hrval hanalyses s hs => ?_⟩
    · have hmem := htried attempt hattempt
      unfold triedSpellings at hmem
      rw [hsame] at hmem
      rcases List.mem_append.mp hmem with henclitic | hmem
      · exact List.mem_append_left _ henclitic
      · rcases List.mem_append.mp hmem with hsingle | hex
        · exact List.mem_append_right _ hsingle
        · exact List.mem_append_right _ (List.mem_append_right _ hex)
    · rw [← hsame] at hs
      rcases hend with ⟨hne, -⟩ | ⟨-, htried⟩
      · exact absurd hrval hne
      · exact htried.elim (fun hne => absurd hanalyses hne) fun h => h s hs

theorem retriesFresh_iff_noLeftover_exul :
    (∀ dictionary : Dictionary, ∀ gkword : SpellWord, gkword.workword = ascii "exul" →
      RetriesFresh (plainLatin.answered dictionary) 12 gkword) ↔
      NoLeftover plainLatin (ascii "exul") :=
  retriesFresh_iff_noLeftover plainLatin rfl (ascii "exul") (by decide) 12 (by decide)

/-- `exspiat` is in the dictionary. The retry with `expjat` fails, the one for `ex-` makes
`exspjat` of it, and `expiat` stays without an analysis. -/
theorem expiat_builds_on_leftover :
    ascii "exspiat" ∈ singleRespellings plainLatin (ascii "expiat") ∧
      ((checkstring3 (plainLatin.answered (oneWordDictionary (ascii "exspiat"))) 20
        (SpellWord.unanalysed (ascii "exspiat"))).map fun found =>
          found.2.analyses.isEmpty) = some false ∧
      ((checkstring3 (plainLatin.answered (oneWordDictionary (ascii "exspiat"))) 20
        (SpellWord.unanalysed (ascii "expiat"))).map fun found =>
          found.2.analyses.isEmpty) = some true ∧
      ¬ RetriesFresh (plainLatin.answered (oneWordDictionary (ascii "exspiat"))) 20
        (SpellWord.unanalysed (ascii "expiat")) := by
  refine ⟨by decide +kernel, by decide +kernel, by decide +kernel, ?_⟩
  rintro ⟨act, hfinal, -, hretried⟩
  have hrun : ((activation (plainLatin.answered (oneWordDictionary (ascii "exspiat")))
      (checkstring4 (plainLatin.answered (oneWordDictionary (ascii "exspiat"))) 20)
      (checkstring3 (plainLatin.answered (oneWordDictionary (ascii "exspiat"))) 20)
      (checkapostr (plainLatin.answered (oneWordDictionary (ascii "exspiat"))) 20)
      (SpellWord.unanalysed (ascii "expiat"))).final.map fun act =>
        (act.rval, act.gkword.analyses.isEmpty, act.tried)) =
      some (0, true, [(ascii "expjat", 0), (ascii "exspjat", 0)]) := by
    decide +kernel
  rw [hfinal] at hrun
  obtain ⟨hrval, hrest⟩ := Prod.mk.inj (Option.some.inj hrun)
  obtain ⟨hanalyses, htried⟩ := Prod.mk.inj hrest
  have hmem := hretried hrval (List.isEmpty_iff.mp hanalyses) (ascii "exspiat") (by decide +kernel)
  rw [htried] at hmem
  exact absurd hmem (by decide)

end Morpheus
