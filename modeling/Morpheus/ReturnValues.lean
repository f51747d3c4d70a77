import Morpheus.LostElisions

/-!
# When the return value of the retries counts

An answer of the dictionary for which some activation on the way from a word loses count is
carried to the word itself. So the return value of `checkstring3` counts for every dictionary
exactly when no activation on the way loses count.
-/
namespace Morpheus

section Counts
variable {spelling : Spelling} {word : Bytes}

/-- An activation that loses count of its own tries. -/
theorem loses_of_miscounts (hroomy : Roomy word) (h : Miscounts spelling word) {fuel : ℕ}
    (hfuel : spellingRank word < fuel) {gkword : SpellWord} (hword : gkword.workword = word)
    (hanalyses : gkword.analyses = []) : Loses (checkOnce spelling fuel) gkword := by
  by_cases hreset : Capitalized spelling word ∨ Overwritten spelling word
  · obtain ⟨found, hfound, hzero, hone, hlookups⟩ :=
      reset_oneShot hroomy.1 hreset hfuel hword GkAnalysis.zero
    refine ⟨_, _, found, Nat.le_refl _, hfound, fun hiff => ?_, hlookups⟩
    have hempty := hiff.mp hzero
    rw [hone] at hempty
    cases hempty
  · push Not at hreset
    obtain ⟨hcapitals, hoverwritten⟩ := hreset
    have hsifted : SiftedEnclitic spelling word :=
      (h.resolve_left hcapitals).resolve_right hoverwritten
    obtain ⟨fuel, rfl⟩ : ∃ more, fuel = more + 1 := ⟨fuel - 1, by omega⟩
    exact loses_sifted (by omega) hroomy hcapitals hword hanalyses hsifted

theorem Retries.roomy {s : Bytes} (h : Retries spelling word s) (hroomy : Roomy word) : Roomy s := by
  rcases h with helides | hretried
  · have hlast : word.getLast? = some 39 := by cases helides <;> assumption
    exact helides.room (hroomy.elision hlast)
  · exact (retried_small hroomy hretried).1

/-- An activation that tries a spelling for which count is lost. -/
theorem loses_of_retries (hroomy : Roomy word) (hmiscounts : ¬ Miscounts spelling word) {s : Bytes}
    (hretries : Retries spelling word s)
    (hs : ∀ fuel, spellingRank s < fuel → ∀ g : SpellWord, g.workword = s → g.analyses = [] →
      Loses (checkOnce spelling fuel) g) {fuel : ℕ} (hfuel : spellingRank word < fuel)
    {gkword : SpellWord} (hword : gkword.workword = word) (hanalyses : gkword.analyses = []) :
    Loses (checkOnce spelling fuel) gkword := by
  obtain ⟨fuel, rfl⟩ : ∃ more, fuel = more + 1 := ⟨fuel - 1, by omega⟩
  have hfuel : spellingRank word ≤ fuel := by omega
  unfold Miscounts at hmiscounts
  push Not at hmiscounts
  obtain ⟨hcapitals, hsifted, -⟩ := hmiscounts
  rcases hretries with helides | henclitic | hplace
  · have hlast : word.getLast? = some 39 := by cases helides <;> assumption
    have hle := elisionRank_le hlast
    apply loses_apostrophe hfuel hroomy.1 hcapitals hword hanalyses hlast
    intro g hg hnone
    exact loses_elision helides hs fuel (by omega) hroomy.1 hg hnone
  · obtain ⟨hfits, hrank⟩ := retried_small hroomy (.inl henclitic)
    obtain ⟨retry, hretry, rfl⟩ := List.mem_map.mp henclitic
    have hmask : retry.mask = 0 := by
      by_contra hne
      exact hsifted ⟨retry, hretry, hne⟩
    apply loses_enclitic hfuel hroomy hcapitals hword hanalyses hretry
    intro next hrval hnone
    obtain ⟨k, anal, found, hk, hfound, hcount, hlookups⟩ :=
      hs fuel (by omega) (next.gkword.setWorkword retry.spelling) (xstrncpy_of_lt hfits.1) hnone
    exact ⟨k, anal, found, hk, hfound, Retry.result_lost hmask hrval hcount hlookups⟩
  · obtain ⟨-, hrank⟩ := retried_small hroomy (.inr hplace)
    apply loses_place hfuel hroomy hcapitals hword hanalyses hplace
    intro g hg hnone
    exact hs fuel (by omega) g hg hnone

/-- Count is lost for a word when an activation on the way from it loses count. -/
theorem loses_of_reaches {s : Bytes} (hreaches : Relation.ReflTransGen (Retries spelling) word s)
    (hmiscounts : Miscounts spelling s) (hroomy : Roomy word) :
    ∀ fuel, spellingRank word < fuel → ∀ gkword : SpellWord, gkword.workword = word →
      gkword.analyses = [] → Loses (checkOnce spelling fuel) gkword := by
  induction hreaches using Relation.ReflTransGen.head_induction_on with
  | refl =>
    intro fuel hfuel gkword hword hanalyses
    exact loses_of_miscounts hroomy hmiscounts hfuel hword hanalyses
  | @head word next hstep _ ih =>
    intro fuel hfuel gkword hword hanalyses
    by_cases hown : Miscounts spelling word
    · exact loses_of_miscounts hroomy hown hfuel hword hanalyses
    · exact loses_of_retries hroomy hown hstep (ih (hstep.roomy hroomy)) hfuel hword hanalyses

theorem miscounts_answered (spelling : Spelling) (dictionary : Dictionary) (word : Bytes) :
    Miscounts (spelling.answered dictionary) word ↔ Miscounts spelling word := by
  unfold Miscounts
  rw [overwritten_answered]
  rfl

theorem countsOn_answered (spelling : Spelling) (dictionary : Dictionary) (word : Bytes) :
    CountsOn (spelling.answered dictionary) word ↔ CountsOn spelling word := by
  have hretries : Retries (spelling.answered dictionary) = Retries spelling := by
    funext w s
    unfold Retries
    rw [plans_answered]
    rfl
  unfold CountsOn
  simp only [hretries, miscounts_answered]

end Counts

/-- Whatever the dictionary answers, `checkstring3` returns 0 for a word without an analysis and a
nonzero value for one with an analysis, exactly when no activation on the way from the word loses
count: tries other capitals, sifts the analyses behind an enclitic, or replaces the return value of
a spelling that found something. -/
theorem returnValue_counts_iff (spelling : Spelling) (word : Bytes) (hroomy : Roomy word) (fuel : ℕ)
    (hfuel : spellingRank word < fuel) :
    (∀ dictionary : Dictionary, ∀ gkword : SpellWord, gkword.workword = word →
      gkword.analyses = [] → ∃ found,
        checkstring3 (spelling.answered dictionary) fuel gkword = some found ∧
          (found.1 = 0 ↔ found.2.analyses = [])) ↔ CountsOn spelling word := by
  constructor
  · intro h s hreaches hmiscounts
    obtain ⟨k, anal, found, -, hfound, hcount, -⟩ := loses_of_reaches hreaches hmiscounts hroomy fuel
      hfuel (SpellWord.unanalysed word) rfl rfl
    obtain ⟨other, hother, htallied⟩ := h (oneShot k anal) (SpellWord.unanalysed word) rfl rfl
    have hsame : other = found := Option.some.inj (hother.symm.trans hfound)
    rw [hsame] at htallied
    exact hcount htallied
  · intro hcounts dictionary gkword hword hanalyses
    have hcounts := (countsOn_answered spelling dictionary word).mpr hcounts
    rw [← hword] at hcounts hroomy hfuel
    obtain ⟨found, hfound, -, -, htallied⟩ :=
      (counts_settle (answered_honest spelling dictionary) fuel).1 gkword hfuel hroomy hcounts
    exact ⟨found, hfound, htallied hanalyses⟩

theorem countsOn_arma : CountsOn plainLatin (ascii "arma") := by
  have hnone : ∀ s, ¬ Retries plainLatin (ascii "arma") s := by
    intro s h
    rcases h with helides | henclitic | hplace
    · have hlast : (ascii "arma").getLast? = some 39 := by cases helides <;> assumption
      exact absurd hlast (by decide)
    · have hempty : encliticStems plainLatin (ascii "arma") = [] := by decide
      rw [hempty] at henclitic
      cases henclitic
    · have hempty : silentSpellings (ascii "arma") ((plans plainLatin (ascii "arma")).drop 1) [] =
        [] := by decide
      rw [hempty] at hplace
      cases hplace
  intro s hreaches
  rcases hreaches.cases_head with rfl | ⟨next, hstep, -⟩
  · unfold Miscounts Capitalized SiftedEnclitic Overwritten
    decide
  · exact absurd hstep (hnone next)

theorem returnValue_counts_arma :
    (∀ dictionary : Dictionary, ∀ gkword : SpellWord, gkword.workword = ascii "arma" →
      gkword.analyses = [] → ∃ found,
        checkstring3 (plainLatin.answered dictionary) 20 gkword = some found ∧
          (found.1 = 0 ↔ found.2.analyses = [])) ∧ CountsOn plainLatin (ascii "arma") :=
  ⟨(returnValue_counts_iff plainLatin (ascii "arma") (fits_of_length (by decide)) 20
    (by decide)).mpr countsOn_arma, countsOn_arma⟩

/-- `uenit` is in the dictionary, and the retry with `venit` that fails makes the return value 0.
`ego` is in the dictionary, and its analysis does not stay behind `-met`. -/
theorem uenit_and_egomet_miscount :
    ((checkstring3 (plainLatin.answered (oneWordDictionary (ascii "uenit"))) 20
      (SpellWord.unanalysed (ascii "uenit"))).map fun found =>
        (found.1, found.2.analyses.isEmpty)) = some (0, false) ∧
    ((checkstring3 (plainLatin.answered (oneWordDictionary (ascii "ego"))) 20
      (SpellWord.unanalysed (ascii "egomet"))).map fun found =>
        (found.1, found.2.analyses.isEmpty)) = some (1, true) ∧
    ¬ ∀ word : Bytes, ∀ dictionary : Dictionary, ∀ gkword : SpellWord, gkword.workword = word →
      gkword.analyses = [] → ∀ found,
        checkstring3 (plainLatin.answered dictionary) 20 gkword = some found →
          (found.1 = 0 ↔ found.2.analyses = []) := by
  have huenit : ((checkstring3 (plainLatin.answered (oneWordDictionary (ascii "uenit"))) 20
      (SpellWord.unanalysed (ascii "uenit"))).map fun found =>
        (found.1, found.2.analyses.isEmpty)) = some (0, false) := by decide +kernel
  refine ⟨huenit, by decide +kernel, fun h => ?_⟩
  obtain ⟨found, hfound, heq⟩ := Option.map_eq_some_iff.mp huenit
  have hzero : found.1 = 0 := congrArg Prod.fst heq
  have hempty := (h (ascii "uenit") _ (SpellWord.unanalysed (ascii "uenit")) rfl rfl found hfound).mp
    hzero
  have hsome : found.2.analyses.isEmpty = false := congrArg Prod.snd heq
  rw [hempty] at hsome
  cases hsome

end Morpheus
