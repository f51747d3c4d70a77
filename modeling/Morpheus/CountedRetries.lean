import Morpheus.RetryCounts

/-!
# Words whose retries count

The spellings that are tried fit in the buffer when the word has room for an elision, and have a
smaller rank. When no activation for them loses count, the return value of `checkstring3` counts.
-/
namespace Morpheus

/-- A word that fits in the buffer, with room for `ai` instead of an apostrophe and for the `s` of
`exs-`. -/
def Roomy (word : Bytes) : Prop :=
  word.length < maxWordSize ∧
    ∀ front, front ++ [39] <+: word → front.length + (exStart word).toNat + 2 < maxWordSize

section Roomy
variable {word s : Bytes}

theorem fits_of_length (h : word.length + 2 < maxWordSize) : Roomy word := by
  refine ⟨by omega, fun front hfront => ?_⟩
  have hlength := hfront.length_le
  have hex := Bool.toNat_le (exStart word)
  rw [List.length_append, List.length_singleton] at hlength
  omega

theorem Roomy.of_isPrefix (h : Roomy word) (hs : s <+: word) : Roomy s := by
  refine ⟨hs.length_le.trans_lt h.1, fun front hfront => ?_⟩
  have hroom := h.2 front (hfront.trans hs)
  have hex := exStart_prefix hs
  omega

theorem Roomy.finalN {stem : Bytes} (h : Roomy (stem ++ [110])) : Roomy (stem ++ [115]) := by
  obtain ⟨hlength, hroom⟩ := h
  rw [exStart_concat (by decide)] at hroom
  refine ⟨by simpa using hlength, fun front hfront => ?_⟩
  rw [exStart_concat (by decide)]
  rcases List.prefix_concat_iff.mp hfront with heq | hstem
  · have hlast := (List.append_inj' heq rfl).2
    exact absurd hlast (by decide)
  · exact hroom front (hstem.trans (List.prefix_append _ _))

/-- An apostrophe is not replaced. -/
theorem apostrophe_of_respelling (hs : Respelling s word) {front : Bytes}
    (hfront : front ++ [39] <+: s) : ∃ old, old ++ [39] <+: word ∧ old.length = front.length := by
  induction front generalizing s word with
  | nil =>
    obtain ⟨tail, rfl⟩ := hfront
    obtain ⟨c, rest, hc, -, rfl⟩ := List.forall₂_cons_left_iff.mp hs
    rcases hc with rfl | ⟨-, hc⟩
    · exact ⟨[], ⟨rest, rfl⟩, rfl⟩
    · exact absurd hc (by decide)
  | cons a front ih =>
    obtain ⟨tail, rfl⟩ := hfront
    obtain ⟨c, rest, -, hrest, rfl⟩ := List.forall₂_cons_left_iff.mp hs
    obtain ⟨old, ⟨more, hmore⟩, hlength⟩ := ih hrest (List.prefix_append _ _)
    refine ⟨c :: old, ⟨more, congrArg (c :: ·) hmore⟩, ?_⟩
    rw [List.length_cons, List.length_cons, hlength]

theorem Roomy.respelling (h : Roomy word) (hs : Respelling s word) : Roomy s := by
  obtain ⟨hlength, hroom⟩ := h
  rw [← exStart_respelling hs] at hroom
  refine ⟨by rw [hs.length_eq]; exact hlength, fun front hfront => ?_⟩
  obtain ⟨old, hold, hsame⟩ := apostrophe_of_respelling hs hfront
  have hshort := hroom old hold
  omega

theorem Roomy.expandEx (h : Roomy word) (hs : latinExpandEx word maxWordSize = some s) : Roomy s := by
  obtain ⟨hlength, hroom⟩ := h
  refine ⟨latinExpandEx_length hs, fun front hfront => ?_⟩
  obtain ⟨hex, -⟩ := exStart_of_latinExpandEx hs
  obtain ⟨c, hc, rest, rfl, rfl⟩ := latinExpandEx_some hs
  rw [hex] at hroom
  rw [exStart_expanded]
  obtain ⟨tail, htail⟩ := hfront
  match front, htail with
  | [], htail => exact absurd (List.cons.inj htail).1 (by decide)
  | [_], htail => exact absurd (List.cons.inj (List.cons.inj htail).2).1 (by decide)
  | [_, _], htail =>
    exact absurd (List.cons.inj (List.cons.inj (List.cons.inj htail).2).2).1 (by decide)
  | a :: b :: d :: front, htail =>
    have hrest := (List.cons.inj (List.cons.inj (List.cons.inj htail).2).2).2
    have hshort := hroom (a :: b :: front) ⟨tail, by
      rw [(List.cons.inj htail).1, (List.cons.inj (List.cons.inj htail).2).1, ← hrest]
      rfl⟩
    simp only [List.length_cons, Bool.toNat_true, Bool.toNat_false] at hshort ⊢
    omega

/-- Every retry makes a word with room from one. -/
theorem Roomy.retry {spelling : Spelling} {plan : Plan} (hplan : plan ∈ plans spelling word)
    (hword : Roomy word) {w : Bytes} (hw : Roomy w) {empty : Bool} {retry : Retry}
    (hretry : retry ∈ plan w empty) : Roomy retry.spelling := by
  rcases retry_cases _ _ hplan hretry with hbegins | ⟨stem, rfl, hn⟩ | hrespelling | hex
  · exact hw.of_isPrefix hbegins
  · rw [hn]
    exact hw.finalN
  · exact hword.respelling hrespelling
  · exact hw.expandEx hex

theorem addApostrvowel_length {vow : Bytes} (h : (word.dropLast ++ vow).length < maxWordSize) :
    (addApostrvowel word vow).length < maxWordSize := by
  unfold addApostrvowel
  dsimp only
  rw [if_neg (Nat.not_le.mpr h)]
  have haccent : ∀ candidate : Bytes,
      (if (word.dropLast ++ vow).any isAccent = true then some (word.dropLast ++ vow)
        else appendText (word.dropLast ++ vow) maxWordSize [47]) = some candidate →
      candidate.length < maxWordSize := by
    intro candidate hcandidate
    split_ifs at hcandidate
    · rw [← Option.some.inj hcandidate]
      exact h
    · exact appendText_length hcandidate
  generalize (if (word.dropLast ++ vow).any isAccent = true then some (word.dropLast ++ vow)
    else appendText (word.dropLast ++ vow) maxWordSize [47]) = accented at haccent ⊢
  have hmarked : ∀ candidate : Bytes,
      (if vow.headD 0 = 117 ∨ vow.headD 0 = 105 ∨ vow.headD 0 = 97 then
        accented.bind fun candidate => appendText candidate maxWordSize [94] else accented) =
        some candidate → candidate.length < maxWordSize := by
    intro candidate hcandidate
    split_ifs at hcandidate
    · obtain ⟨first, -, hmark⟩ := Option.bind_eq_some_iff.mp hcandidate
      exact appendText_length hmark
    · exact haccent candidate hcandidate
  generalize (if vow.headD 0 = 117 ∨ vow.headD 0 = 105 ∨ vow.headD 0 = 97 then
    accented.bind fun candidate => appendText candidate maxWordSize [94] else accented) = marked
    at hmarked ⊢
  cases marked with
  | none => exact h
  | some candidate => exact hmarked candidate rfl

/-- A vowel for the apostrophe, with the marks behind it. -/
theorem addApostrvowel_fits {vow : Bytes × Bool} {numSylls : ℕ} (hlast : word.getLast? = some 39)
    (hlength : word.length + 1 < maxWordSize) (hvow : vow ∈ elidedVowels numSylls) :
    (addApostrvowel word vow.1).length < maxWordSize ∧
      ∀ front, front ++ [39] <+: addApostrvowel word vow.1 → front.length + 2 ≤ word.length := by
  obtain ⟨init, rfl⟩ := List.getLast?_eq_some_iff.mp hlast
  obtain ⟨hvowels, hshort⟩ : 39 ∉ vow.1 ∧ vow.1.length ≤ 2 := by
    have hall : ((elidedVowels 1 ++ elidedVowels 0).all fun vow =>
        decide (39 ∉ vow.1 ∧ vow.1.length ≤ 2)) = true := by decide
    have hmem : vow ∈ elidedVowels 1 ++ elidedVowels 0 := by
      unfold elidedVowels at hvow ⊢
      split_ifs at hvow
      · exact List.mem_append_left _ hvow
      · exact List.mem_append_right _ hvow
    exact of_decide_eq_true (List.all_eq_true.mp hall vow hmem)
  constructor
  · apply addApostrvowel_length
    simp only [List.dropLast_concat, List.length_append, List.length_singleton] at hlength ⊢
    omega
  · intro front hfront
    obtain ⟨marks, hmarks, heq⟩ := addApostrvowel_eq (init ++ [39]) vow.1
    rw [heq, List.dropLast_concat, List.append_assoc] at hfront
    have hnone : 39 ∉ vow.1 ++ marks := by
      intro h39
      rcases List.mem_append.mp h39 with h39 | h39
      · exact hvowels h39
      · simp only [List.mem_cons, List.not_mem_nil, or_false] at hmarks
        rcases hmarks with rfl | rfl | rfl | rfl <;> exact absurd h39 (by decide)
    have hle : front.length + 1 ≤ init.length := by
      by_contra hlong
      have hinit : init <+: front := by
        apply List.prefix_of_prefix_length_le (List.prefix_append init (vow.1 ++ marks))
          ((List.prefix_append front [39]).trans hfront)
        omega
      obtain ⟨middle, rfl⟩ := hinit
      rw [List.append_assoc] at hfront
      have hmiddle := (List.prefix_append_right_inj init).mp hfront
      exact hnone (hmiddle.subset (by simp))
    rw [List.length_append, List.length_singleton]
    omega

/-- The words of an elision fit, and have less room for an apostrophe. -/
theorem Elides.fits (h : Elides word s) (hlength : word.length + 1 < maxWordSize) :
    s.length < maxWordSize ∧ ∀ front, front ++ [39] <+: s → front.length + 2 ≤ word.length := by
  induction h with
  | vowel hlast hvow => exact addApostrvowel_fits hlast hlength hvow
  | @unaspirated word plain s hlast hplain hs ih =>
    obtain ⟨-, -, hsame, -⟩ := unaspirate_some hplain
    rw [← hsame] at hlength ⊢
    exact ih hlength
  | @unaccented word s hlast haccent hs ih =>
    have hle : (stripacc word).length ≤ word.length := List.length_filter_le _ _
    obtain ⟨hfits, hroom⟩ := ih (by omega)
    exact ⟨hfits, fun front hfront => (hroom front hfront).trans hle⟩

end Roomy

theorem Elides.room {word s : Bytes} (h : Elides word s) (hlength : word.length + 1 < maxWordSize) :
    Roomy s := by
  obtain ⟨hfits, hroom⟩ := h.fits hlength
  refine ⟨hfits, fun front hfront => ?_⟩
  have hle := hroom front hfront
  have hex := Bool.toNat_le (exStart s)
  omega

theorem Roomy.elision {word : Bytes} (h : Roomy word) (hlast : word.getLast? = some 39) :
    word.length + 1 < maxWordSize := by
  obtain ⟨init, rfl⟩ := List.getLast?_eq_some_iff.mp hlast
  have hroom := h.2 init (List.prefix_refl _)
  rw [List.length_append, List.length_singleton]
  omega

/-- What every place makes of a word holds of the spellings while nothing is found. -/
theorem silentSpellings_induct {word : Bytes} {places : List Plan} {tried : List Bytes}
    {Entered Respelled : Bytes → Prop} (hword : Entered word)
    (hentered : ∀ s, Respelled s → Entered s)
    (hplace : ∀ plan ∈ places, ∀ w, Entered w → ∀ s ∈ plan.spellings w, Respelled s)
    (htried : ∀ s ∈ tried, Respelled s) : ∀ s ∈ silentSpellings word places tried, Respelled s := by
  induction places generalizing tried with
  | nil => exact htried
  | cons plan places ih =>
    apply ih fun p hp => hplace p (List.mem_cons_of_mem _ hp)
    have hlast : Entered (tried.getLastD word) := by
      rcases List.eq_nil_or_concat tried with rfl | ⟨front, s, rfl⟩
      · exact hword
      · rw [List.concat_eq_append, List.getLastD_concat]
        exact hentered s (htried s (by simp))
    simp only [List.forall_mem_append]
    exact ⟨htried, hplace plan List.mem_cons_self _ hlast⟩

/-- The spellings that are tried fit, and have a smaller rank. -/
theorem retried_small {spelling : Spelling} {word s : Bytes} (hfits : Roomy word)
    (h : s ∈ encliticStems spelling word ∨
      s ∈ silentSpellings word ((plans spelling word).drop 1) []) :
    Roomy s ∧ spellingRank s < spellingRank word := by
  have hplace : ∀ plan ∈ plans spelling word, ∀ w, Roomy w ∧ spellingRank w ≤ spellingRank word →
      ∀ t ∈ plan.spellings w, Roomy t ∧ spellingRank t < spellingRank word := by
    intro plan hplan w ⟨hw, hrank⟩ t ht
    obtain ⟨retry, hretry, rfl⟩ := List.mem_map.mp ht
    exact ⟨hfits.retry hplan hw hretry,
      plans_below spelling word hplan (Nat.le_refl _) w true hrank retry hretry⟩
  rcases h with h | h
  · exact hplace (enclitics spelling) (by simp [plans]) word ⟨hfits, Nat.le_refl _⟩ s h
  · have hword : Roomy word ∧ spellingRank word ≤ spellingRank word := ⟨hfits, Nat.le_refl _⟩
    apply silentSpellings_induct hword (fun t ht => ⟨ht.1, ht.2.le⟩)
      (fun plan hplan => hplace plan (List.mem_of_mem_drop hplan)) _ s h
    intro t ht
    cases ht

/-- The return value counts in every activation when no activation on the way loses count. -/
theorem counts_settle {spelling : Spelling} (hhonest : spelling.Honest) (fuel : ℕ) :
    (∀ gkword, spellingRank gkword.workword < fuel → Roomy gkword.workword →
        CountsOn spelling gkword.workword → Tallies (checkstring3 spelling fuel) gkword) ∧
      ∀ gkword, 0 < fuel → (gkword.workword.getLast? = some 39 →
        elisionRank gkword.workword + elisionMarks gkword.workword < fuel + 19 ∧
          gkword.workword.length + 1 < maxWordSize) → gkword.workword.length < maxWordSize →
            (∀ s, Elides gkword.workword s → CountsOn spelling s) →
              Tallies (checkapostr spelling fuel) gkword := by
  induction fuel with
  | zero =>
    constructor
    · intro gkword h
      omega
    · intro gkword h
      omega
  | succ fuel ih =>
    obtain ⟨ih3, ihapostr⟩ := ih
    constructor
    · intro gkword hrank hfits hcounts
      have hpositive : 2 * gkword.workword.length + 1 ≤ spellingRank gkword.workword := by
        unfold spellingRank
        omega
      have hcount := List.count_le_length (a := (116 : Byte)) (l := gkword.workword)
      obtain ⟨found, hfound, hleaves, hkept⟩ := keeping_of_settles hhonest
        fun Invariant Answer hkeeps => (spelling_settles hkeeps (fuel + 1)).1 gkword hrank
      refine ⟨found, hfound, hleaves, hkept, fun hanalyses => ?_⟩
      have hretries : ∀ s, s ∈ encliticStems spelling gkword.workword ∨
          s ∈ silentSpellings gkword.workword ((plans spelling gkword.workword).drop 1) [] →
            Countable (checkstring3 spelling fuel) s := by
        intro s hs
        obtain ⟨hsfits, hsrank⟩ := retried_small hfits hs
        refine ⟨hsfits.1, fun g hg => ih3 g (by rw [hg]; omega) (by rw [hg]; exact hsfits) ?_⟩
        rw [hg]
        exact fun t ht => hcounts t (.head (.inr hs) ht)
      have hkeeping : ∀ s ∈ (istRetry spelling).spellings gkword.workword, s.length < maxWordSize ∧
          ∀ g : SpellWord, g.workword = s → Keeping (checkstring3 spelling fuel) g := by
        intro s hs
        have hist : istRetry spelling ∈ plans spelling gkword.workword := by simp [plans]
        obtain ⟨retry, hretry, rfl⟩ := List.mem_map.mp hs
        refine ⟨(hfits.retry hist hfits hretry).1, fun g hg => keeping_of_settles hhonest ?_⟩
        have hless := plans_below spelling gkword.workword hist (Nat.le_refl _) _ true
          (Nat.le_refl _) retry hretry
        exact fun Invariant Answer hkeeps =>
          (spelling_settles hkeeps fuel).1 g (by rw [hg]; omega)
      have hapostr : ∀ g : SpellWord, g.workword = gkword.workword →
          Tallies (checkapostr spelling fuel) g := by
        intro g hg
        apply ihapostr g _ _ (by rw [hg]; exact hfits.1)
        · rw [hg]
          exact fun s hs t ht => hcounts t (.head (.inl hs) ht)
        · omega
        · rw [hg]
          intro hlast
          have hle := elisionRank_le hlast
          exact ⟨by omega, hfits.elision hlast⟩
      have hrun := activation_tallies rfl hfits.1 (hcounts _ .refl)
        (checkstring4_tallies hhonest fuel (by omega)) hkeeping hretries hapostr hanalyses
      obtain ⟨act, hact, hend⟩ := hrun.final
      unfold checkstring3 at hfound
      rw [hact] at hfound
      rw [← Option.some.inj hfound]
      rcases hend with ⟨hrval, hne⟩ | hsame
      · exact ⟨fun h => absurd h hrval, fun h => absurd h hne⟩
      · exact hsame
    · intro gkword hpos hfuel hlength hcounts
      have hunfold : checkapostr spelling (fuel + 1) gkword =
          elision (checkstring3 spelling fuel) (checkapostr spelling fuel) gkword := by
        rw [checkapostr]
      have hcheck : Tallies (elision (checkstring3 spelling fuel) (checkapostr spelling fuel))
          gkword := by
        by_cases hlast : gkword.workword.getLast? = some 39
        · obtain ⟨hfuel, hroom⟩ := hfuel hlast
          have hle := elisionRank_le hlast
          apply elision_tallies rfl hlength
          · intro vow hvow g hg
            have helides := Elides.vowel hlast hvow
            have hrank := addApostrvowel_rank (List.prefix_refl _) hlast hvow
            apply ih3 g (by rw [hg]; omega) (by rw [hg]; exact helides.room hroom)
            rw [hg]
            exact hcounts _ helides
          · intro plain hplain g hg
            obtain ⟨-, hsame, hlengthsame, -⟩ := unaspirate_some hplain
            obtain ⟨hrank, hmarks⟩ := unaspirate_rank hplain
            apply ihapostr g (by omega)
            · rw [hg, hlengthsame]
              exact fun _ => ⟨by omega, hroom⟩
            · rw [hg, hlengthsame]
              exact hlength
            · rw [hg]
              exact fun s hs => hcounts s (.unaspirated hlast hplain hs)
          · intro haccent g hg
            obtain ⟨hrank, hmarks⟩ := stripacc_rank (List.prefix_refl _) haccent
            have hshort : (stripacc gkword.workword).length ≤ gkword.workword.length :=
              List.length_filter_le _ _
            apply ihapostr g (by omega)
            · rw [hg]
              exact fun _ => ⟨by omega, by omega⟩
            · rw [hg]
              omega
            · rw [hg]
              exact fun s hs => hcounts s (.unaccented hlast haccent hs)
        · refine ⟨(0, gkword), ?_, .inl rfl, collects_start gkword⟩
          unfold elision
          rw [if_neg hlast]
      unfold Tallies at hcheck ⊢
      rw [hunfold]
      exact hcheck

end Morpheus
