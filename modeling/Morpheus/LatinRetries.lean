import Morpheus.RetrySteps

/-!
# An activation for a Latin word

Which spellings an activation tries: when nothing was found they have all failed.
-/
namespace Morpheus

/-- An activation that returned with a result. -/
def Succeeded (allowed : List Bytes) (act : Activation) : Prop :=
  act.rval ≠ 0 ∧ ∀ attempt ∈ act.tried, attempt.1 ∈ allowed

/-- An activation that goes on after the retries with some spellings: they all failed, or there
is an analysis. -/
structure Tracks (word : Bytes) (allowed executed : List Bytes) (act : Activation) : Prop where
  allowed : ∀ attempt ∈ act.tried, attempt.1 ∈ allowed
  workword : act.gkword.workword = executed.getLastD word ∨
    act.gkword.analyses ≠ [] ∧ act.gkword.workword = word
  tried : act.gkword.analyses ≠ [] ∨ ∀ s ∈ executed, (s, 0) ∈ act.tried

/-- A spelling that may be tried, and a function that keeps it. -/
def Tryable (self : Check) (allowed : List Bytes) (s : Bytes) : Prop :=
  s ∈ allowed ∧ s.length < maxWordSize ∧ ∀ gkword : SpellWord, gkword.workword = s →
    Keeping self gkword

section
variable {self : Check}

/-- What a retry without conditions comes to. -/
theorem Retry.run_plain (saveword : Bytes) (retry : Retry) (act : Activation) (hwhile : retry.whileEmpty = false)
    (hmask : retry.mask = 0) (hrestores : retry.restores = false)
    (hself : Keeping self (act.gkword.setWorkword retry.spelling))
    (hlength : retry.spelling.length < maxWordSize) :
    ∃ found : ℕ × SpellWord, found.2.workword = retry.spelling ∧
      (act.gkword.analyses ≠ [] → found.2.analyses ≠ []) ∧
      retry.result act found = ⟨if retry.adds then act.rval + found.1 else found.1, found.2,
        act.tried ++ [(retry.spelling, found.1)]⟩ ∧
      retry.run saveword self act =
        if retry.returns = true ∧ (retry.result act found).rval ≠ 0 then
          .returned ((retry.result act found).restore saveword)
        else .goes (retry.result act found) := by
  obtain ⟨found, hfound, hword, hkept⟩ := hself.spelled hlength
  exact ⟨found, hword, hkept, Retry.run_found saveword retry act hwhile hmask hrestores hfound⟩

variable {saveword word : Bytes} {allowed executed : List Bytes}

theorem Tracks.append {act : Activation} (h : Tracks word allowed executed act) {s : Bytes}
    (hs : s ∈ allowed) {gkword : SpellWord} (hword : gkword.workword = s)
    (hkept : act.gkword.analyses ≠ [] → gkword.analyses ≠ []) (rval : ℕ) :
    Tracks word allowed (executed ++ [s]) ⟨rval, gkword, act.tried ++ [(s, 0)]⟩ where
  allowed := by
    intro attempt hattempt
    rcases List.mem_append.mp hattempt with hattempt | hattempt
    · exact h.allowed attempt hattempt
    · rw [List.mem_singleton.mp hattempt]
      exact hs
  workword := by
    left
    rw [List.getLastD_concat]
    exact hword
  tried := by
    rcases h.tried with hne | htried
    · exact .inl (hkept hne)
    · right
      intro t ht
      rcases List.mem_append.mp ht with ht | ht
      · exact List.mem_append_left _ (htried t ht)
      · rw [List.mem_singleton.mp ht]
        exact List.mem_append_right _ List.mem_cons_self

theorem Succeeded.of_append {tried : List (Bytes × ℕ)} (htried : ∀ attempt ∈ tried, attempt.1 ∈ allowed)
    {s : Bytes} (hs : s ∈ allowed) {rval : ℕ} (hrval : rval ≠ 0) (gkword : SpellWord) (found : ℕ) :
    Succeeded allowed ⟨rval, gkword, tried ++ [(s, found)]⟩ := by
  refine ⟨hrval, fun attempt hattempt => ?_⟩
  rcases List.mem_append.mp hattempt with hattempt | hattempt
  · exact htried attempt hattempt
  · rw [List.mem_singleton.mp hattempt]
    exact hs

/-- A retry whose result replaces the return value. -/
theorem runRetry_tracks {act : Activation} (h : Tracks word allowed executed act) {s : Bytes}
    (hs : Tryable self allowed s) :
    (Retry.run saveword self { spelling := s } act).Meets (Succeeded allowed)
      (Tracks word allowed (executed ++ [s])) := by
  obtain ⟨hs, hlength, hself⟩ := hs
  have hentered : (act.gkword.setWorkword s).workword = s := xstrncpy_of_lt hlength
  obtain ⟨found, hword, hkept, hresult, hrun⟩ :=
    Retry.run_plain saveword { spelling := s } act rfl rfl rfl (hself _ hentered) hlength
  rw [hrun, hresult]
  simp only [Bool.false_eq_true, if_false]
  by_cases hzero : found.1 = 0
  · rw [if_neg (by simp [hzero]), hzero]
    exact h.append hs hword hkept 0
  · rw [if_pos ⟨trivial, hzero⟩]
    exact Succeeded.of_append h.allowed hs hzero _ _

/-- Two retries whose results are added, after which the function returns if there is one. -/
theorem runPair_tracks {act : Activation} (h : Tracks word allowed executed act)
    {s t : Bytes} (hs : Tryable self allowed s) (ht : Tryable self allowed t) :
    (Flow.runAll (([{ spelling := s, adds := true, returns := false },
      { spelling := t, adds := true }] : List Retry).map (Retry.run saveword self)) act).Meets
        (Succeeded allowed) (Tracks word allowed (executed ++ [s, t])) := by
  obtain ⟨hsallowed, hslength, hsself⟩ := hs
  obtain ⟨htallowed, htlength, htself⟩ := ht
  obtain ⟨first, hfirst, hword, hkept⟩ :=
    (hsself (act.gkword.setWorkword s) (xstrncpy_of_lt hslength)).spelled hslength
  obtain ⟨second, hsecond, hword', hkept'⟩ :=
    (htself (first.2.setWorkword t) (xstrncpy_of_lt htlength)).spelled htlength
  rw [runPair_found saveword act s t hfirst hsecond]
  by_cases hzero : act.rval + first.1 + second.1 = 0
  · have hfirstzero : first.1 = 0 := by omega
    have hsecondzero : second.1 = 0 := by omega
    rw [if_pos hzero, hsecondzero, hfirstzero]
    have hboth := (h.append hsallowed hword hkept (act.rval + 0)).append htallowed hword' hkept'
      (act.rval + 0 + 0)
    rw [List.append_assoc] at hboth
    exact hboth
  · rw [if_neg hzero]
    apply Succeeded.of_append _ htallowed hzero
    intro attempt hattempt
    rcases List.mem_append.mp hattempt with hattempt | hattempt
    · exact h.allowed attempt hattempt
    · rw [List.mem_singleton.mp hattempt]
      exact hsallowed

end

section Activations
variable {spelling : Spelling} {word : Bytes} {allowed executed : List Bytes}
  {check4 self apostr : Check}

/-- An activation before the first respelling. -/
def Unrespelled (word : Bytes) (act : Activation) : Prop :=
  act.gkword.workword = word ∧ act.tried = []

/-- An activation that tries other capitals. -/
def Recapitalized (word : Bytes) (act : Activation) : Prop :=
  act.gkword.workword.length ≤ word.length ∧ act.tried = []

theorem Succeeded.untried {act : Activation} (hrval : act.rval ≠ 0) (htried : act.tried = []) :
    Succeeded allowed act := by
  refine ⟨hrval, fun attempt hattempt => ?_⟩
  rw [htried] at hattempt
  cases hattempt

theorem tryVariant_recapitalized
    (hcheck4 : ∀ g : SpellWord, g.workword.length ≤ word.length → Keeping check4 g)
    {variant : Bytes → Bytes} (hvariant : ∀ w, (variant w).length ≤ w.length) {act : Activation}
    (hact : Recapitalized word act) :
    (tryVariant word check4 variant act).Meets (Succeeded allowed) (Recapitalized word) := by
  obtain ⟨hlength, htried⟩ := hact
  have hentered : (variant act.gkword.workword).length ≤ word.length := (hvariant _).trans hlength
  obtain ⟨found, hfound, hword, -⟩ :=
    hcheck4 { act.gkword with workword := variant act.gkword.workword } hentered
  unfold tryVariant
  rw [hfound]
  dsimp only
  by_cases hrval : found.1 > 0
  · rw [if_pos hrval]
    exact Succeeded.untried (Nat.pos_iff_ne_zero.mp hrval) htried
  · rw [if_neg hrval]
    exact ⟨hword.isPrefix.length_le.trans hentered, htried⟩

theorem capitals_unrespelled
    (hcheck4 : ∀ g : SpellWord, g.workword.length ≤ word.length → Keeping check4 g)
    (hlength : word.length < maxWordSize) {act : Activation} (hact : Unrespelled word act) :
    (capitals spelling word check4 act).Meets (Succeeded allowed) (Unrespelled word) := by
  unfold capitals
  dsimp only
  by_cases hcapital : (isUpper (act.gkword.workword.headD 0) = true ∨
      act.gkword.workword.headD 0 = 42) ∧ spelling.strictCase = false
  · rw [if_pos hcapital, Flow.runAll_append]
    have htries : (Flow.runAll ([tryVariant word check4 (lowerFirst spelling.language)] ++
        (if spelling.language ≠ greek then
          [tryVariant word check4 lowerAll, tryVariant word check4 upperFirst]
          else [])) act).Meets (Succeeded allowed) (Recapitalized word) := by
      have hstart : Recapitalized word act := ⟨by rw [hact.1], hact.2⟩
      apply Flow.runAll_meets _ hstart
      intro part hpart state hstate
      rcases List.mem_append.mp hpart with hpart | hpart
      · rw [List.mem_singleton.mp hpart]
        exact tryVariant_recapitalized hcheck4 (lowerFirst_length _) hstate
      · split_ifs at hpart with hgreek
        · rcases List.mem_cons.mp hpart with rfl | hpart
          · exact tryVariant_recapitalized hcheck4 lowerAll_length hstate
          · rw [List.mem_singleton.mp hpart]
            exact tryVariant_recapitalized hcheck4 upperFirst_length hstate
        · cases hpart
    apply htries.andThen
    intro state hstate
    exact ⟨xstrncpy_of_lt hlength, hstate.2⟩
  · rw [if_neg hcapital]
    exact hact

theorem apostrophe_unrespelled
    (hapostr : ∀ g : SpellWord, g.workword = word → Keeping apostr g)
    (hlength : word.length < maxWordSize) {act : Activation} (hact : Unrespelled word act) :
    (apostrophe word apostr act).Meets (Succeeded allowed) (Unrespelled word) := by
  obtain ⟨hword, htried⟩ := hact
  unfold apostrophe
  by_cases hlast : act.gkword.workword.getLast? = some 39
  · obtain ⟨found, hfound, hleft, -⟩ := hapostr act.gkword hword
    rw [if_pos hlast, hfound]
    dsimp only
    by_cases hrval : act.rval + found.1 ≠ 0
    · rw [if_pos hrval]
      exact Succeeded.untried hrval htried
    · rw [if_neg hrval]
      refine ⟨?_, htried⟩
      dsimp only
      rw [hleft.eq (by rw [hword]; exact hlength), hword]
  · rw [if_neg hlast]
    exact ⟨hword, htried⟩

theorem Unrespelled.tracks {act : Activation} (h : Unrespelled word act) :
    Tracks word allowed [] act where
  allowed := by
    intro attempt hattempt
    rw [h.2] at hattempt
    cases hattempt
  workword := .inl h.1
  tried := .inr fun _ hs => nomatch hs

theorem enclitics_restores {empty : Bool} {retry : Retry}
    (h : retry ∈ enclitics spelling word empty) : retry.returns = true ∧ retry.restores = true := by
  obtain ⟨enclitic, -, hfound⟩ := List.mem_filterMap.mp h
  obtain ⟨stem, -, rfl⟩ := Option.map_eq_some_iff.mp hfound
  exact ⟨rfl, rfl⟩

/-- The word gets its spelling back behind an enclitic. -/
theorem enclitics_tracks (hlength : word.length < maxWordSize)
    (hstems : ∀ s ∈ encliticStems spelling word, Tryable self allowed s) {act : Activation}
    (hact : Tracks word allowed [] act) :
    (Plan.run word self (enclitics spelling) act).Meets (Succeeded allowed)
      (Tracks word allowed []) := by
  have hword : act.gkword.workword = word := hact.workword.elim id fun h => h.2
  unfold Plan.run
  rw [hword]
  apply Flow.runAll_meets _ hact
  intro part hpart state hstate
  obtain ⟨retry, hretry, rfl⟩ := List.mem_map.mp hpart
  have hstem : retry.spelling ∈ encliticStems spelling word := List.mem_map_of_mem hretry
  obtain ⟨hallowed, hshort, hself⟩ := hstems _ hstem
  obtain ⟨hreturns, hrestores⟩ := enclitics_restores hretry
  unfold Retry.run
  by_cases hskip : retry.whileEmpty = true ∧ state.gkword.analyses ≠ []
  · rw [if_pos hskip]
    exact hstate
  · rw [if_neg hskip]
    obtain ⟨found, hfound, -, -⟩ := hself (state.gkword.setWorkword retry.spelling)
      (xstrncpy_of_lt hshort)
    rw [hfound]
    dsimp only
    have htried : ∀ attempt ∈ state.tried ++ [(retry.spelling, found.1)], attempt.1 ∈ allowed := by
      intro attempt hattempt
      rcases List.mem_append.mp hattempt with hattempt | hattempt
      · exact hstate.allowed attempt hattempt
      · rw [List.mem_singleton.mp hattempt]
        exact hallowed
    by_cases hrval : (retry.result state found).rval = 0
    · rw [if_neg fun h => h.2 hrval, hrestores]
      exact ⟨htried, .inl (xstrncpy_of_lt hlength), .inr fun _ hs => nomatch hs⟩
    · rw [if_pos ⟨hreturns, hrval⟩]
      exact ⟨hrval, htried⟩

theorem latinExpandEx_length {w s : Bytes} {capacity : ℕ} (h : latinExpandEx w capacity = some s) :
    s.length < capacity := by
  obtain ⟨c, -, rest, rfl, rfl⟩ := latinExpandEx_some h
  unfold latinExpandEx at h
  split_ifs at h with hlength hex
  simp only [List.length_cons] at hlength ⊢
  omega

/-- Every retry makes a word that fits in the buffer from one that does. -/
theorem plans_fit {saveword : Bytes} {plan : Plan} (h : plan ∈ plans spelling saveword)
    (hsave : saveword.length < maxWordSize) {w : Bytes} (hw : w.length < maxWordSize)
    {empty : Bool} {retry : Retry} (hretry : retry ∈ plan w empty) :
    retry.spelling.length < maxWordSize := by
  rcases retry_cases _ _ h hretry with hbegins | ⟨stem, rfl, hn⟩ | hrespelling | hex
  · exact hbegins.length_le.trans_lt hw
  · rw [hn, List.length_append]
    rw [List.length_append] at hw
    exact hw
  · rw [hrespelling.length_eq]
    exact hsave
  · exact latinExpandEx_length hex

/-- Every spelling that can be tried. -/
def triedSpellings (spelling : Spelling) (word : Bytes) : List Bytes :=
  encliticStems spelling word ++ (executedSpellings spelling word ++
    (exRetry spelling).spellings word)

/-- An activation that tried all retries, or has an analysis. -/
def Exhausted (spelling : Spelling) (word : Bytes) (act : Activation) : Prop :=
  (∀ attempt ∈ act.tried, attempt.1 ∈ triedSpellings spelling word) ∧
    (act.gkword.analyses ≠ [] ∨ ∀ s ∈ executedSpellings spelling word, (s, 0) ∈ act.tried)

/-- Every spelling that is tried has a smaller rank, and fits in the buffer. -/
theorem triedSpellings_small (hlength : word.length < maxWordSize) :
    ∀ s ∈ triedSpellings spelling word, spellingRank s < spellingRank word ∧
      s.length < maxWordSize := by
  have hplan : ∀ plan ∈ plans spelling word, ∀ w : Bytes, w.length < maxWordSize →
      spellingRank w ≤ spellingRank word → ∀ s ∈ plan.spellings w,
        spellingRank s < spellingRank word ∧ s.length < maxWordSize := by
    intro plan hmem w hw hrank s hs
    obtain ⟨retry, hretry, rfl⟩ := List.mem_map.mp hs
    exact ⟨plans_below spelling word hmem (Nat.le_refl _) w true hrank retry hretry,
      plans_fit hmem hlength hw hretry⟩
  have hword : ∀ plan ∈ plans spelling word, ∀ s ∈ plan.spellings word,
      spellingRank s < spellingRank word ∧ s.length < maxWordSize := fun plan hmem =>
    hplan plan hmem word hlength (Nat.le_refl _)
  have hmem : ∀ plan ∈ [enclitics spelling, prodelision spelling, ustRetry spelling,
      istRetry spelling, finalN spelling, uRetry spelling word, jRetry spelling word,
      exRetry spelling], plan ∈ plans spelling word := by
    intro plan h
    simp only [List.mem_cons, List.not_mem_nil, or_false] at h
    unfold plans
    simp only [List.mem_cons, List.not_mem_nil, or_false]
    tauto
  have hearly : ∀ s ∈ earlySpellings spelling word ++ (jRetry spelling word).spellings word,
      spellingRank s < spellingRank word ∧ s.length < maxWordSize := by
    unfold earlySpellings
    simp only [List.forall_mem_append]
    exact ⟨⟨⟨⟨⟨hword _ (hmem _ (by simp)), hword _ (hmem _ (by simp))⟩, hword _ (hmem _ (by simp))⟩,
      hword _ (hmem _ (by simp))⟩, hword _ (hmem _ (by simp))⟩, hword _ (hmem _ (by simp))⟩
  have hleftover : spellingRank (leftover spelling word) ≤ spellingRank word ∧
      (leftover spelling word).length < maxWordSize := by
    unfold leftover
    rcases List.eq_nil_or_concat (earlySpellings spelling word ++
        (jRetry spelling word).spellings word) with hnil | ⟨front, s, hconcat⟩
    · rw [hnil]
      exact ⟨Nat.le_refl _, hlength⟩
    · rw [hconcat, List.concat_eq_append, List.getLastD_concat]
      obtain ⟨hrank, hfits⟩ := hearly s (by rw [hconcat]; simp)
      exact ⟨hrank.le, hfits⟩
  unfold triedSpellings executedSpellings
  simp only [List.forall_mem_append] at hearly ⊢
  exact ⟨hword _ (hmem _ (by simp)), ⟨hearly, hplan _ (hmem _ (by simp)) _ hleftover.2 hleftover.1⟩,
    hword _ (hmem _ (by simp))⟩

/-- What is known of an activation goes from one retry to the next. -/
theorem tracks_steps :
    Steps self word word (Tryable self allowed) (Succeeded allowed) (Tracks word allowed) where
  record := fun h => h.workword
  analysed := fun h hanalyses hword _ => ⟨h.allowed, .inr ⟨hanalyses, hword⟩, .inl hanalyses⟩
  retry := fun hact hs => runRetry_tracks hact hs
  pair := fun hact hs ht => runPair_tracks hact hs ht

/-- What an activation tries for a Latin word. -/
theorem activation_latin (hlatin : spelling.language = latin) {gkword : SpellWord}
    (hword : gkword.workword = word) (hlength : word.length < maxWordSize)
    (hcheck4 : ∀ g : SpellWord, g.workword.length ≤ word.length → Keeping check4 g)
    (hself : ∀ g : SpellWord, spellingRank g.workword < spellingRank word → Keeping self g)
    (hapostr : ∀ g : SpellWord, spellingRank g.workword ≤ spellingRank word → Keeping apostr g) :
    (activation spelling check4 self apostr gkword).Meets
      (Succeeded (triedSpellings spelling word)) (Exhausted spelling word) := by
  have htryable : ∀ s ∈ triedSpellings spelling word,
      Tryable self (triedSpellings spelling word) s := by
    intro s hs
    obtain ⟨hrank, hfits⟩ := triedSpellings_small hlength s hs
    exact ⟨hs, hfits, fun g hg => hself g (by rw [hg]; exact hrank)⟩
  have hsaved : xstrncpy gkword.workword maxWordSize = word := by
    rw [hword]
    exact xstrncpy_of_lt hlength
  obtain ⟨found, hfound, hleft, -⟩ := hcheck4 gkword (by rw [hword])
  have hstart : Unrespelled word ⟨found.1, found.2, []⟩ :=
    ⟨by rw [hleft.eq (by rw [hword]; exact hlength), hword], rfl⟩
  unfold activation firstTry
  rw [hfound, hsaved]
  change (Flow.runAll ([capitals spelling word check4, apostrophe word apostr,
    Plan.run word self (enclitics spelling)] ++
      (((plans spelling word).drop 1).map (Plan.run word self) ++
        [fun act => .goes (act.restore word)])) ⟨found.1, found.2, []⟩).Meets _ _
  rw [Flow.runAll_append]
  have hfront : (Flow.runAll [capitals spelling word check4, apostrophe word apostr,
      Plan.run word self (enclitics spelling)] ⟨found.1, found.2, []⟩).Meets
      (Succeeded (triedSpellings spelling word)) (Tracks word (triedSpellings spelling word) []) := by
    apply (capitals_unrespelled hcheck4 hlength hstart).andThen
    intro state hstate
    apply (apostrophe_unrespelled (fun g hg => hapostr g (by rw [hg])) hlength hstate).andThen
    intro state hstate
    apply (enclitics_tracks hlength (fun s hs => htryable s (List.mem_append_left _ hs))
      hstate.tracks).andThen
    exact fun _ h => h
  apply hfront.andThen
  intro state hstate
  rw [Flow.runAll_append]
  apply (tracks_steps.latinRetries hlatin hstate fun s hs =>
    htryable s (List.mem_append_right _ hs)).andThen
  intro state ⟨more, hstate⟩
  exact ⟨hstate.allowed, hstate.tried.imp_right fun h s hs => h s (List.mem_append_left _ hs)⟩

end Activations

end Morpheus
