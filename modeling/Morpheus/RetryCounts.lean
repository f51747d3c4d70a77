import Morpheus.LatinRetries

/-!
# What the return value of the retries says

`checkstring3` returns 0 when it has added no analysis, for words whose retries neither replace
the return value of an earlier one that found something nor sift the analyses that were counted.
-/
namespace Morpheus

/-- The return value is 0 when there is no analysis, and only then. -/
def Tallied (found : ℕ × SpellWord) : Prop := found.1 = 0 ↔ found.2.analyses = []

section
variable (spelling : Spelling)

/-- A first letter for which other capitals are tried. -/
def Capitalized (word : Bytes) : Prop :=
  (isUpper (word.headD 0) = true ∨ word.headD 0 = 42) ∧ spelling.strictCase = false

/-- An enclitic behind which only some stem types are kept. -/
def SiftedEnclitic (word : Bytes) : Prop := ∃ retry ∈ enclitics spelling word true, retry.mask ≠ 0

/-- A retry whose return value replaces that of the entered word, made although the entered word
has an analysis. -/
def Overwritten (word : Bytes) : Prop :=
  word.getLast? ≠ some 39 ∧
    (prodelision spelling word false ≠ [] ∨ ustRetry spelling word false ≠ [] ∨
      istRetry spelling word false = [] ∧ (uRetry spelling word word false ≠ [] ∨
        jRetry spelling word word false ≠ [] ∨ exRetry spelling word false ≠ []))

/-- An activation for the word may lose count of its own tries. -/
def Miscounts (word : Bytes) : Prop :=
  Capitalized spelling word ∨ SiftedEnclitic spelling word ∨ Overwritten spelling word

/-- The words that `checkapostr` makes of a word with an apostrophe. -/
inductive Elides : Bytes → Bytes → Prop
  | vowel {word : Bytes} {vow : Bytes × Bool} (hlast : word.getLast? = some 39)
      (hvow : vow ∈ elidedVowels (nsylls word)) : Elides word (addApostrvowel word vow.1)
  | unaspirated {word plain s : Bytes} (hlast : word.getLast? = some 39)
      (hplain : unaspirate word = some plain) (hs : Elides plain s) : Elides word s
  | unaccented {word s : Bytes} (hlast : word.getLast? = some 39)
      (haccent : ultimaAccent word = true) (hs : Elides (stripacc word) s) : Elides word s

/-- The spellings of the places of retries while nothing is found: each place starts from the last
spelling of those before it. -/
def silentSpellings (word : Bytes) : List Plan → List Bytes → List Bytes
  | [], tried => tried
  | plan :: places, tried =>
    silentSpellings word places (tried ++ plan.spellings (tried.getLastD word))

/-- A spelling that an activation for the word tries while nothing is found. -/
def Retries (word s : Bytes) : Prop :=
  Elides word s ∨ s ∈ encliticStems spelling word ∨
    s ∈ silentSpellings word ((plans spelling word).drop 1) []

/-- No activation on the way from the word loses count. -/
def CountsOn (word : Bytes) : Prop :=
  ∀ s, Relation.ReflTransGen (Retries spelling) word s → ¬ Miscounts spelling s

end

/-- What a routine that adds return values has collected since it was entered. -/
def Collects (start : SpellWord) (state : ℕ × SpellWord) : Prop :=
  (start.analyses ≠ [] → state.2.analyses ≠ []) ∧ (start.analyses = [] → Tallied state)

/-- A check that comes back with the word, keeps the analyses, and counts those it adds to none. -/
def Tallies (check : Check) (gkword : SpellWord) : Prop :=
  ∃ found, check gkword = some found ∧ LeavesWord gkword found.2 ∧ Collects gkword found

theorem Tallies.keeping {check : Check} {gkword : SpellWord} (h : Tallies check gkword) :
    Keeping check gkword := by
  obtain ⟨found, hfound, hword, hkept, -⟩ := h
  exact ⟨found, hfound, hword, hkept⟩

section Sums
variable {spelling : Spelling}

/-- The sum of two return values counts when both do. -/
theorem Tallied.add {n : ℕ} {gkword : SpellWord} (h : Tallied (n, gkword)) {found : ℕ × SpellWord}
    (hkept : gkword.analyses ≠ [] → found.2.analyses ≠ [])
    (htallied : gkword.analyses = [] → Tallied found) : Tallied (n + found.1, found.2) := by
  unfold Tallied at h htallied ⊢
  dsimp only at h ⊢
  by_cases hzero : n = 0
  · rw [hzero, Nat.zero_add]
    exact htallied (h.mp hzero)
  · have hne := hkept fun hempty => hzero (h.mpr hempty)
    constructor
    · intro hsum
      omega
    · intro hempty
      exact absurd hempty hne

theorem ask_tallied {lookup : SpellWord → ℕ × List GkAnalysis} (h : Truthful lookup)
    (gkword : SpellWord) : (gkword.analyses ≠ [] → (gkword.ask lookup).2.analyses ≠ []) ∧
      (gkword.analyses = [] → Tallied (gkword.ask lookup)) := by
  obtain ⟨hzero, hfound⟩ := h gkword
  unfold Tallied SpellWord.ask
  dsimp only
  by_cases hrval : (lookup gkword).1 = 0
  · have hempty := hzero hrval
    exact ⟨hempty.not.mpr, fun hnone => ⟨fun _ => hempty.mpr hnone, fun _ => hrval⟩⟩
  · have hne := hfound hrval
    exact ⟨fun _ => hne, fun _ => ⟨fun h => absurd h hrval, fun h => absurd h hne⟩⟩

theorem Collects.add {start : SpellWord} {state found : ℕ × SpellWord} (h : Collects start state)
    (hkept : state.2.analyses ≠ [] → found.2.analyses ≠ [])
    (htallied : state.2.analyses = [] → Tallied found) :
    Collects start (state.1 + found.1, found.2) :=
  ⟨fun hstart => hkept (h.1 hstart), fun hstart => (h.2 hstart).add hkept htallied⟩

theorem collects_start (start : SpellWord) : Collects start (0, start) :=
  ⟨id, fun hempty => ⟨fun _ => hempty, fun _ => rfl⟩⟩

theorem Collects.trans {start next : SpellWord} (h : Collects start (0, next))
    {found : ℕ × SpellWord} (hfound : Collects next found) : Collects start found := by
  have hsum := h.add hfound.1 hfound.2
  rw [Nat.zero_add] at hsum
  exact hsum

theorem checkCun_collects (hhonest : spelling.Honest) (saveword : Bytes) (gkword : SpellWord) :
    Collects gkword (checkCun spelling saveword gkword) := by
  unfold checkCun
  cases hasCun saveword with
  | none => exact collects_start gkword
  | some workword =>
    obtain ⟨hkept1, htallied1⟩ := ask_tallied (hhonest spelling.checkindecl (by simp))
      (gkword.setWorkword workword)
    obtain ⟨hkept2, htallied2⟩ := ask_tallied (hhonest spelling.checknom (by simp))
      ((gkword.setWorkword workword).ask spelling.checkindecl).2
    have hindecl : Collects gkword ((gkword.setWorkword workword).ask spelling.checkindecl) :=
      ⟨hkept1, htallied1⟩
    exact hindecl.add hkept2 htallied2

/-- `checkstring4` counts. -/
theorem checkstring4_collects (hhonest : spelling.Honest) {fuel : ℕ} {gkword : SpellWord}
    {found : ℕ × SpellWord} (h : checkstring4 spelling fuel gkword = some found) :
    Collects gkword found := by
  induction fuel generalizing gkword found with
  | zero => cases h
  | succ fuel ih =>
    have hfirst : Collects gkword (gkword.ask spelling.checkword) :=
      ask_tallied (hhonest spelling.checkword (by simp)) gkword
    unfold checkstring4 at h
    dsimp only at h
    by_cases hrval : (gkword.ask spelling.checkword).1 > 0
    · rw [if_pos hrval] at h
      rw [← Option.some.inj h]
      exact hfirst
    · have hnone : ∀ {state : ℕ × SpellWord}, ¬ state.1 > 0 → state = (0, state.2) := fun h =>
        Prod.ext (Nat.eq_zero_of_not_pos h) rfl
      rw [if_neg hrval] at h
      rw [hnone hrval] at hfirst
      by_cases hgreek : spelling.language ≠ greek
      · rw [if_pos hgreek] at h
        rw [← Option.some.inj h]
        exact hfirst
      · rw [if_neg hgreek] at h
        have hcun := hfirst.trans (checkCun_collects hhonest
          (xstrncpy (gkword.ask spelling.checkword).2.workword maxWordSize)
          (gkword.ask spelling.checkword).2)
        by_cases hfound : (checkCun spelling
            (xstrncpy (gkword.ask spelling.checkword).2.workword maxWordSize)
            (gkword.ask spelling.checkword).2).1 > 0
        · rw [if_pos hfound] at h
          rw [← Option.some.inj h]
          exact hcun
        · rw [if_neg hfound] at h
          rw [hnone hfound] at hcun
          cases htt : hasTt (xstrncpy (gkword.ask spelling.checkword).2.workword maxWordSize) with
          | none =>
            rw [htt] at h
            rw [← Option.some.inj h]
            exact hcun
          | some workword =>
            rw [htt] at h
            obtain ⟨last, hlast, rfl⟩ := Option.map_eq_some_iff.mp h
            have hrest := ih hlast
            exact hcun.trans ⟨hrest.1, hrest.2⟩

/-- A check for a word that counts. -/
theorem checkstring4_tallies (hhonest : spelling.Honest) (fuel : ℕ) {gkword : SpellWord}
    (h : gkword.workword.count 116 < fuel) : Tallies (checkstring4 spelling fuel) gkword := by
  obtain ⟨found, hfound, hleaves, -⟩ :=
    checkstring4_settles (keeps_true spelling) fuel h trivial
  exact ⟨found, hfound, hleaves, checkstring4_collects hhonest hfound⟩

/-- Between the calls of `checkapostr` the word has its spelling. -/
def SumsUp (start : SpellWord) (state : ℕ × SpellWord) : Prop :=
  state.2.workword = start.workword ∧ Collects start state

theorem accumulate_sumsUp {check : Check} {enter leave : SpellWord → SpellWord}
    {start : SpellWord} {state : ℕ × SpellWord} (hstate : SumsUp start state)
    (hcheck : Tallies check (enter state.2)) (henter : (enter state.2).analyses = state.2.analyses)
    (hleave : ∀ g, (leave g).workword = start.workword ∧ (leave g).analyses = g.analyses) :
    ∃ next, accumulate check enter leave state = some next ∧ SumsUp start next := by
  obtain ⟨found, hfound, -, hkept, htallied⟩ := hcheck
  refine ⟨(state.1 + found.1, leave found.2), ?_, (hleave _).1, ?_⟩
  · unfold accumulate
    rw [hfound]
    rfl
  · have hanalyses := (hleave found.2).2
    unfold Tallied at htallied
    rw [henter, ← hanalyses] at htallied
    rw [henter, ← hanalyses] at hkept
    have hsum : Collects start (state.1 + (found.1, leave found.2).1, (found.1, leave found.2).2) :=
      hstate.2.add hkept htallied
    exact hsum

/-- `checkapostr` counts when what it calls does. -/
theorem elision_tallies {self apostr : Check} {gkword : SpellWord} {word : Bytes}
    (hword : gkword.workword = word) (hlength : word.length < maxWordSize)
    (hvowel : ∀ vow ∈ elidedVowels (nsylls word), ∀ g : SpellWord,
      g.workword = addApostrvowel word vow.1 → Tallies self g)
    (hplain : ∀ plain, unaspirate word = some plain → ∀ g : SpellWord, g.workword = plain →
      Tallies apostr g)
    (haccent : ultimaAccent word = true → ∀ g : SpellWord, g.workword = stripacc word →
      Tallies apostr g) : Tallies (elision self apostr) gkword := by
  have hsaved : xstrncpy word maxWordSize = word := xstrncpy_of_lt hlength
  have hzero : SumsUp gkword (0, gkword) := ⟨rfl, collects_start gkword⟩
  have hleave : ∀ g : SpellWord, (g.setWorkword word).workword = gkword.workword ∧
      (g.setWorkword word).analyses = g.analyses := fun g => ⟨by rw [hword]; exact hsaved, rfl⟩
  unfold Tallies elision
  rw [hword]
  by_cases hlast : word.getLast? = some 39
  · rw [if_pos hlast, hsaved]
    dsimp only
    obtain ⟨start, hstart, hcollected⟩ : ∃ state, tryUnaspirated apostr word gkword = some state ∧
        SumsUp gkword state := by
      unfold tryUnaspirated
      rw [hword]
      cases hasp : unaspirate word with
      | none => exact ⟨_, rfl, hzero⟩
      | some plain =>
        exact accumulate_sumsUp hzero (hplain plain hasp _ rfl) rfl hleave
    have hvowels : ∀ vow ∈ elidedVowels (nsylls word), ∀ state : ℕ × SpellWord,
        SumsUp gkword state → ∃ next, tryVowel self word state vow = some next ∧
          SumsUp gkword next := by
      intro vow hvow state hstate
      have hentered : addApostrvowel state.2.workword vow.1 = addApostrvowel word vow.1 := by
        rw [hstate.1, hword]
      unfold tryVowel
      exact accumulate_sumsUp hstate (hvowel vow hvow _ hentered) rfl hleave
    obtain ⟨last, hfold, hend⟩ := foldlM_some hvowels hcollected
    rw [hstart, Option.bind_some, hcollected.1, hword, hfold, Option.bind_some]
    obtain ⟨found, hfound, hleft, hcollects⟩ : ∃ next, tryUnaccented apostr word last = some next ∧
        SumsUp gkword next := by
      unfold tryUnaccented
      by_cases hultima : last.1 = 0 ∧ ultimaAccent word = true
      · rw [if_pos hultima]
        exact accumulate_sumsUp hend (haccent hultima.2 _ rfl) rfl hleave
      · rw [if_neg hultima]
        exact ⟨last, rfl, hend⟩
    exact ⟨found, hfound, .inl hleft, hcollects⟩
  · rw [if_neg hlast]
    exact ⟨_, rfl, .inl rfl, collects_start gkword⟩

end Sums

/-- A spelling that fits in the buffer, and a function that counts what it adds for it. -/
def Countable (self : Check) (s : Bytes) : Prop :=
  s.length < maxWordSize ∧ ∀ gkword : SpellWord, gkword.workword = s → Tallies self gkword

/-- An activation that returned with a result has an analysis. -/
def Analysed (act : Activation) : Prop := act.rval ≠ 0 ∧ act.gkword.analyses ≠ []

/-- An activation that has found nothing for some spellings. -/
def Fruitless (word : Bytes) (tried : List Bytes) (act : Activation) : Prop :=
  act.rval = 0 ∧ act.gkword.analyses = [] ∧ act.gkword.workword = tried.getLastD word

/-- A retry without conditions, whose result is returned at once. -/
def Retry.Plain (retry : Retry) : Prop :=
  retry.returns = true ∧ retry.mask = 0 ∧ retry.whileEmpty = false ∧ retry.restores = false

section Fruitless
variable {spelling : Spelling} {self : Check} {saveword word : Bytes} {tried : List Bytes}
  {act : Activation}

theorem Countable.spelled {s : Bytes} (h : Countable self s) (gkword : SpellWord) :
    ∃ found, self (gkword.setWorkword s) = some found ∧ found.2.workword = s ∧
      (gkword.analyses ≠ [] → found.2.analyses ≠ []) ∧
      (gkword.analyses = [] → (found.1 = 0 ↔ found.2.analyses = [])) := by
  have hentered : (gkword.setWorkword s).workword = s := xstrncpy_of_lt h.1
  obtain ⟨found, hfound, hword, hkept, htallied⟩ := h.2 _ hentered
  have hleft := hword.eq (by rw [hentered]; exact h.1)
  rw [hentered] at hleft
  exact ⟨found, hfound, hleft, hkept, htallied⟩

/-- A result of a retry is returned with its analyses. -/
theorem Retry.run_fruitless {retry : Retry} (hplain : retry.Plain)
    (hself : Countable self retry.spelling) (hact : Fruitless word tried act) :
    (retry.run saveword self act).Meets Analysed (Fruitless word (tried ++ [retry.spelling])) := by
  obtain ⟨hreturns, hmask, hwhile, hrestores⟩ := hplain
  obtain ⟨hrval, hanalyses, -⟩ := hact
  obtain ⟨found, hfound, hword, -, htallied⟩ := hself.spelled act.gkword
  have htallied := htallied hanalyses
  obtain ⟨hresult, hrun⟩ := Retry.run_found saveword retry act hwhile hmask hrestores hfound
  have hsum : (if retry.adds = true then act.rval + found.1 else found.1) = found.1 := by
    rw [hrval, Nat.zero_add]
    split_ifs <;> rfl
  rw [hrun, hresult, hsum]
  by_cases hzero : found.1 = 0
  · rw [if_neg fun h => h.2 hzero]
    refine ⟨hzero, htallied.mp hzero, ?_⟩
    rw [List.getLastD_concat]
    exact hword
  · rw [if_pos ⟨hreturns, hzero⟩]
    exact ⟨hzero, fun hempty => hzero (htallied.mpr hempty)⟩

theorem retries_fruitless {retries : List Retry} (hplain : ∀ retry ∈ retries, retry.Plain)
    (hself : ∀ s ∈ retries.map Retry.spelling, Countable self s)
    (hact : Fruitless word tried act) :
    (Flow.runAll (retries.map (Retry.run saveword self)) act).Meets Analysed
      (Fruitless word (tried ++ retries.map Retry.spelling)) := by
  induction retries generalizing tried act with
  | nil =>
    have hsame := List.append_nil tried
    rw [← hsame] at hact
    exact hact
  | cons retry retries ih =>
    rw [List.map_cons, Flow.runAll]
    apply (Retry.run_fruitless (hplain retry List.mem_cons_self)
      (hself retry.spelling List.mem_cons_self) hact).andThen
    intro next hnext
    have hrest := ih (fun r hr => hplain r (List.mem_cons_of_mem _ hr))
      (fun s hs => hself s (List.mem_cons_of_mem _ hs)) hnext
    rw [List.append_assoc] at hrest
    exact hrest

/-- The results of two retries are added before they are returned. -/
theorem pair_fruitless {s t : Bytes} (hs : Countable self s) (ht : Countable self t)
    (hact : Fruitless word tried act) :
    (Flow.runAll (([{ spelling := s, adds := true, returns := false },
      { spelling := t, adds := true }] : List Retry).map (Retry.run saveword self)) act).Meets
        Analysed (Fruitless word (tried ++ [s, t])) := by
  obtain ⟨hrval, hanalyses, -⟩ := hact
  obtain ⟨first, hfirst, -, -, htallied⟩ := hs.spelled act.gkword
  have htallied := htallied hanalyses
  obtain ⟨second, hsecond, hword, hkept, htallied'⟩ := ht.spelled first.2
  rw [runPair_found saveword act s t hfirst hsecond, hrval, Nat.zero_add]
  by_cases hzero : first.1 + second.1 = 0
  · have hempty := htallied.mp (by omega)
    rw [if_pos hzero]
    refine ⟨hzero, (htallied' hempty).mp (by omega), ?_⟩
    have hlast : tried ++ [s, t] = tried ++ [s] ++ [t] := by simp
    rw [hlast, List.getLastD_concat]
    exact hword
  · rw [if_neg hzero]
    refine ⟨hzero, ?_⟩
    have hsum : Tallied (first.1 + second.1, second.2) := Tallied.add htallied hkept htallied'
    exact fun hempty => hzero (hsum.mpr hempty)

theorem silentSpellings_begins (word : Bytes) (places : List Plan) (tried : List Bytes) :
    tried <+: silentSpellings word places tried := by
  induction places generalizing tried with
  | nil => exact List.prefix_refl _
  | cons plan places ih => exact (List.prefix_append _ _).trans (ih _)

/-- The retries of a place: their results are returned at once, or two are added. -/
def Plan.Regular (plan : Plan) : Prop :=
  ∀ word empty, (∀ retry ∈ plan word empty, retry.Plain) ∨ ∃ s t, plan word empty =
    [{ spelling := s, adds := true, returns := false }, { spelling := t, adds := true }]

theorem places_fruitless {places : List Plan} (hregular : ∀ plan ∈ places, plan.Regular)
    (hself : ∀ s ∈ silentSpellings word places tried, Countable self s)
    (hact : Fruitless word tried act) :
    (Flow.runAll (places.map (Plan.run saveword self)) act).Meets Analysed
      (Fruitless word (silentSpellings word places tried)) := by
  induction places generalizing tried act with
  | nil => exact hact
  | cons plan places ih =>
    have hmem : ∀ s ∈ plan.spellings (tried.getLastD word), Countable self s := fun s hs =>
      hself s ((silentSpellings_begins word places _).subset (List.mem_append_right _ hs))
    have hplace : (plan.run saveword self act).Meets Analysed
        (Fruitless word (tried ++ plan.spellings (tried.getLastD word))) := by
      unfold Plan.run
      rw [hact.2.2, hact.2.1]
      unfold Plan.spellings at hmem ⊢
      rcases hregular plan List.mem_cons_self (tried.getLastD word) true with hplain | ⟨s, t, hpair⟩
      · exact retries_fruitless hplain hmem hact
      · rw [hpair] at hmem ⊢
        change (Flow.runAll ((plan (tried.getLastD word) true).map _) act).Meets _ _
        rw [hpair]
        exact pair_fruitless (hmem s List.mem_cons_self)
          (hmem t (List.mem_cons_of_mem _ List.mem_cons_self)) hact
    rw [List.map_cons, Flow.runAll]
    apply hplace.andThen
    intro next hnext
    exact ih (fun p hp => hregular p (List.mem_cons_of_mem _ hp)) hself hnext

theorem places_regular (spelling : Spelling) (saveword : Bytes) :
    ∀ plan ∈ (plans spelling saveword).drop 1, plan.Regular := by
  have hplain : ∀ s : Bytes, Retry.Plain { spelling := s } := fun _ => ⟨rfl, rfl, rfl, rfl⟩
  intro plan hmem word empty
  simp only [plans, List.drop_succ_cons, List.drop_zero, List.mem_cons, List.not_mem_nil,
    or_false] at hmem
  rcases hmem with rfl | rfl | rfl | rfl | rfl | rfl | rfl | rfl
  · left
    intro retry hretry
    unfold prodelision at hretry
    split_ifs at hretry
    · rw [List.mem_singleton.mp hretry]
      exact hplain _
    · cases hretry
  · left
    intro retry hretry
    unfold ustRetry at hretry
    split_ifs at hretry
    · rw [List.mem_singleton.mp hretry]
      exact hplain _
    · cases hretry
  · unfold istRetry
    split_ifs
    · exact .inr ⟨_, _, rfl⟩
    · left
      intro retry hretry
      cases hretry
  · unfold finalN
    split_ifs
    · exact .inr ⟨_, _, rfl⟩
    · left
      intro retry hretry
      cases hretry
  · left
    intro retry hretry
    unfold uRetry at hretry
    split_ifs at hretry
    · rw [List.mem_singleton.mp hretry]
      exact hplain _
    · cases hretry
  · left
    intro retry hretry
    unfold italianU at hretry
    split_ifs at hretry
    · rw [List.mem_singleton.mp hretry]
      exact ⟨rfl, rfl, rfl, rfl⟩
    · cases hretry
  · left
    intro retry hretry
    unfold jRetry at hretry
    split_ifs at hretry
    · obtain ⟨s, -, rfl⟩ := List.mem_map.mp hretry
      exact hplain s
    · cases hretry
  · left
    intro retry hretry
    unfold exRetry at hretry
    split_ifs at hretry
    · obtain ⟨s, -, rfl⟩ := List.mem_map.mp hretry
      exact hplain s
    · cases hretry

/-- Behind an enclitic without stem types the word has its spelling again. -/
theorem enclitics_fruitless (hlength : word.length < maxWordSize)
    (hsifted : ¬ SiftedEnclitic spelling word)
    (hself : ∀ s ∈ encliticStems spelling word, Countable self s)
    (hact : Fruitless word [] act) :
    (Plan.run word self (enclitics spelling) act).Meets Analysed (Fruitless word []) := by
  unfold Plan.run
  rw [hact.2.2]
  apply Flow.runAll_meets _ hact
  intro part hpart state hstate
  obtain ⟨retry, hretry, rfl⟩ := List.mem_map.mp hpart
  obtain ⟨hreturns, hrestores⟩ := enclitics_restores hretry
  obtain ⟨hrval, hanalyses, -⟩ := hstate
  have hmask : ¬ retry.mask ≠ 0 := fun hne => hsifted ⟨retry, hretry, hne⟩
  obtain ⟨found, hfound, -, -, htallied⟩ :=
    (hself retry.spelling (List.mem_map_of_mem hretry)).spelled state.gkword
  have htallied := htallied hanalyses
  have hsum : (if retry.adds = true then state.rval + found.1 else found.1) = found.1 := by
    rw [hrval, Nat.zero_add]
    split_ifs <;> rfl
  unfold Retry.run Retry.result
  rw [if_neg fun h => h.2 hanalyses, hfound]
  dsimp only
  rw [if_neg hmask, hsum]
  by_cases hzero : found.1 = 0
  · rw [if_neg fun h => h.2 hzero, hrestores]
    exact ⟨hzero, htallied.mp hzero, xstrncpy_of_lt hlength⟩
  · rw [if_pos ⟨hreturns, hzero⟩]
    exact ⟨hzero, fun hempty => hzero (htallied.mpr hempty)⟩

end Fruitless

section Answered
variable {spelling : Spelling} {self : Check} {saveword word : Bytes} {act : Activation}

theorem enclitics_analysed (h : act.gkword.analyses ≠ []) :
    Plan.run saveword self (enclitics spelling) act = .goes act := by
  unfold Plan.run
  apply Flow.runAll_idle
  intro part hpart
  obtain ⟨retry, hretry, rfl⟩ := List.mem_map.mp hpart
  obtain ⟨enclitic, -, hfound⟩ := List.mem_filterMap.mp hretry
  obtain ⟨stem, -, rfl⟩ := Option.map_eq_some_iff.mp hfound
  unfold Retry.run
  rw [if_pos ⟨rfl, h⟩]

/-- The retries of a word that has an analysis leave its return value alone. -/
theorem plans_analysed (hlast : word.getLast? ≠ some 39)
    (hoverwritten : ¬ Overwritten spelling word)
    (hself : ∀ s ∈ (istRetry spelling).spellings word, s.length < maxWordSize ∧
      ∀ gkword : SpellWord, gkword.workword = s → Keeping self gkword)
    (hword : act.gkword.workword = word) (hact : Analysed act) :
    (Flow.runAll ((plans spelling word).map (Plan.run saveword self)) act).Meets Analysed
      Analysed := by
  unfold Overwritten at hoverwritten
  push Not at hoverwritten
  obtain ⟨hprodelision, hust, hrest⟩ := hoverwritten hlast
  have hidle : ∀ {plan : Plan}, plan word false = [] → Plan.run saveword self plan act = .goes act := by
    intro plan hplan
    unfold Plan.run
    have hempty : act.gkword.analyses.isEmpty = false := by simpa using hact.2
    rw [hword, hempty, hplan]
    rfl
  have hn : finalN spelling word false = [] := if_neg fun h => Bool.noConfusion h.2.1
  have hitalian : italianU spelling word word false = [] := if_neg fun h => Bool.noConfusion h.2.1
  simp only [plans, List.map_cons, List.map_nil, Flow.runAll]
  rw [enclitics_analysed hact.2, Flow.goes_andThen, hidle hprodelision, Flow.goes_andThen,
    hidle hust, Flow.goes_andThen]
  by_cases hist : istRetry spelling word false = []
  · obtain ⟨hu, hj, hex⟩ := hrest hist
    rw [hidle hist, Flow.goes_andThen, hidle hn, Flow.goes_andThen, hidle hu, Flow.goes_andThen,
      hidle hitalian, Flow.goes_andThen, hidle hj, Flow.goes_andThen, hidle hex]
    exact hact
  · obtain ⟨s, t, hpair⟩ : ∃ s t, istRetry spelling word false =
        [{ spelling := s, adds := true, returns := false }, { spelling := t, adds := true }] := by
      unfold istRetry at hist ⊢
      split_ifs at hist ⊢
      · exact ⟨_, _, rfl⟩
      · exact absurd rfl hist
    have hspellings : (istRetry spelling).spellings word = [s, t] :=
      congrArg (List.map Retry.spelling) hpair
    rw [hspellings] at hself
    obtain ⟨hsfits, hskept⟩ := hself s List.mem_cons_self
    obtain ⟨htfits, htkept⟩ := hself t (List.mem_cons_of_mem _ List.mem_cons_self)
    obtain ⟨first, hfirst, -, hkept⟩ :=
      (hskept (act.gkword.setWorkword s) (xstrncpy_of_lt hsfits)).spelled hsfits
    obtain ⟨second, hsecond, -, hkept'⟩ :=
      (htkept (first.2.setWorkword t) (xstrncpy_of_lt htfits)).spelled htfits
    have hrun : Plan.run saveword self (istRetry spelling) act =
        .returned (Activation.restore saveword ⟨act.rval + first.1 + second.1, second.2,
          act.tried ++ [(s, first.1)] ++ [(t, second.1)]⟩) := by
      have hplan : istRetry spelling act.gkword.workword act.gkword.analyses.isEmpty =
          [{ spelling := s, adds := true, returns := false }, { spelling := t, adds := true }] := by
        rw [hword]
        exact hpair
      unfold Plan.run
      rw [hplan, runPair_found saveword act s t hfirst hsecond, if_neg]
      have hrval := hact.1
      omega
    rw [hrun]
    refine ⟨?_, hkept' (hkept hact.2)⟩
    have hrval := hact.1
    change act.rval + first.1 + second.1 ≠ 0
    omega

end Answered

theorem capitals_idle {spelling : Spelling} {saveword word : Bytes} {check4 : Check}
    {act : Activation} (h : ¬ Capitalized spelling word) (hword : act.gkword.workword = word) :
    capitals spelling saveword check4 act = .goes act := by
  unfold Capitalized at h
  unfold capitals
  dsimp only
  rw [hword, if_neg h]

/-- The parts of an activation that found an analysis of the entered word. -/
theorem parts_analysed {spelling : Spelling} {check4 self apostr : Check} {word : Bytes}
    (hcapitals : ¬ Capitalized spelling word) (hoverwritten : ¬ Overwritten spelling word)
    (hself : ∀ s ∈ (istRetry spelling).spellings word, s.length < maxWordSize ∧
      ∀ g : SpellWord, g.workword = s → Keeping self g)
    (hapostr : ∀ g : SpellWord, g.workword = word → Keeping apostr g) {act : Activation}
    (hword : act.gkword.workword = word) (hact : Analysed act) :
    (Flow.runAll ([capitals spelling word check4, apostrophe word apostr] ++
      (plans spelling word).map (Plan.run word self)) act).Meets Analysed Analysed := by
  simp only [List.cons_append, List.nil_append, Flow.runAll]
  rw [capitals_idle hcapitals hword, Flow.goes_andThen]
  have hrval := hact.1
  by_cases hlast : act.gkword.workword.getLast? = some 39
  · obtain ⟨found, hfound, -, hkept⟩ := hapostr act.gkword hword
    have hreturned : apostrophe word apostr act =
        .returned (Activation.restore word ⟨act.rval + found.1, found.2, act.tried⟩) := by
      unfold apostrophe
      rw [if_pos hlast, hfound]
      dsimp only
      rw [if_pos (by omega)]
    rw [hreturned, Flow.returned_andThen]
    refine ⟨?_, hkept hact.2⟩
    change act.rval + found.1 ≠ 0
    omega
  · have hgoes : apostrophe word apostr act = .goes act := by
      unfold apostrophe
      rw [if_neg hlast]
    rw [hgoes, Flow.goes_andThen]
    rw [hword] at hlast
    exact plans_analysed hlast hoverwritten hself hword hact

/-- An activation for a word that does not lose count. -/
theorem activation_tallies {spelling : Spelling} {check4 self apostr : Check} {gkword : SpellWord}
    {word : Bytes} (hword : gkword.workword = word) (hlength : word.length < maxWordSize)
    (hmiscounts : ¬ Miscounts spelling word) (hcheck4 : Tallies check4 gkword)
    (hkeeping : ∀ s ∈ (istRetry spelling).spellings word, s.length < maxWordSize ∧
      ∀ g : SpellWord, g.workword = s → Keeping self g)
    (hself : ∀ s, s ∈ encliticStems spelling word ∨
      s ∈ silentSpellings word ((plans spelling word).drop 1) [] → Countable self s)
    (hapostr : ∀ g : SpellWord, g.workword = word → Tallies apostr g)
    (hanalyses : gkword.analyses = []) :
    (activation spelling check4 self apostr gkword).Meets Analysed
      fun act => act.rval = 0 ↔ act.gkword.analyses = [] := by
  unfold Miscounts at hmiscounts
  push Not at hmiscounts
  obtain ⟨hcapitals, hsifted, hoverwritten⟩ := hmiscounts
  have hsaved : xstrncpy word maxWordSize = word := xstrncpy_of_lt hlength
  obtain ⟨first, hfirst, hleft, -, htallied⟩ := hcheck4
  have htallied := htallied hanalyses
  have hleft : first.2.workword = word := by
    rw [hleft.eq (by rw [hword]; exact hlength), hword]
  unfold activation firstTry
  rw [hfirst, hword, hsaved]
  rw [Flow.goes_andThen, Flow.runAll_append]
  have hstart : (Flow.runAll ([capitals spelling word check4, apostrophe word apostr] ++
      (plans spelling word).map (Plan.run word self)) ⟨first.1, first.2, []⟩).Meets Analysed
      fun act => act.rval = 0 ↔ act.gkword.analyses = [] := by
    by_cases hzero : first.1 = 0
    · simp only [List.cons_append, List.nil_append, Flow.runAll]
      rw [capitals_idle hcapitals hleft, Flow.goes_andThen]
      obtain ⟨found, hfound, hword', -, htallied'⟩ := hapostr first.2 hleft
      have hfruitless : Fruitless word [] ⟨first.1, first.2, []⟩ :=
        ⟨hzero, htallied.mp hzero, hleft⟩
      have hapostrophe : (apostrophe word apostr ⟨first.1, first.2, []⟩).Meets Analysed
          (Fruitless word []) := by
        unfold apostrophe
        by_cases hlast : first.2.workword.getLast? = some 39
        · have htallied' := htallied' (htallied.mp hzero)
          rw [if_pos hlast, hfound]
          dsimp only
          rw [hzero, Nat.zero_add]
          by_cases hworkval : found.1 = 0
          · rw [if_neg fun hne => hne hworkval]
            refine ⟨hworkval, htallied'.mp hworkval, ?_⟩
            dsimp only
            rw [hword'.eq (by rw [hleft]; exact hlength), hleft]
            rfl
          · rw [if_pos hworkval]
            exact ⟨hworkval, fun hempty => hworkval (htallied'.mpr hempty)⟩
        · rw [if_neg hlast]
          exact hfruitless
      apply hapostrophe.andThen
      intro state hstate
      change (Flow.runAll ([Plan.run word self (enclitics spelling)] ++
        ((plans spelling word).drop 1).map (Plan.run word self)) state).Meets _ _
      simp only [List.cons_append, List.nil_append, Flow.runAll]
      apply (enclitics_fruitless hlength hsifted (fun s hs => hself s (.inl hs)) hstate).andThen
      intro state hstate
      apply (places_fruitless (places_regular spelling word) (fun s hs => hself s (.inr hs))
        hstate).mono (fun _ h => h)
      intro state hstate
      exact ⟨fun _ => hstate.2.1, fun _ => hstate.1⟩
    · have hne : first.2.analyses ≠ [] := fun hempty => hzero (htallied.mpr hempty)
      have hanswered : Analysed ⟨first.1, first.2, []⟩ := ⟨hzero, hne⟩
      apply (parts_analysed hcapitals hoverwritten hkeeping
        (fun g hg => (hapostr g hg).keeping) hleft hanswered).mono (fun _ h => h)
      intro state hstate
      exact ⟨fun h => absurd h hstate.1, fun h => absurd h hstate.2⟩
  exact hstart.andThen fun state hstate => hstate

end Morpheus
