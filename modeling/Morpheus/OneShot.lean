import Morpheus.SpellingWindow

/-!
# A dictionary that answers once

What an activation returns when the only answer of the dictionary is an analysis of the entered
word: the value is replaced by 0 when the first letter is a capital or another spelling is tried
nevertheless, and kept otherwise.
-/
namespace Morpheus

/-- A dictionary that answers one lookup. -/
def oneShot (k : ℕ) (anal : GkAnalysis) : Dictionary where
  checkword := fun gkword =>
    if gkword.lookups = k then (1, [anal]) else (0, gkword.analyses)
  checkindecl := fun gkword => (0, gkword.analyses)
  checknom := fun gkword => (0, gkword.analyses)
  truthful := by
    intro lookup hlookup gkword
    simp only [List.mem_cons, List.not_mem_nil, or_false] at hlookup
    rcases hlookup with rfl | rfl | rfl
    · dsimp only
      split_ifs
      · exact ⟨fun h => absurd h (by decide), fun _ => List.cons_ne_nil _ _⟩
      · exact ⟨fun _ => Iff.rfl, fun h => absurd rfl h⟩
    all_goals exact ⟨fun _ => Iff.rfl, fun h => absurd rfl h⟩

section OneShot
variable (spelling : Spelling) (k : ℕ) (anal : GkAnalysis)

theorem oneShot_silent : (spelling.answered (oneShot k anal)).SilentFrom (k + 1) := by
  intro lookup hlookup gkword hlookups
  simp only [List.mem_cons, List.not_mem_nil, or_false] at hlookup
  rcases hlookup with rfl | rfl | rfl
  · have hne : ¬ gkword.lookups = k := by omega
    exact if_neg hne
  · rfl
  · rfl

/-- Before its answer the dictionary knows no word. -/
theorem oneShot_agree : AgreeBefore k (spelling.answered emptyDictionary)
    (spelling.answered (oneShot k anal)) := by
  intro gkword hlookups
  have hne : ¬ gkword.lookups = k := by omega
  exact ⟨if_neg hne, rfl, rfl⟩

/-- The record of a word after the answer. -/
def SpellWord.found (gkword : SpellWord) (anal : GkAnalysis) : SpellWord :=
  { gkword with analyses := [anal], lookups := gkword.lookups + 1 }

theorem checkstring4_oneShot (gkword : SpellWord) (fuel : ℕ) :
    checkstring4 (spelling.answered (oneShot gkword.lookups anal)) (fuel + 1) gkword =
      some (1, gkword.found anal) := by
  have hask : gkword.ask (spelling.answered (oneShot gkword.lookups anal)).checkword =
      (1, gkword.found anal) := by
    have hanswer : (spelling.answered (oneShot gkword.lookups anal)).checkword gkword =
        (1, [anal]) := if_pos rfl
    unfold SpellWord.ask SpellWord.found
    rw [hanswer]
  unfold checkstring4
  rw [hask]
  rfl

end OneShot

section Reset
variable {spelling : Spelling} {Invariant : SpellWord → Prop} {Answer : ℕ → Prop} {self : Check}
  {saveword word : Bytes} {rank : ℕ} {act : Activation}

/-- The return value of a retry that does not add replaces the one before. -/
theorem Retry.run_reset (hkeeps : Keeps spelling Invariant Answer)
    (hself : ∀ gkword, spellingRank gkword.workword < rank → Invariant gkword →
      Settles Invariant Answer self gkword) {retry : Retry} (hadds : retry.adds = false)
    (hplain : retry.Plain) (hrank : spellingRank retry.spelling < rank)
    (hinvariant : Invariant act.gkword) :
    (retry.run saveword self act).Meets (Restored Invariant Answer saveword)
      (OnTheWay Invariant Answer rank) := by
  obtain ⟨-, hmask, hwhile, hrestores⟩ := hplain
  have hentered : spellingRank (act.gkword.setWorkword retry.spelling).workword < rank :=
    (spellingRank_xstrncpy _ _).trans_lt hrank
  obtain ⟨found, hfound, hword, hanswer, hinvariant'⟩ :=
    hself _ hentered (hkeeps.workword _ _ hinvariant)
  obtain ⟨hresult, hrun⟩ := Retry.run_found saveword retry act hwhile hmask hrestores hfound
  simp only [hadds, Bool.false_eq_true, if_false] at hresult
  rw [hrun, hresult]
  split_ifs
  · exact OnTheWay.restore hkeeps hanswer hinvariant'
  · exact ⟨(spellingRank_le hword.isPrefix).trans hentered.le, hanswer, hinvariant'⟩

/-- A place whose first retry does not add. -/
theorem Plan.run_reset (hkeeps : Keeps spelling Invariant Answer)
    (hself : ∀ gkword, spellingRank gkword.workword < rank → Invariant gkword →
      Settles Invariant Answer self gkword) (hsave : spellingRank saveword ≤ rank) {plan : Plan}
    (hplan : plan ∈ plans spelling saveword)
    (hrank : spellingRank act.gkword.workword ≤ rank)
    (hne : plan act.gkword.workword act.gkword.analyses.isEmpty ≠ [])
    (hadds : ∀ retry ∈ plan act.gkword.workword act.gkword.analyses.isEmpty,
      retry.adds = false ∧ retry.Plain) (hinvariant : Invariant act.gkword) :
    (plan.run saveword self act).Meets (Restored Invariant Answer saveword)
      (OnTheWay Invariant Answer rank) := by
  have hbelow := plans_below spelling saveword hplan hsave _ act.gkword.analyses.isEmpty hrank
  have hmask : ∀ retry ∈ plan act.gkword.workword act.gkword.analyses.isEmpty,
      retry.mask ≠ 0 → retry.whileEmpty = true := fun retry hretry => plans_mask hplan hretry
  unfold Plan.run
  generalize plan act.gkword.workword act.gkword.analyses.isEmpty = retries at *
  cases retries with
  | nil => exact absurd rfl hne
  | cons retry retries =>
    obtain ⟨hfirst, hplain⟩ := hadds retry List.mem_cons_self
    rw [List.map_cons, Flow.runAll]
    apply (Retry.run_reset hkeeps hself hfirst hplain (hbelow retry List.mem_cons_self)
      hinvariant).andThen
    intro next hnext
    apply Flow.runAll_meets _ hnext
    intro part hpart state hstate
    obtain ⟨other, hother, rfl⟩ := List.mem_map.mp hpart
    have hmem := List.mem_cons_of_mem retry hother
    exact Retry.run_settles hkeeps hself hsave hstate (hbelow other hmem) (hmask other hmem)

/-- The places of a word that has an analysis, when one of them replaces the return value. -/
theorem places_reset (hkeeps : Keeps spelling Invariant Answer)
    (hself : ∀ gkword, spellingRank gkword.workword < rank → Invariant gkword →
      Settles Invariant Answer self gkword) (hsave : spellingRank saveword ≤ rank)
    (front back : List Plan) {plan : Plan} (hplaces : front ++ plan :: back ⊆ plans spelling saveword)
    (hword : act.gkword.workword = word) (hanalyses : act.gkword.analyses ≠ [])
    (hrank : spellingRank word ≤ rank) (hfront : ∀ other ∈ front, other word false = [])
    (hne : plan word false ≠ []) (hadds : ∀ retry ∈ plan word false, retry.adds = false ∧ retry.Plain)
    (hinvariant : Invariant act.gkword) :
    (Flow.runAll ((front ++ plan :: back).map (Plan.run saveword self)) act).Meets
      (Restored Invariant Answer saveword) (OnTheWay Invariant Answer rank) := by
  have hempty : act.gkword.analyses.isEmpty = false := by simpa using hanalyses
  have hidle : Flow.runAll (front.map (Plan.run saveword self)) act = .goes act := by
    apply Flow.runAll_idle
    intro part hpart
    obtain ⟨other, hother, rfl⟩ := List.mem_map.mp hpart
    unfold Plan.run
    rw [hword, hempty, hfront other hother]
    rfl
  rw [List.map_append, Flow.runAll_append, hidle, Flow.goes_andThen, List.map_cons, Flow.runAll]
  have hplan : plan ∈ plans spelling saveword := hplaces (by simp)
  have hretries : plan act.gkword.workword act.gkword.analyses.isEmpty = plan word false := by
    rw [hword, hempty]
  rw [← hword] at hrank
  rw [← hretries] at hne hadds
  apply (Plan.run_reset hkeeps hself hsave hplan hrank hne hadds hinvariant).andThen
  intro next hnext
  exact places_settle hkeeps hself hsave
    (fun other hother => hplaces (List.mem_append_right _ (List.mem_cons_of_mem _ hother))) hnext

end Reset

/-- What `checkstring3` returns, from what the parts behind its first try come to. -/
theorem checkstring3_of_parts {spelling : Spelling} {fuel : ℕ} {gkword : SpellWord} {word : Bytes}
    (hword : gkword.workword = word) (hlength : word.length < maxWordSize) {first : ℕ × SpellWord}
    (hfirst : checkstring4 spelling fuel gkword = some first) {Returned Goes : Activation → Prop}
    (hparts : (Flow.runAll ([capitals spelling word (checkstring4 spelling fuel),
      apostrophe word (checkapostr spelling fuel)] ++
        (plans spelling word).map (Plan.run word (checkstring3 spelling fuel)))
          ⟨first.1, first.2, []⟩).Meets Returned Goes) :
    ∃ act, checkstring3 spelling (fuel + 1) gkword = some (act.rval, act.gkword) ∧
      (Returned act ∨ ∃ last, Goes last ∧ act = last.restore word) := by
  have hsaved : xstrncpy word maxWordSize = word := xstrncpy_of_lt hlength
  rw [checkstring3]
  unfold activation firstTry
  rw [hfirst, hword, hsaved]
  dsimp only [Flow.goes_andThen]
  rw [Flow.runAll_append]
  cases hflow : Flow.runAll ([capitals spelling word (checkstring4 spelling fuel),
      apostrophe word (checkapostr spelling fuel)] ++
        (plans spelling word).map (Plan.run word (checkstring3 spelling fuel)))
          ⟨first.1, first.2, []⟩ with
  | stuck =>
    rw [hflow] at hparts
    exact hparts.elim
  | returned act =>
    rw [hflow] at hparts
    exact ⟨act, rfl, .inl hparts⟩
  | goes last =>
    rw [hflow] at hparts
    exact ⟨last.restore word, rfl, .inr ⟨last, hparts, rfl⟩⟩

/-- Where the return value of a word that has an analysis is replaced. -/
theorem overwritten_place {spelling : Spelling} {word : Bytes} (h : Overwritten spelling word) :
    ∃ front plan back, (plans spelling word).drop 1 = front ++ plan :: back ∧
      (∀ other ∈ front, other word false = []) ∧ plan word false ≠ [] ∧
        ∀ retry ∈ plan word false, retry.adds = false ∧ retry.Plain := by
  have hn : finalN spelling word false = [] := if_neg fun h => Bool.noConfusion h.2.1
  have hitalian : italianU spelling word word false = [] := if_neg fun h => Bool.noConfusion h.2.1
  have hplain : ∀ s : Bytes, ({ spelling := s } : Retry).adds = false ∧
      Retry.Plain { spelling := s } := fun _ => ⟨rfl, rfl, rfl, rfl, rfl⟩
  have hprodelision : ∀ retry ∈ prodelision spelling word false, retry.adds = false ∧ retry.Plain := by
    intro retry hretry
    unfold prodelision at hretry
    split_ifs at hretry
    · rw [List.mem_singleton.mp hretry]
      exact hplain _
    · cases hretry
  have hust : ∀ retry ∈ ustRetry spelling word false, retry.adds = false ∧ retry.Plain := by
    intro retry hretry
    unfold ustRetry at hretry
    split_ifs at hretry
    · rw [List.mem_singleton.mp hretry]
      exact hplain _
    · cases hretry
  have hu : ∀ retry ∈ uRetry spelling word word false, retry.adds = false ∧ retry.Plain := by
    intro retry hretry
    unfold uRetry at hretry
    split_ifs at hretry
    · rw [List.mem_singleton.mp hretry]
      exact hplain _
    · cases hretry
  have hj : ∀ retry ∈ jRetry spelling word word false, retry.adds = false ∧ retry.Plain := by
    intro retry hretry
    unfold jRetry at hretry
    split_ifs at hretry
    · obtain ⟨s, -, rfl⟩ := List.mem_map.mp hretry
      exact hplain s
    · cases hretry
  have hex : ∀ retry ∈ exRetry spelling word false, retry.adds = false ∧ retry.Plain := by
    intro retry hretry
    unfold exRetry at hretry
    split_ifs at hretry
    · obtain ⟨s, -, rfl⟩ := List.mem_map.mp hretry
      exact hplain s
    · cases hretry
  by_cases hpnone : prodelision spelling word false = []
  swap
  · exact ⟨[], prodelision spelling, _, rfl, by simp, hpnone, hprodelision⟩
  by_cases hunone : ustRetry spelling word false = []
  swap
  · exact ⟨[prodelision spelling], ustRetry spelling, _, rfl, by simpa using hpnone, hunone, hust⟩
  obtain ⟨hist, hrest⟩ : istRetry spelling word false = [] ∧ (uRetry spelling word word false ≠ [] ∨
      jRetry spelling word word false ≠ [] ∨ exRetry spelling word false ≠ []) :=
    (h.2.resolve_left fun hne => hne hpnone).resolve_left fun hne => hne hunone
  by_cases hunone' : uRetry spelling word word false = []
  swap
  · exact ⟨[prodelision spelling, ustRetry spelling, istRetry spelling, finalN spelling],
      uRetry spelling word, _, rfl, by simp [hpnone, hunone, hist, hn], hunone', hu⟩
  by_cases hjnone : jRetry spelling word word false = []
  swap
  · exact ⟨[prodelision spelling, ustRetry spelling, istRetry spelling, finalN spelling,
      uRetry spelling word, italianU spelling word], jRetry spelling word, _, rfl,
      by simp [hpnone, hunone, hist, hn, hunone', hitalian], hjnone, hj⟩
  exact ⟨[prodelision spelling, ustRetry spelling, istRetry spelling, finalN spelling,
    uRetry spelling word, italianU spelling word, jRetry spelling word], exRetry spelling, _, rfl,
    by simp [hpnone, hunone, hist, hn, hunone', hitalian, hjnone],
    (hrest.resolve_left fun hne => hne hunone').resolve_left fun hne => hne hjnone, hex⟩

/-- The parts of an activation that found an analysis of a word whose return value is replaced. -/
theorem parts_reset {spelling : Spelling} {Invariant : SpellWord → Prop} {Answer : ℕ → Prop}
    {check4 self apostr : Check} {word : Bytes} (hkeeps : Keeps spelling Invariant Answer)
    (hcheck4 : ∀ g : SpellWord, g.workword.length ≤ word.length → Invariant g →
      Settles Invariant Answer check4 g)
    (hself : ∀ g, spellingRank g.workword < spellingRank word → Invariant g →
      Settles Invariant Answer self g)
    (hapostr : ∀ g, spellingRank g.workword ≤ spellingRank word → Invariant g →
      Settles Invariant Answer apostr g)
    (h : Capitalized spelling word ∨ Overwritten spelling word) {act : Activation}
    (hword : act.gkword.workword = word) (hanalyses : act.gkword.analyses ≠ [])
    (hinvariant : Invariant act.gkword) :
    (Flow.runAll ([capitals spelling word check4, apostrophe word apostr] ++
      (plans spelling word).map (Plan.run word self)) act).Meets (Restored Invariant Answer word)
        (OnTheWay Invariant Answer (spellingRank word)) := by
  simp only [List.cons_append, List.nil_append, Flow.runAll]
  by_cases hcapital : Capitalized spelling word
  · unfold Capitalized at hcapital
    rw [← hword] at hcapital
    have hlength : act.gkword.workword.length ≤ word.length := by rw [hword]
    apply (capitals_reset hkeeps hcheck4 (Nat.le_refl _) hcapital hlength hinvariant).andThen
    intro act hact
    apply (apostrophe_settles hkeeps hapostr hact).andThen
    intro act hact
    exact places_settle hkeeps hself (Nat.le_refl _) (List.Subset.refl _) hact
  · have hoverwritten := h.resolve_left hcapital
    have hgoes : apostrophe word apostr act = .goes act := by
      unfold apostrophe
      rw [hword, if_neg hoverwritten.1]
    obtain ⟨front, plan, back, hplaces, hfront, hne, hadds⟩ := overwritten_place hoverwritten
    have hsplit : plans spelling word = enclitics spelling :: (front ++ plan :: back) := by
      rw [← hplaces]
      rfl
    have hsubset : front ++ plan :: back ⊆ plans spelling word := by
      rw [hsplit]
      exact List.subset_cons_self _ _
    rw [capitals_idle hcapital hword, Flow.goes_andThen, hgoes, Flow.goes_andThen, hsplit,
      List.map_cons, Flow.runAll, enclitics_analysed hanalyses, Flow.goes_andThen]
    exact places_reset hkeeps hself (Nat.le_refl _) front back hsubset hword hanalyses
      (Nat.le_refl _) hfront hne hadds hinvariant

theorem overwritten_answered (spelling : Spelling) (word : Bytes) (dictionary : Dictionary) :
    Overwritten (spelling.answered dictionary) word ↔ Overwritten spelling word := by
  unfold Overwritten
  rw [uRetry_answered]
  rfl

/-- A word that was found, and whose return value was replaced by a try that fails. -/
theorem reset_oneShot {spelling : Spelling} {word : Bytes} (hlength : word.length < maxWordSize)
    (h : Capitalized spelling word ∨ Overwritten spelling word) {fuel : ℕ}
    (hfuel : spellingRank word < fuel) {gkword : SpellWord} (hword : gkword.workword = word)
    (anal : GkAnalysis) :
    ∃ found, checkstring3 (spelling.answered (oneShot gkword.lookups anal)) fuel gkword = some found ∧
      found.1 = 0 ∧ found.2.analyses = [anal] ∧ gkword.lookups < found.2.lookups := by
  have hpositive : 0 < spellingRank word := by
    unfold spellingRank
    omega
  obtain ⟨fuel, rfl⟩ : ∃ more, fuel = more + 1 + 1 := ⟨fuel - 2, by omega⟩
  have hkeeps := keeps_silent (oneShot_silent spelling gkword.lookups anal) [anal]
  obtain ⟨hcheck4, hself, hapostr⟩ := checks_settle hkeeps (by omega : spellingRank word ≤ fuel + 1)
  have hfirst := checkstring4_oneShot spelling anal gkword fuel
  have h : Capitalized (spelling.answered (oneShot gkword.lookups anal)) word ∨
      Overwritten (spelling.answered (oneShot gkword.lookups anal)) word :=
    h.imp id (overwritten_answered spelling word _).mpr
  have hentered : (Activation.mk 1 (gkword.found anal) []).gkword.workword = word := hword
  have hparts := parts_reset hkeeps hcheck4 hself hapostr h hentered (List.cons_ne_nil _ _)
    ⟨Nat.le_refl _, rfl⟩
  obtain ⟨act, hact, hend⟩ := checkstring3_of_parts hword hlength hfirst hparts
  refine ⟨(act.rval, act.gkword), hact, ?_⟩
  rcases hend with ⟨-, hrval, hlookups, hanalyses⟩ | ⟨last, ⟨-, hrval, hlookups, hanalyses⟩, rfl⟩
  · exact ⟨hrval, hanalyses, hlookups⟩
  · exact ⟨hrval, hanalyses, hlookups⟩

/-- A word that was found, and whose return value is kept. -/
theorem kept_oneShot {spelling : Spelling} {word : Bytes} (hlength : word.length < maxWordSize)
    (hcapitals : ¬ Capitalized spelling word) (hoverwritten : ¬ Overwritten spelling word) {fuel : ℕ}
    (hfuel : spellingRank word < fuel) {gkword : SpellWord} (hword : gkword.workword = word)
    (anal : GkAnalysis) :
    ∃ found, checkstring3 (spelling.answered (oneShot gkword.lookups anal)) fuel gkword = some found ∧
      found.1 ≠ 0 ∧ found.2.analyses = [anal] ∧ gkword.lookups < found.2.lookups := by
  have hpositive : 0 < spellingRank word := by
    unfold spellingRank
    omega
  obtain ⟨fuel, rfl⟩ : ∃ more, fuel = more + 1 + 1 := ⟨fuel - 2, by omega⟩
  have hfuel' : spellingRank word ≤ fuel + 1 := by omega
  have hkeeps := (keeps_silent (oneShot_silent spelling gkword.lookups anal) [anal]).anyAnswer
  obtain ⟨hcheck4, hself, hapostr⟩ := checks_settle hkeeps hfuel'
  have hhonest := answered_honest spelling (oneShot gkword.lookups anal)
  obtain ⟨-, hkeeping, hkeepingApostr⟩ := checks_keeping hhonest hfuel'
  have hfirst := checkstring4_oneShot spelling anal gkword fuel
  have hentered : (Activation.mk 1 (gkword.found anal) []).gkword.workword = word := hword
  have hcapitals : ¬ Capitalized (spelling.answered (oneShot gkword.lookups anal)) word := hcapitals
  have hoverwritten : ¬ Overwritten (spelling.answered (oneShot gkword.lookups anal)) word :=
    fun h => hoverwritten ((overwritten_answered spelling word _).mp h)
  have hist : ∀ s ∈ (istRetry (spelling.answered (oneShot gkword.lookups anal))).spellings word,
      s.length < maxWordSize ∧ ∀ g : SpellWord, g.workword = s →
        Keeping (checkstring3 (spelling.answered (oneShot gkword.lookups anal)) (fuel + 1)) g := by
    intro s hs
    have hplan : istRetry (spelling.answered (oneShot gkword.lookups anal)) ∈
        plans (spelling.answered (oneShot gkword.lookups anal)) word := by simp [plans]
    obtain ⟨retry, hretry, rfl⟩ := List.mem_map.mp hs
    refine ⟨plans_fit hplan hlength hlength hretry, fun g hg => hkeeping g ?_⟩
    rw [hg]
    exact plans_below _ word hplan (Nat.le_refl _) word true (Nat.le_refl _) retry hretry
  have hsettled := parts_settle hkeeps hcheck4 hself hapostr (Nat.le_refl _) (by rw [hentered])
    ⟨by rw [hentered], trivial, Nat.le_refl _, rfl⟩
  have hboth := hsettled.and (parts_analysed hcapitals hoverwritten hist
    (fun g hg => hkeepingApostr g (by rw [hg])) hentered ⟨Nat.one_ne_zero, List.cons_ne_nil _ _⟩)
  obtain ⟨act, hact, hend⟩ := checkstring3_of_parts hword hlength hfirst hboth
  refine ⟨(act.rval, act.gkword), hact, ?_⟩
  rcases hend with ⟨⟨-, -, hlookups, hanalyses⟩, hrval, -⟩ |
    ⟨last, ⟨⟨-, -, hlookups, hanalyses⟩, hrval, -⟩, rfl⟩
  · exact ⟨hrval, hanalyses, hlookups⟩
  · exact ⟨hrval, hanalyses, hlookups⟩

end Morpheus
