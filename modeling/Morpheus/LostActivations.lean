import Morpheus.LostCounts

/-!
# Activations that lose count

An activation loses count when one of its tries does: behind an enclitic, at a later place, or in
`checkapostr`. Nothing is found before, and the wrong count stays afterwards.
-/
namespace Morpheus

section Activations
variable {spelling : Spelling} {fuel k : ℕ} {anal : GkAnalysis} {word : Bytes}
  {gkword first : SpellWord} {act : Activation}

/-- The places behind the one that lost count. -/
theorem places_linger (hfuel : spellingRank word ≤ fuel) {places : List Plan}
    (hplaces : places ⊆ plans spelling word) (hact : Lingers k (spellingRank word) act) :
    (Flow.runAll (places.map (Plan.run word (checkOnce spelling fuel k anal))) act).Meets (Lost k)
      (Lingers k (spellingRank word)) := by
  rw [← plans_answered spelling (oneShot k anal)] at hplaces
  apply hact.meets
  intro analyses hstart
  exact places_settle (keeps_oneShot spelling k anal analyses)
    (checks_settle (keeps_oneShot spelling k anal analyses) hfuel).2.1 (Nat.le_refl _) hplaces hstart

/-- An activation in which a part behind the first try loses count. -/
theorem loses_of_parts (hword : gkword.workword = word) (hlength : word.length < maxWordSize)
    (hcapitals : ¬ Capitalized spelling word)
    (hfirst : checkstring4 (spelling.answered emptyDictionary) fuel gkword = some (0, first))
    (hleft : first.workword = word) (hk : first.lookups ≤ k)
    (hparts : (Flow.runAll (apostrophe word (apostrOnce spelling fuel k anal) ::
      (plans spelling word).map (Plan.run word (checkOnce spelling fuel k anal)))
        ⟨0, first, []⟩).Meets (Lost k) (Lingers k (spellingRank word))) :
    Loses (checkOnce spelling (fuel + 1)) gkword := by
  have hlanguage : (spelling.answered (oneShot k anal)).language =
      (spelling.answered emptyDictionary).language := rfl
  obtain ⟨hgrows, hsame⟩ := checkstring4_follows hlanguage (oneShot_agree spelling k anal) fuel
    gkword (0, first) hfirst
  have hidle : capitals (spelling.answered (oneShot k anal)) word
      (checkstring4 (spelling.answered (oneShot k anal)) fuel) ⟨0, first, []⟩ =
        .goes ⟨0, first, []⟩ := by
    have hcapitals : ¬ Capitalized (spelling.answered (oneShot k anal)) word := hcapitals
    exact capitals_idle hcapitals hleft
  have hrun : (Flow.runAll ([capitals (spelling.answered (oneShot k anal)) word
      (checkstring4 (spelling.answered (oneShot k anal)) fuel),
      apostrophe word (checkapostr (spelling.answered (oneShot k anal)) fuel)] ++
        (plans (spelling.answered (oneShot k anal)) word).map
          (Plan.run word (checkstring3 (spelling.answered (oneShot k anal)) fuel)))
            ⟨0, first, []⟩).Meets (Lost k) (Lingers k (spellingRank word)) := by
    rw [plans_answered, List.cons_append, Flow.runAll, hidle, Flow.goes_andThen]
    exact hparts
  obtain ⟨last, hlast, hend⟩ := checkstring3_of_parts hword hlength (hsame hk) hrun
  have hlost : Lost k last := by
    rcases hend with hlost | ⟨state, hstate, rfl⟩
    · exact hlost
    · exact hstate.lost
  exact ⟨k, anal, _, hgrows.trans hk, hlast, hlost⟩

/-- The first try finds nothing. -/
theorem firstTry_silent (spelling : Spelling) (hfuel : spellingRank word ≤ fuel) (hlength : word.length < maxWordSize)
    (hword : gkword.workword = word) (hanalyses : gkword.analyses = []) :
    ∃ first, checkstring4 (spelling.answered emptyDictionary) fuel gkword = some (0, first) ∧
      Fruitless word [] ⟨0, first, []⟩ := by
  obtain ⟨⟨rval, first⟩, hfound, hleaves, hzero, -, hempty⟩ :=
    (checks_settle (keeps_silent (emptyDictionary_silent spelling) []) hfuel).1 gkword
      (by rw [hword]) ⟨Nat.zero_le _, hanalyses⟩
  have hzero : rval = 0 := hzero
  rw [hzero] at hfound
  refine ⟨first, hfound, rfl, hempty, ?_⟩
  have hleft := hleaves.eq (by rw [hword]; exact hlength)
  exact hleft.trans hword

/-- The part for an apostrophe finds nothing. -/
theorem apostrophe_silent (spelling : Spelling) (hfuel : spellingRank word ≤ fuel) (hlength : word.length < maxWordSize)
    (hact : Fruitless word [] act) :
    ∃ next, apostrophe word (checkapostr (spelling.answered emptyDictionary) fuel) act = .goes next ∧
      Fruitless word [] next := by
  obtain ⟨hrval, hanalyses, hword⟩ := hact
  have hword : act.gkword.workword = word := hword
  unfold apostrophe
  by_cases hlast : act.gkword.workword.getLast? = some 39
  · obtain ⟨found, hfound, hleaves, hzero, -, hempty⟩ :=
      (checks_settle (keeps_silent (emptyDictionary_silent spelling) []) hfuel).2.2 act.gkword
        (by rw [hword]) ⟨Nat.zero_le _, hanalyses⟩
    have hleft := hleaves.eq (by rw [hword]; exact hlength)
    rw [if_pos hlast, hfound]
    dsimp only
    rw [hrval, hzero, if_neg fun h => h rfl]
    exact ⟨_, rfl, rfl, hempty, hleft.trans hword⟩
  · rw [if_neg hlast]
    exact ⟨act, rfl, hrval, hanalyses, hword⟩

/-- A place at which count is lost after nothing was found before. -/
theorem activation_loses (hfuel : spellingRank word ≤ fuel) (hlength : word.length < maxWordSize)
    (hcapitals : ¬ Capitalized spelling word) (hword : gkword.workword = word)
    (hanalyses : gkword.analyses = []) {front back : List Plan} {plan : Plan}
    (hplaces : plans spelling word = front ++ plan :: back) {tried : List Bytes}
    (hfront : ∀ act : Activation, Fruitless word [] act → ∃ next, Flow.runAll (front.map
      (Plan.run word (checkstring3 (spelling.answered emptyDictionary) fuel))) act = .goes next ∧
        Fruitless word tried next)
    (hplan : ∀ act : Activation, Fruitless word tried act → ∃ k anal, act.gkword.lookups ≤ k ∧
      (plan.run word (checkOnce spelling fuel k anal) act).Meets (Lost k)
        (Lingers k (spellingRank word))) :
    Loses (checkOnce spelling (fuel + 1)) gkword := by
  obtain ⟨first, hfirst, hstart⟩ :=
    firstTry_silent spelling hfuel hlength hword hanalyses
  obtain ⟨next, hnext, hfruitless⟩ :=
    apostrophe_silent spelling hfuel hlength hstart
  obtain ⟨act, hact, hend⟩ := hfront next hfruitless
  obtain ⟨k, anal, hk, hmeets⟩ := hplan act hend
  have hfollows : FollowsPart k
      (apostrophe word (checkapostr (spelling.answered emptyDictionary) fuel))
      (apostrophe word (apostrOnce spelling fuel k anal)) :=
    apostrophe_follows (apostrOnce_follows spelling fuel k anal)
  have hfollows' : ∀ other : Plan, FollowsPart k
      (other.run word (checkstring3 (spelling.answered emptyDictionary) fuel))
      (other.run word (checkOnce spelling fuel k anal)) :=
    plan_follows (checkOnce_follows spelling fuel k anal)
  obtain ⟨hgrows, hsame⟩ := hfollows ⟨0, first, []⟩ next (by rw [hnext]; rfl)
  obtain ⟨hgrows', hsame'⟩ := runAll_follows (forall₂_map hfollows') next act (by rw [hact]; rfl)
  apply loses_of_parts hword hlength hcapitals hfirst hstart.2.2 (hgrows.trans (hgrows'.trans hk))
  rw [Flow.runAll, hsame (hgrows'.trans hk), hnext, Flow.goes_andThen, hplaces, List.map_append,
    Flow.runAll_append, hsame' hk, hact, Flow.goes_andThen, List.map_cons, Flow.runAll]
  apply hmeets.andThen
  intro state hstate
  apply places_linger hfuel _ hstate
  rw [hplaces]
  exact fun other hother => List.mem_append_right _ (List.mem_cons_of_mem _ hother)

theorem mute_of_small (hfuel : spellingRank word ≤ fuel) {s : Bytes} (hlength : s.length < maxWordSize)
    (hrank : spellingRank s < spellingRank word) :
    Mute (checkstring3 (spelling.answered emptyDictionary) fuel) s := by
  refine ⟨hlength, fun g hg hempty => ?_⟩
  obtain ⟨⟨rval, found⟩, hfound, hleaves, hzero, -, hnone⟩ :=
    (checks_settle (keeps_silent (emptyDictionary_silent spelling) []) hfuel).2.1 g
      (by rw [hg]; exact hrank) ⟨Nat.zero_le _, hempty⟩
  have hzero : rval = 0 := hzero
  rw [hzero] at hfound
  have hleft := hleaves.eq (by rw [hg]; exact hlength)
  exact ⟨found, hfound, hleft.trans hg, hnone⟩

theorem retried_mute (hfuel : spellingRank word ≤ fuel) (hroomy : Roomy word) {s : Bytes}
    (hs : s ∈ encliticStems spelling word ∨
      s ∈ silentSpellings word ((plans spelling word).drop 1) []) :
    Mute (checkstring3 (spelling.answered emptyDictionary) fuel) s := by
  obtain ⟨hfits, hrank⟩ := retried_small hroomy hs
  exact mute_of_small hfuel hfits.1 hrank

/-- An enclitic behind which count is lost. -/
theorem loses_enclitic (hfuel : spellingRank word ≤ fuel) (hroomy : Roomy word)
    (hcapitals : ¬ Capitalized spelling word) (hword : gkword.workword = word)
    (hanalyses : gkword.analyses = []) {retry : Retry} (hretry : retry ∈ enclitics spelling word true)
    (hlost : ∀ next : Activation, next.rval = 0 → next.gkword.analyses = [] →
      ∃ k anal found, next.gkword.lookups ≤ k ∧
        checkOnce spelling fuel k anal (next.gkword.setWorkword retry.spelling) = some found ∧
          Lost k (retry.result next found)) : Loses (checkOnce spelling (fuel + 1)) gkword := by
  have hplaces : plans spelling word = [] ++ enclitics spelling :: (plans spelling word).drop 1 := rfl
  apply activation_loses hfuel hroomy.1 hcapitals hword hanalyses hplaces
  · intro act hact
    exact ⟨act, rfl, hact⟩
  · intro act hact
    exact enclitic_loses hfuel hroomy.1 hact (fun s hs => retried_mute hfuel hroomy (.inl hs)) hretry
      hlost

/-- A spelling for which count is lost, at one of the places behind the enclitics. -/
theorem loses_place (hfuel : spellingRank word ≤ fuel) (hroomy : Roomy word)
    (hcapitals : ¬ Capitalized spelling word) (hword : gkword.workword = word)
    (hanalyses : gkword.analyses = []) {s : Bytes}
    (hs : s ∈ silentSpellings word ((plans spelling word).drop 1) [])
    (hloses : ∀ g : SpellWord, g.workword = s → g.analyses = [] → Loses (checkOnce spelling fuel) g) :
    Loses (checkOnce spelling (fuel + 1)) gkword := by
  have hmute : ∀ t ∈ silentSpellings word ((plans spelling word).drop 1) [],
      Mute (checkstring3 (spelling.answered emptyDictionary) fuel) t := fun t ht =>
    retried_mute hfuel hroomy (.inr ht)
  rcases silentSpellings_mem hs with hnone | ⟨front, plan, back, hplaces, hmem⟩
  · cases hnone
  have hregular := places_regular spelling word
  have hrest : silentSpellings word (front ++ plan :: back) [] =
      silentSpellings word (plan :: back) (silentSpellings word front []) :=
    silentSpellings_append front (plan :: back) []
  have hbegins : silentSpellings word front [] ++
      plan.spellings ((silentSpellings word front []).getLastD word) <+:
        silentSpellings word ((plans spelling word).drop 1) [] := by
    rw [hplaces, hrest]
    exact silentSpellings_begins word back _
  have hsplit : plans spelling word = (enclitics spelling :: front) ++ plan :: back := by
    rw [List.cons_append, ← hplaces]
    rfl
  have hrank : spellingRank ((silentSpellings word front []).getLastD word) ≤ spellingRank word := by
    rcases List.eq_nil_or_concat (silentSpellings word front []) with hnil | ⟨init, t, hinit⟩
    · rw [hnil]
      exact Nat.le_refl _
    · rw [List.concat_eq_append] at hinit
      rw [hinit, List.getLastD_concat]
      have hmem : t ∈ silentSpellings word ((plans spelling word).drop 1) [] :=
        hbegins.subset (List.mem_append_left _ (by rw [hinit]; simp))
      exact (retried_small hroomy (.inr hmem)).2.le
  rw [hplaces] at hregular
  apply activation_loses hfuel hroomy.1 hcapitals hword hanalyses hsplit
  · intro act hact
    have henclitics : ∃ next, (enclitics spelling).run word
        (checkstring3 (spelling.answered emptyDictionary) fuel) act = .goes next ∧
          Fruitless word [] next := by
      unfold Plan.run
      rw [hact.2.2, hact.2.1]
      exact enclitics_mute hroomy.1 (fun retry hretry => (enclitics_restores hretry).2)
        (fun t ht => retried_mute hfuel hroomy (.inl ht)) hact
    obtain ⟨next, hnext, hfruitless⟩ := henclitics
    rw [List.map_cons, Flow.runAll, hnext, Flow.goes_andThen]
    exact places_mute word (fun other hother => hregular other (List.mem_append_left _ hother))
      (fun t ht => hmute t (hbegins.subset (List.mem_append_left _ ht))) hfruitless
  · intro act hact
    exact place_loses hfuel (hregular plan (by simp)) (by rw [hsplit]; simp) hact hrank
      (fun t ht => hmute t (hbegins.subset (List.mem_append_right _ ht))) hmem hloses

/-- An apostrophe for which count is lost. -/
theorem loses_apostrophe (hfuel : spellingRank word ≤ fuel) (hlength : word.length < maxWordSize)
    (hcapitals : ¬ Capitalized spelling word) (hword : gkword.workword = word)
    (hanalyses : gkword.analyses = []) (hlast : word.getLast? = some 39)
    (hloses : ∀ g : SpellWord, g.workword = word → g.analyses = [] →
      Loses (apostrOnce spelling fuel) g) : Loses (checkOnce spelling (fuel + 1)) gkword := by
  obtain ⟨first, hfirst, -, hnone, hleft⟩ :=
    firstTry_silent spelling hfuel hlength hword hanalyses
  have hleft : first.workword = word := hleft
  obtain ⟨k, anal, found, hk, hfound, hcount, hlookups⟩ := hloses first hleft hnone
  obtain ⟨last, hlast', hleaves, -⟩ :=
    (checks_settle (keeps_true (spelling.answered (oneShot k anal))) hfuel).2.2 first
      (by rw [hleft]) trivial
  have hsame : last = found := Option.some.inj (hlast'.symm.trans hfound)
  rw [hsame] at hleaves
  have hrank := spellingRank_le hleaves.isPrefix
  rw [hleft] at hrank
  apply loses_of_parts hword hlength hcapitals hfirst hleft hk
  have hapostrophe : (apostrophe word (apostrOnce spelling fuel k anal) ⟨0, first, []⟩).Meets
      (Lost k) (Lingers k (spellingRank word)) := by
    unfold apostrophe
    dsimp only
    rw [hleft, if_pos hlast, hfound]
    dsimp only
    rw [Nat.zero_add]
    by_cases hzero : found.1 = 0
    · have hne : found.2.analyses ≠ [] := fun hempty => hcount ⟨fun _ => hempty, fun _ => hzero⟩
      rw [if_neg fun h => h hzero]
      exact ⟨_, hne, hrank, hzero, hlookups, rfl⟩
    · rw [if_pos hzero]
      exact ⟨hcount, hlookups⟩
  rw [Flow.runAll]
  apply hapostrophe.andThen
  intro state hstate
  exact places_linger hfuel (List.Subset.refl _) hstate

/-- The enclitic behind which only some stem types are kept: either its stem has an analysis and
the value 0, or its analysis is not kept. -/
theorem loses_sifted (hfuel : spellingRank word ≤ fuel) (hroomy : Roomy word)
    (hcapitals : ¬ Capitalized spelling word) (hword : gkword.workword = word)
    (hanalyses : gkword.analyses = []) (hsifted : SiftedEnclitic spelling word) :
    Loses (checkOnce spelling (fuel + 1)) gkword := by
  obtain ⟨retry, hretry, hmask⟩ := hsifted
  obtain ⟨hfits, hrank⟩ := retried_small hroomy (.inl (List.mem_map_of_mem hretry))
  have hstem : spellingRank retry.spelling < fuel := by omega
  apply loses_enclitic hfuel hroomy hcapitals hword hanalyses hretry
  intro next hrval hnone
  have hentered : (next.gkword.setWorkword retry.spelling).workword = retry.spelling :=
    xstrncpy_of_lt hfits.1
  have hresult : ∀ found : ℕ × SpellWord,
      (retry.result next found).rval = found.1 ∧ (retry.result next found).gkword =
        { found.2 with
          analyses := found.2.analyses.filter fun anal => anal.stemtype &&& retry.mask ≠ 0 } := by
    intro found
    unfold Retry.result
    rw [if_pos hmask, hrval, Nat.zero_add]
    refine ⟨?_, rfl⟩
    split_ifs <;> rfl
  by_cases hreset : Capitalized spelling retry.spelling ∨ Overwritten spelling retry.spelling
  · obtain ⟨found, hfound, hzero, hone, hlookups⟩ :=
      reset_oneShot hfits.1 hreset hstem hentered { GkAnalysis.zero with stemtype := retry.mask }
    obtain ⟨hsame, hkept⟩ := hresult found
    refine ⟨_, _, found, Nat.le_refl _, hfound, ?_, ?_⟩
    · rw [hsame, hkept, hone]
      intro hiff
      have hempty := hiff.mp hzero
      simp [hmask] at hempty
    · rw [hkept]
      exact hlookups
  · push Not at hreset
    obtain ⟨found, hfound, hne, hone, hlookups⟩ :=
      kept_oneShot hfits.1 hreset.1 hreset.2 hstem hentered GkAnalysis.zero
    obtain ⟨hsame, hkept⟩ := hresult found
    refine ⟨_, _, found, Nat.le_refl _, hfound, ?_, ?_⟩
    · rw [hsame, hkept, hone]
      intro hiff
      apply hne
      apply hiff.mpr
      simp [GkAnalysis.zero]
    · rw [hkept]
      exact hlookups

end Activations

end Morpheus
