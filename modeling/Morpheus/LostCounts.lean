import Morpheus.OneShot

/-!
# Retries that lose count

A spelling for which an answer of the dictionary is counted wrong is tried by an activation that
has found nothing before. The wrong count stays to the end of the activation.
-/
namespace Morpheus

/-- A check that finds nothing for a spelling. -/
def Mute (self : Check) (s : Bytes) : Prop :=
  s.length < maxWordSize ∧ ∀ gkword : SpellWord, gkword.workword = s → gkword.analyses = [] →
    ∃ found : SpellWord, self gkword = some (0, found) ∧ found.workword = s ∧ found.analyses = []

section Mute
variable {self : Check} {word : Bytes} {tried : List Bytes} {act : Activation}

/-- A retry that finds nothing. -/
theorem Retry.run_mute (saveword : Bytes) {retry : Retry} (hself : Mute self retry.spelling)
    (hrval : act.rval = 0) (hanalyses : act.gkword.analyses = []) :
    ∃ next, retry.run saveword self act = .goes next ∧ next.rval = 0 ∧
      next.gkword.analyses = [] ∧ next.gkword.workword =
        if retry.restores then xstrncpy saveword maxWordSize else retry.spelling := by
  obtain ⟨found, hfound, hword, hempty⟩ := hself.2 (act.gkword.setWorkword retry.spelling)
    (xstrncpy_of_lt hself.1) hanalyses
  have hresult : (retry.result act (0, found)).rval = 0 ∧
      (retry.result act (0, found)).gkword.analyses = [] ∧
        (retry.result act (0, found)).gkword.workword = retry.spelling := by
    unfold Retry.result
    dsimp only
    rw [hrval]
    refine ⟨by split_ifs <;> rfl, ?_, ?_⟩
    · split_ifs
      · rw [hempty]
        rfl
      · exact hempty
    · split_ifs <;> exact hword
  unfold Retry.run
  rw [if_neg fun h => h.2 hanalyses, hfound]
  dsimp only
  rw [if_neg fun h => h.2 hresult.1]
  cases retry.restores with
  | true => exact ⟨_, rfl, hresult.1, hresult.2.1, rfl⟩
  | false => exact ⟨_, rfl, hresult⟩

theorem retries_mute (saveword : Bytes) {retries : List Retry}
    (hrestores : ∀ retry ∈ retries, retry.restores = false)
    (hself : ∀ s ∈ retries.map Retry.spelling, Mute self s) (hact : Fruitless word tried act) :
    ∃ next, Flow.runAll (retries.map (Retry.run saveword self)) act = .goes next ∧
      Fruitless word (tried ++ retries.map Retry.spelling) next := by
  induction retries generalizing tried act with
  | nil =>
    have hsame := List.append_nil tried
    rw [← hsame] at hact
    exact ⟨act, rfl, hact⟩
  | cons retry retries ih =>
    obtain ⟨next, hnext, hrval, hanalyses, hword⟩ := Retry.run_mute saveword
      (hself retry.spelling List.mem_cons_self) hact.1 hact.2.1
    rw [hrestores retry List.mem_cons_self] at hword
    have hfruitless : Fruitless word (tried ++ [retry.spelling]) next := by
      refine ⟨hrval, hanalyses, ?_⟩
      rw [List.getLastD_concat]
      exact hword
    obtain ⟨last, hlast, hend⟩ := ih (fun r hr => hrestores r (List.mem_cons_of_mem _ hr))
      (fun s hs => hself s (List.mem_cons_of_mem _ hs)) hfruitless
    refine ⟨last, ?_, ?_⟩
    · rw [List.map_cons, Flow.runAll, hnext]
      exact hlast
    · rw [List.append_assoc] at hend
      exact hend

theorem enclitics_mute {retries : List Retry} (hlength : word.length < maxWordSize)
    (hrestores : ∀ retry ∈ retries, retry.restores = true)
    (hself : ∀ s ∈ retries.map Retry.spelling, Mute self s) (hact : Fruitless word [] act) :
    ∃ next, Flow.runAll (retries.map (Retry.run word self)) act = .goes next ∧
      Fruitless word [] next := by
  induction retries generalizing act with
  | nil => exact ⟨act, rfl, hact⟩
  | cons retry retries ih =>
    obtain ⟨next, hnext, hrval, hanalyses, hword⟩ := Retry.run_mute word
      (hself retry.spelling List.mem_cons_self) hact.1 hact.2.1
    rw [hrestores retry List.mem_cons_self] at hword
    have hfruitless : Fruitless word [] next :=
      ⟨hrval, hanalyses, hword.trans (xstrncpy_of_lt hlength)⟩
    obtain ⟨last, hlast, hend⟩ := ih (fun r hr => hrestores r (List.mem_cons_of_mem _ hr))
      (fun s hs => hself s (List.mem_cons_of_mem _ hs)) hfruitless
    refine ⟨last, ?_, hend⟩
    rw [List.map_cons, Flow.runAll, hnext]
    exact hlast

theorem Plan.Regular.restores {plan : Plan} (h : plan.Regular) (w : Bytes) (empty : Bool) :
    ∀ retry ∈ plan w empty, retry.restores = false := by
  rcases h w empty with hplain | ⟨s, t, hpair⟩
  · exact fun retry hretry => (hplain retry hretry).2.2.2
  · rw [hpair]
    simp

theorem places_mute (saveword : Bytes) {places : List Plan}
    (hregular : ∀ plan ∈ places, plan.Regular)
    (hself : ∀ s ∈ silentSpellings word places tried, Mute self s)
    (hact : Fruitless word tried act) :
    ∃ next, Flow.runAll (places.map (Plan.run saveword self)) act = .goes next ∧
      Fruitless word (silentSpellings word places tried) next := by
  induction places generalizing tried act with
  | nil => exact ⟨act, rfl, hact⟩
  | cons plan places ih =>
    have hmem : ∀ s ∈ plan.spellings (tried.getLastD word), Mute self s := fun s hs =>
      hself s ((silentSpellings_begins word places _).subset (List.mem_append_right _ hs))
    obtain ⟨next, hnext, hfruitless⟩ := retries_mute saveword
      ((hregular plan List.mem_cons_self).restores _ true) hmem hact
    obtain ⟨last, hlast, hend⟩ := ih (fun p hp => hregular p (List.mem_cons_of_mem _ hp)) hself
      hfruitless
    refine ⟨last, ?_, hend⟩
    have hplan : plan.run saveword self act = .goes next := by
      unfold Plan.run
      rw [hact.2.2, hact.2.1]
      exact hnext
    rw [List.map_cons, Flow.runAll, hplan]
    exact hlast

/-- Where a spelling is tried while nothing is found. -/
theorem silentSpellings_mem {places : List Plan} {s : Bytes}
    (h : s ∈ silentSpellings word places tried) : s ∈ tried ∨ ∃ front plan back,
      places = front ++ plan :: back ∧
        s ∈ plan.spellings ((silentSpellings word front tried).getLastD word) := by
  induction places generalizing tried with
  | nil => exact .inl h
  | cons plan places ih =>
    rcases ih h with hmem | ⟨front, other, back, rfl, hmem⟩
    · rcases List.mem_append.mp hmem with hmem | hmem
      · exact .inl hmem
      · exact .inr ⟨[], plan, places, rfl, hmem⟩
    · exact .inr ⟨plan :: front, other, back, rfl, hmem⟩

theorem silentSpellings_append (front back : List Plan) (tried : List Bytes) :
    silentSpellings word (front ++ back) tried =
      silentSpellings word back (silentSpellings word front tried) := by
  induction front generalizing tried with
  | nil => rfl
  | cons plan front ih => exact ih _

end Mute


section Once
variable (spelling : Spelling) (fuel : ℕ)

/-- `checkstring3` with a dictionary that answers once. -/
def checkOnce (k : ℕ) (anal : GkAnalysis) : Check :=
  checkstring3 (spelling.answered (oneShot k anal)) fuel

/-- `checkapostr` with a dictionary that answers once. -/
def apostrOnce (k : ℕ) (anal : GkAnalysis) : Check :=
  checkapostr (spelling.answered (oneShot k anal)) fuel

end Once

/-- A check that loses count when the dictionary answers one of its lookups. -/
def Loses (checks : ℕ → GkAnalysis → Check) (gkword : SpellWord) : Prop :=
  ∃ k anal found, gkword.lookups ≤ k ∧ checks k anal gkword = some found ∧ ¬ Tallied found ∧
    k < found.2.lookups

/-- An activation that has lost count of the answer. -/
def Lost (k : ℕ) (act : Activation) : Prop :=
  ¬ (act.rval = 0 ↔ act.gkword.analyses = []) ∧ k < act.gkword.lookups

/-- What is left of the answer in a record. -/
def Stays (k : ℕ) (analyses : List GkAnalysis) (gkword : SpellWord) : Prop :=
  k + 1 ≤ gkword.lookups ∧ gkword.analyses = analyses

/-- An activation on its way that has an analysis and the return value 0. -/
def Lingers (k rank : ℕ) (act : Activation) : Prop :=
  ∃ analyses ≠ [], OnTheWay (Stays k analyses) (fun rval => rval = 0) rank act

section Lost
variable {spelling : Spelling} {fuel k rank : ℕ} {anal : GkAnalysis} {word saveword : Bytes}
  {self : Check} {act : Activation}

theorem lost_of_zero {analyses : List GkAnalysis} (hne : analyses ≠ []) (hrval : act.rval = 0)
    (hremains : Stays k analyses act.gkword) : Lost k act := by
  obtain ⟨hlookups, hanalyses⟩ := hremains
  refine ⟨fun hiff => ?_, hlookups⟩
  rw [← hanalyses] at hne
  exact hne (hiff.mp hrval)

theorem Lingers.lost (h : Lingers k rank act) : Lost k act := by
  obtain ⟨analyses, hne, -, hrval, hremains⟩ := h
  exact lost_of_zero hne hrval hremains

theorem keeps_oneShot (spelling : Spelling) (k : ℕ) (anal : GkAnalysis)
    (analyses : List GkAnalysis) :
    Keeps (spelling.answered (oneShot k anal)) (Stays k analyses) fun rval => rval = 0 :=
  keeps_silent (oneShot_silent spelling k anal) analyses

theorem checkOnce_follows (spelling : Spelling) (fuel k : ℕ) (anal : GkAnalysis) :
    Follows k (checkstring3 (spelling.answered emptyDictionary) fuel) (checkOnce spelling fuel k anal) :=
  (checks_follow spelling (oneShot_agree spelling k anal) fuel).1

theorem apostrOnce_follows (spelling : Spelling) (fuel k : ℕ) (anal : GkAnalysis) :
    Follows k (checkapostr (spelling.answered emptyDictionary) fuel) (apostrOnce spelling fuel k anal) :=
  (checks_follow spelling (oneShot_agree spelling k anal) fuel).2

/-- After the answer parts that settle keep what is left of it. -/
theorem Lingers.meets {part : Activation → Flow Activation} (h : Lingers k rank act)
    (hpart : ∀ analyses, OnTheWay (Stays k analyses) (fun rval => rval = 0) rank act →
      (part act).Meets (Restored (Stays k analyses) (fun rval => rval = 0) saveword)
        (OnTheWay (Stays k analyses) (fun rval => rval = 0) rank)) :
    (part act).Meets (Lost k) (Lingers k rank) := by
  obtain ⟨analyses, hne, hact⟩ := h
  apply (hpart analyses hact).mono
  · intro state hstate
    exact lost_of_zero hne hstate.2.1 hstate.2.2
  · intro state hstate
    exact ⟨analyses, hne, hstate⟩

/-- A retry that loses count and returns a result at once. -/
theorem Retry.run_loses {retry : Retry} {found : ℕ × SpellWord} (hreturns : retry.returns = true)
    (hanalyses : act.gkword.analyses = [])
    (hfound : self (act.gkword.setWorkword retry.spelling) = some found)
    (hrank : spellingRank found.2.workword ≤ rank) (hsave : spellingRank saveword ≤ rank)
    (hlost : Lost k (retry.result act found)) :
    (retry.run saveword self act).Meets (Lost k) (Lingers k rank) := by
  have hword : (retry.result act found).gkword.workword = found.2.workword := by
    unfold Retry.result
    dsimp only
    split_ifs <;> rfl
  obtain ⟨hcount, hlookups⟩ := hlost
  unfold Retry.run
  rw [if_neg fun h => h.2 hanalyses, hfound]
  dsimp only
  by_cases hzero : (retry.result act found).rval = 0
  · have hne : (retry.result act found).gkword.analyses ≠ [] := fun hempty =>
      hcount ⟨fun _ => hempty, fun _ => hzero⟩
    rw [if_neg fun h => h.2 hzero]
    refine ⟨_, hne, ?_⟩
    cases retry.restores with
    | false => exact ⟨hword ▸ hrank, hzero, hlookups, rfl⟩
    | true => exact ⟨(spellingRank_xstrncpy _ _).trans hsave, hzero, hlookups, rfl⟩
  · rw [if_pos ⟨hreturns, hzero⟩]
    exact ⟨hcount, hlookups⟩

theorem Retry.result_lost {retry : Retry} {found : ℕ × SpellWord} (hmask : retry.mask = 0)
    (hrval : act.rval = 0) (hcount : ¬ Tallied found) (hlookups : k < found.2.lookups) :
    Lost k (retry.result act found) := by
  have hzero : ¬ retry.mask ≠ 0 := fun hne => hne hmask
  have hsum : (retry.result act found).rval = found.1 := by
    unfold Retry.result
    rw [hrval, Nat.zero_add]
    split_ifs <;> rfl
  have hsame : (retry.result act found).gkword = found.2 := if_neg hzero
  unfold Lost
  rw [hsum, hsame]
  exact ⟨hcount, hlookups⟩

end Lost

section Places
variable {spelling : Spelling} {fuel : ℕ} {word : Bytes} {tried : List Bytes} {act : Activation}

/-- A function called for a spelling of smaller rank with the word of a record that fits. -/
theorem checkOnce_leaves (hfuel : spellingRank word ≤ fuel) {k : ℕ} {anal : GkAnalysis}
    {gkword : SpellWord} (hrank : spellingRank gkword.workword < spellingRank word)
    {found : ℕ × SpellWord} (hfound : checkOnce spelling fuel k anal gkword = some found) :
    spellingRank found.2.workword ≤ spellingRank word := by
  obtain ⟨last, hlast, hleaves, -⟩ :=
    (checks_settle (keeps_true (spelling.answered (oneShot k anal))) hfuel).2.1 gkword hrank trivial
  have hsame : last = found := Option.some.inj (hlast.symm.trans hfound)
  rw [← hsame]
  exact (spellingRank_le hleaves.isPrefix).trans hrank.le

/-- Retries of which one loses count, after others that find nothing. -/
theorem retries_lose (hfuel : spellingRank word ≤ fuel) {front back : List Retry} {retry : Retry}
    (hretries : ∀ other ∈ front ++ retry :: back,
      spellingRank other.spelling < spellingRank word ∧ (other.mask ≠ 0 → other.whileEmpty = true))
    (hreturns : retry.returns = true) {next : Activation}
    (hfront : Flow.runAll (front.map (Retry.run word
      (checkstring3 (spelling.answered emptyDictionary) fuel))) act = .goes next)
    (hanalyses : next.gkword.analyses = [])
    (hlost : ∃ k anal found, next.gkword.lookups ≤ k ∧
      checkOnce spelling fuel k anal (next.gkword.setWorkword retry.spelling) = some found ∧
        Lost k (retry.result next found)) :
    ∃ k anal, act.gkword.lookups ≤ k ∧ (Flow.runAll ((front ++ retry :: back).map
      (Retry.run word (checkOnce spelling fuel k anal))) act).Meets (Lost k)
        (Lingers k (spellingRank word)) := by
  obtain ⟨k, anal, found, hk, hfound, hlost⟩ := hlost
  have hfollows : ∀ other : Retry, FollowsPart k
      (other.run word (checkstring3 (spelling.answered emptyDictionary) fuel))
      (other.run word (checkOnce spelling fuel k anal)) :=
    retry_follows (checkOnce_follows spelling fuel k anal)
  obtain ⟨hgrows, hsame⟩ := runAll_follows (forall₂_map hfollows) act next (by rw [hfront]; rfl)
  have hentered : spellingRank (next.gkword.setWorkword retry.spelling).workword <
      spellingRank word :=
    (spellingRank_xstrncpy _ _).trans_lt (hretries retry (by simp)).1
  have hrank := checkOnce_leaves hfuel hentered hfound
  refine ⟨k, anal, hgrows.trans hk, ?_⟩
  rw [List.map_append, Flow.runAll_append, hsame hk, hfront, Flow.goes_andThen, List.map_cons,
    Flow.runAll]
  apply (Retry.run_loses hreturns hanalyses hfound hrank (Nat.le_refl _) hlost).andThen
  intro state hstate
  apply Flow.runAll_meets _ hstate
  intro part hpart state hstate
  obtain ⟨other, hother, rfl⟩ := List.mem_map.mp hpart
  obtain ⟨hless, hmask⟩ := hretries other (by simp [hother])
  apply hstate.meets
  intro analyses hact
  exact Retry.run_settles (keeps_oneShot spelling k anal analyses)
    (checks_settle (keeps_oneShot spelling k anal analyses) hfuel).2.1 (Nat.le_refl _) hact hless
    hmask

/-- Two retries whose results are added, of which the first loses count. -/
theorem pair_loses (hfuel : spellingRank word ≤ fuel) {s t : Bytes}
    (ht : spellingRank t < spellingRank word)
    (hrval : act.rval = 0)
    (hlost : Loses (checkOnce spelling fuel) (act.gkword.setWorkword s)) :
    ∃ k anal, act.gkword.lookups ≤ k ∧ (Flow.runAll (([{ spelling := s, adds := true, returns := false },
      { spelling := t, adds := true }] : List Retry).map
        (Retry.run word (checkOnce spelling fuel k anal))) act).Meets (Lost k)
          (Lingers k (spellingRank word)) := by
  obtain ⟨k, anal, first, hk, hfirst, hcount, hlookups⟩ := hlost
  have hentered : spellingRank (first.2.setWorkword t).workword < spellingRank word :=
    (spellingRank_xstrncpy _ _).trans_lt ht
  obtain ⟨second, hsecond, hleaves, hzero, hremains⟩ :=
    (checks_settle (keeps_oneShot spelling k anal first.2.analyses) hfuel).2.1
      (first.2.setWorkword t) hentered ⟨hlookups, rfl⟩
  refine ⟨k, anal, hk, ?_⟩
  rw [runPair_found word act s t hfirst hsecond, hrval, hzero, Nat.zero_add, Nat.add_zero]
  by_cases hnone : first.1 = 0
  · have hne : first.2.analyses ≠ [] := fun hempty => hcount ⟨fun _ => hempty, fun _ => hnone⟩
    rw [if_pos hnone]
    exact ⟨_, hne, (spellingRank_le hleaves.isPrefix).trans hentered.le, hnone, hremains⟩
  · have hempty : first.2.analyses = [] := by
      by_contra hne
      exact hcount ⟨fun h => absurd h hnone, fun h => absurd h hne⟩
    rw [if_neg hnone]
    refine ⟨fun hiff => hnone (hiff.mpr ?_), hremains.1⟩
    exact hremains.2.trans hempty

/-- A place that tries a spelling for which count is lost, while nothing is found. -/
theorem place_loses (hfuel : spellingRank word ≤ fuel) {plan : Plan}
    (hregular : plan.Regular) (hplan : plan ∈ plans spelling word)
    (hact : Fruitless word tried act) (hrank : spellingRank (tried.getLastD word) ≤ spellingRank word)
    (hmute : ∀ s ∈ plan.spellings (tried.getLastD word),
      Mute (checkstring3 (spelling.answered emptyDictionary) fuel) s) {s : Bytes}
    (hs : s ∈ plan.spellings (tried.getLastD word))
    (hloses : ∀ g : SpellWord, g.workword = s → g.analyses = [] → Loses (checkOnce spelling fuel) g) :
    ∃ k anal, act.gkword.lookups ≤ k ∧ (plan.run word (checkOnce spelling fuel k anal) act).Meets
      (Lost k) (Lingers k (spellingRank word)) := by
  have hbelow := plans_below spelling word hplan (Nat.le_refl _) (tried.getLastD word) true hrank
  have hmask : ∀ retry ∈ plan (tried.getLastD word) true, retry.mask ≠ 0 → retry.whileEmpty = true :=
    fun retry hretry => plans_mask hplan hretry
  have hspelled : ∀ next : Activation, next.gkword.analyses = [] →
      Loses (checkOnce spelling fuel) (next.gkword.setWorkword s) := fun next hanalyses =>
    hloses _ (xstrncpy_of_lt (hmute s hs).1) hanalyses
  have hrun : ∀ k anal, plan.run word (checkOnce spelling fuel k anal) act =
      Flow.runAll ((plan (tried.getLastD word) true).map
        (Retry.run word (checkOnce spelling fuel k anal))) act := by
    intro k anal
    unfold Plan.run
    rw [hact.2.2, hact.2.1]
    rfl
  simp only [hrun]
  unfold Plan.spellings at hmute hs
  -- the retries before the one for the spelling find nothing
  have hone : ∀ front retry back, plan (tried.getLastD word) true = front ++ retry :: back →
      retry.spelling = s → retry.returns = true → retry.mask = 0 →
        ∃ k anal, act.gkword.lookups ≤ k ∧ (Flow.runAll ((front ++ retry :: back).map
          (Retry.run word (checkOnce spelling fuel k anal))) act).Meets (Lost k)
            (Lingers k (spellingRank word)) := by
    intro front retry back hsplit hspelling hreturns hzero
    rw [hsplit] at hbelow hmask hmute
    have hrestores := hregular.restores (tried.getLastD word) true
    rw [hsplit] at hrestores
    have hfront : ∀ t ∈ front.map Retry.spelling,
        Mute (checkstring3 (spelling.answered emptyDictionary) fuel) t := by
      intro t ht
      rw [List.map_append] at hmute
      exact hmute t (List.mem_append_left _ ht)
    obtain ⟨next, hnext, hrval, hanalyses, -⟩ := retries_mute word
      (fun other hother => hrestores other (List.mem_append_left _ hother)) hfront hact
    apply retries_lose hfuel (fun other hother => ⟨hbelow other hother, hmask other hother⟩)
      hreturns hnext hanalyses
    obtain ⟨k, anal, found, hk, hfound, hcount, hlookups⟩ := hspelled next hanalyses
    rw [hspelling]
    exact ⟨k, anal, found, hk, hfound, Retry.result_lost hzero hrval hcount hlookups⟩
  rcases hregular (tried.getLastD word) true with hplain | ⟨s', t, hpair⟩
  · obtain ⟨retry, hretry, hspelling⟩ := List.mem_map.mp hs
    obtain ⟨hreturns, hzero, -⟩ := hplain retry hretry
    obtain ⟨front, back, hsplit⟩ := List.append_of_mem hretry
    rw [hsplit]
    exact hone front retry back hsplit hspelling hreturns hzero
  · rw [hpair] at hs hbelow
    rw [hpair]
    simp only [List.map_cons, List.map_nil, List.mem_cons, List.not_mem_nil, or_false] at hs
    rcases hs with rfl | rfl
    · exact pair_loses hfuel (hbelow _ (List.mem_cons_of_mem _ List.mem_cons_self)) hact.1
        (hspelled act hact.2.1)
    · exact hone [{ spelling := s', adds := true, returns := false }] _ [] hpair rfl rfl rfl

/-- An enclitic behind which count is lost, while nothing is found. -/
theorem enclitic_loses (hfuel : spellingRank word ≤ fuel) (hlength : word.length < maxWordSize)
    (hact : Fruitless word [] act)
    (hmute : ∀ s ∈ encliticStems spelling word,
      Mute (checkstring3 (spelling.answered emptyDictionary) fuel) s) {retry : Retry}
    (hretry : retry ∈ enclitics spelling word true)
    (hlost : ∀ next : Activation, next.rval = 0 → next.gkword.analyses = [] →
      ∃ k anal found, next.gkword.lookups ≤ k ∧
        checkOnce spelling fuel k anal (next.gkword.setWorkword retry.spelling) = some found ∧
          Lost k (retry.result next found)) :
    ∃ k anal, act.gkword.lookups ≤ k ∧
      ((enclitics spelling).run word (checkOnce spelling fuel k anal) act).Meets (Lost k)
        (Lingers k (spellingRank word)) := by
  have hplan : enclitics spelling ∈ plans spelling word := by simp [plans]
  have hbelow := plans_below spelling word hplan (Nat.le_refl _) word true (Nat.le_refl _)
  have hmask : ∀ other ∈ enclitics spelling word true, other.mask ≠ 0 → other.whileEmpty = true :=
    fun other hother => plans_mask hplan hother
  have hrestores : ∀ other ∈ enclitics spelling word true, other.restores = true :=
    fun other hother => (enclitics_restores hother).2
  have hreturns := (enclitics_restores hretry).1
  have hrun : ∀ k anal, (enclitics spelling).run word (checkOnce spelling fuel k anal) act =
      Flow.runAll ((enclitics spelling word true).map
        (Retry.run word (checkOnce spelling fuel k anal))) act := by
    intro k anal
    unfold Plan.run
    rw [hact.2.2, hact.2.1]
    rfl
  simp only [hrun]
  unfold encliticStems Plan.spellings at hmute
  obtain ⟨front, back, hsplit⟩ := List.append_of_mem hretry
  rw [hsplit] at hbelow hmask hrestores hmute ⊢
  have hfront : ∀ s ∈ front.map Retry.spelling,
      Mute (checkstring3 (spelling.answered emptyDictionary) fuel) s := by
    intro s hs
    rw [List.map_append] at hmute
    exact hmute s (List.mem_append_left _ hs)
  obtain ⟨next, hnext, hrval, hanalyses, -⟩ := enclitics_mute hlength
    (fun other hother => hrestores other (List.mem_append_left _ hother)) hfront hact
  exact retries_lose hfuel (fun other hother => ⟨hbelow other hother, hmask other hother⟩)
    hreturns hnext hanalyses (hlost next hrval hanalyses)

end Places

end Morpheus
