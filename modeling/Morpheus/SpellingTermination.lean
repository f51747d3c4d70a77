import Morpheus.SpellingRank

/-!
# Termination of the spelling retries

The retries come to an end because each has a word of a smaller rank. What every lookup keeps of
the record is kept on the way, and so is what is known of the return values.
-/
namespace Morpheus

/-- What the lookups keep of the record, and what is known of what they return. -/
structure Keeps (spelling : Spelling) (Invariant : SpellWord → Prop) (Answer : ℕ → Prop) :
    Prop where
  workword : ∀ gkword s, Invariant gkword → Invariant { gkword with workword := s }
  morphflags : ∀ gkword flags, Invariant gkword → Invariant { gkword with morphflags := flags }
  ask : ∀ lookup ∈ [spelling.checkword, spelling.checkindecl, spelling.checknom],
    ∀ gkword, Invariant gkword →
      Answer (gkword.ask lookup).1 ∧ Invariant (gkword.ask lookup).2
  filter : ∀ gkword, Invariant gkword → gkword.analyses = [] → ∀ found, Invariant found →
    ∀ kept : GkAnalysis → Bool,
      Invariant { found with analyses := found.analyses.filter kept }
  zero : Answer 0
  add : ∀ a b, Answer a → Answer b → Answer (a + b)

theorem keeps_true (spelling : Spelling) : Keeps spelling (fun _ => True) fun _ => True :=
  ⟨fun _ _ h => h, fun _ _ h => h, fun _ _ _ _ => ⟨trivial, trivial⟩,
    fun _ _ _ _ h _ => h, trivial, fun _ _ _ _ => trivial⟩

/-- The record is kept whatever is known of the return values. -/
theorem Keeps.anyAnswer {spelling : Spelling} {Invariant : SpellWord → Prop} {Answer : ℕ → Prop}
    (h : Keeps spelling Invariant Answer) : Keeps spelling Invariant fun _ => True :=
  ⟨h.workword, h.morphflags, fun lookup hlookup gkword hgkword =>
    ⟨trivial, (h.ask lookup hlookup gkword hgkword).2⟩, h.filter, trivial, fun _ _ _ _ => trivial⟩

/-- The word of a record, in a buffer. -/
def LeavesWord (gkword found : SpellWord) : Prop :=
  found.workword = gkword.workword ∨ found.workword = xstrncpy gkword.workword maxWordSize

theorem LeavesWord.isPrefix {gkword found : SpellWord} (h : LeavesWord gkword found) :
    found.workword <+: gkword.workword := by
  rcases h with h | h
  · rw [h]
  · rw [h]
    exact List.take_prefix _ _

theorem LeavesWord.eq {gkword found : SpellWord} (h : LeavesWord gkword found)
    (hlength : gkword.workword.length < maxWordSize) : found.workword = gkword.workword := by
  rcases h with h | h
  · exact h
  · rw [h, xstrncpy_of_lt hlength]

theorem xstrncpy_xstrncpy (s : Bytes) (len : ℕ) : xstrncpy (xstrncpy s len) len = xstrncpy s len := by
  unfold xstrncpy
  rw [List.take_take, Nat.min_self]

/-- A check that comes back, with the word, and with what the lookups keep. -/
def Settles (Invariant : SpellWord → Prop) (Answer : ℕ → Prop) (check : Check)
    (gkword : SpellWord) : Prop :=
  ∃ found, check gkword = some found ∧ LeavesWord gkword found.2 ∧ Answer found.1 ∧
    Invariant found.2

section Settling
variable {spelling : Spelling} {Invariant : SpellWord → Prop} {Answer : ℕ → Prop}
  {saveword : Bytes} {rank : ℕ}

/-- An activation on its way. -/
def OnTheWay (Invariant : SpellWord → Prop) (Answer : ℕ → Prop) (rank : ℕ) (act : Activation) :
    Prop :=
  spellingRank act.gkword.workword ≤ rank ∧ Answer act.rval ∧ Invariant act.gkword

/-- An activation that has the entered spelling back. -/
def Restored (Invariant : SpellWord → Prop) (Answer : ℕ → Prop) (saveword : Bytes)
    (act : Activation) : Prop :=
  act.gkword.workword = xstrncpy saveword maxWordSize ∧ Answer act.rval ∧ Invariant act.gkword

theorem OnTheWay.restore (hkeeps : Keeps spelling Invariant Answer) {act : Activation}
    (hanswer : Answer act.rval) (hact : Invariant act.gkword) :
    Restored Invariant Answer saveword (act.restore saveword) :=
  ⟨rfl, hanswer, hkeeps.workword _ _ hact⟩

theorem Restored.onTheWay (hsave : spellingRank saveword ≤ rank) {act : Activation}
    (h : Restored Invariant Answer saveword act) : OnTheWay Invariant Answer rank act := by
  obtain ⟨hword, hrest⟩ := h
  refine ⟨?_, hrest⟩
  rw [hword]
  exact (spellingRank_xstrncpy _ _).trans hsave

theorem plans_mask {plan : Plan} (h : plan ∈ plans spelling saveword) {word : Bytes} {empty : Bool}
    {retry : Retry} (hretry : retry ∈ plan word empty) (hmask : retry.mask ≠ 0) :
    retry.whileEmpty = true := by
  have hplain : ∀ s : Bytes, ({ spelling := s } : Retry).mask = 0 := fun _ => rfl
  simp only [plans, List.mem_cons, List.not_mem_nil, or_false] at h
  rcases h with rfl | rfl | rfl | rfl | rfl | rfl | rfl | rfl | rfl
  · obtain ⟨enclitic, -, hfound⟩ := List.mem_filterMap.mp hretry
    obtain ⟨stem, -, rfl⟩ := Option.map_eq_some_iff.mp hfound
    rfl
  · unfold prodelision at hretry
    split_ifs at hretry <;> simp_all
  · unfold ustRetry at hretry
    split_ifs at hretry <;> simp_all
  · unfold istRetry at hretry
    split_ifs at hretry <;> simp_all
    rcases hretry with rfl | rfl <;> exact absurd rfl hmask
  · unfold finalN at hretry
    split_ifs at hretry <;> simp_all
    rcases hretry with rfl | rfl <;> exact absurd rfl hmask
  · unfold uRetry at hretry
    split_ifs at hretry <;> simp_all
  · unfold italianU at hretry
    split_ifs at hretry <;> simp_all
  · unfold jRetry at hretry
    split_ifs at hretry
    · obtain ⟨s, -, rfl⟩ := List.mem_map.mp hretry
      exact absurd rfl hmask
    · cases hretry
  · unfold exRetry at hretry
    split_ifs at hretry
    · obtain ⟨s, -, rfl⟩ := List.mem_map.mp hretry
      exact absurd rfl hmask
    · cases hretry

theorem Retry.run_settles (hkeeps : Keeps spelling Invariant Answer) {self : Check}
    {retry : Retry} {act : Activation}
    (hself : ∀ gkword, spellingRank gkword.workword < rank → Invariant gkword →
      Settles Invariant Answer self gkword)
    (hsave : spellingRank saveword ≤ rank) (hact : OnTheWay Invariant Answer rank act)
    (hretry : spellingRank retry.spelling < rank)
    (hmask : retry.mask ≠ 0 → retry.whileEmpty = true) :
    (retry.run saveword self act).Meets (Restored Invariant Answer saveword)
      (OnTheWay Invariant Answer rank) := by
  obtain ⟨hrank, hanswer, hinvariant⟩ := hact
  unfold Retry.run
  by_cases hskip : retry.whileEmpty = true ∧ act.gkword.analyses ≠ []
  · rw [if_pos hskip]
    exact ⟨hrank, hanswer, hinvariant⟩
  · rw [if_neg hskip]
    have hentered : spellingRank (act.gkword.setWorkword retry.spelling).workword < rank :=
      (spellingRank_xstrncpy _ _).trans_lt hretry
    obtain ⟨found, hfound, hword, hanswer', hinvariant'⟩ :=
      hself _ hentered (hkeeps.workword _ _ hinvariant)
    have hleft : OnTheWay Invariant Answer rank (retry.result act found) := by
      have hfoundrank := (spellingRank_le hword.isPrefix).trans hentered.le
      unfold OnTheWay Retry.result
      dsimp only
      refine ⟨?_, ?_, ?_⟩
      · split_ifs <;> exact hfoundrank
      · split_ifs
        · exact hkeeps.add _ _ hanswer hanswer'
        · exact hanswer'
      · by_cases hzero : retry.mask ≠ 0
        · rw [if_pos hzero]
          have hempty : act.gkword.analyses = [] := by
            by_contra hne
            exact hskip ⟨hmask hzero, hne⟩
          exact hkeeps.filter _ hinvariant hempty _ hinvariant' _
        · rw [if_neg hzero]
          exact hinvariant'
    have hrestored : Restored Invariant Answer saveword
        ((retry.result act found).restore saveword) :=
      OnTheWay.restore hkeeps hleft.2.1 hleft.2.2
    rw [hfound]
    dsimp only
    by_cases hreturns : retry.returns = true ∧ (retry.result act found).rval ≠ 0
    · rw [if_pos hreturns]
      exact hrestored
    · rw [if_neg hreturns]
      cases retry.restores with
      | false => exact hleft
      | true => exact hrestored.onTheWay hsave

theorem Plan.run_settles (hkeeps : Keeps spelling Invariant Answer) {self : Check} {plan : Plan}
    {act : Activation}
    (hself : ∀ gkword, spellingRank gkword.workword < rank → Invariant gkword →
      Settles Invariant Answer self gkword)
    (hsave : spellingRank saveword ≤ rank) (hplan : plan ∈ plans spelling saveword)
    (hact : OnTheWay Invariant Answer rank act) :
    (plan.run saveword self act).Meets (Restored Invariant Answer saveword)
      (OnTheWay Invariant Answer rank) := by
  apply Flow.runAll_meets _ hact
  intro part hpart state hstate
  obtain ⟨retry, hretry, rfl⟩ := List.mem_map.mp hpart
  exact Retry.run_settles hkeeps hself hsave hstate
    (plans_below _ _ hplan hsave _ _ hact.1 retry hretry) (plans_mask hplan hretry)

theorem apostrophe_settles (hkeeps : Keeps spelling Invariant Answer) {apostr : Check}
    {act : Activation}
    (hapostr : ∀ gkword, spellingRank gkword.workword ≤ rank → Invariant gkword →
      Settles Invariant Answer apostr gkword)
    (hact : OnTheWay Invariant Answer rank act) :
    (apostrophe saveword apostr act).Meets (Restored Invariant Answer saveword)
      (OnTheWay Invariant Answer rank) := by
  obtain ⟨hrank, hanswer, hinvariant⟩ := hact
  unfold apostrophe
  by_cases hlast : act.gkword.workword.getLast? = some 39
  · obtain ⟨found, hfound, hword, hanswer', hinvariant'⟩ := hapostr _ hrank hinvariant
    have hadd := hkeeps.add _ _ hanswer hanswer'
    rw [if_pos hlast, hfound]
    dsimp only
    by_cases hrval : act.rval + found.1 ≠ 0
    · rw [if_pos hrval]
      exact OnTheWay.restore hkeeps hadd hinvariant'
    · rw [if_neg hrval]
      exact ⟨(spellingRank_le hword.isPrefix).trans hrank, hadd, hinvariant'⟩
  · rw [if_neg hlast]
    exact ⟨hrank, hanswer, hinvariant⟩

/-- An activation in which other capitals are tried. -/
def Short (Invariant : SpellWord → Prop) (Answer : ℕ → Prop) (length : ℕ) (act : Activation) :
    Prop :=
  act.gkword.workword.length ≤ length ∧ Answer act.rval ∧ Invariant act.gkword

theorem tryVariant_settles (hkeeps : Keeps spelling Invariant Answer) {check4 : Check}
    {variant : Bytes → Bytes} {length : ℕ}
    (hcheck4 : ∀ gkword : SpellWord, gkword.workword.length ≤ length → Invariant gkword →
      Settles Invariant Answer check4 gkword)
    (hvariant : ∀ word, (variant word).length ≤ word.length) {act : Activation}
    (hlength : act.gkword.workword.length ≤ length) (hinvariant : Invariant act.gkword) :
    (tryVariant saveword check4 variant act).Meets (Restored Invariant Answer saveword)
      (Short Invariant Answer length) := by
  have hentered : (variant act.gkword.workword).length ≤ length := (hvariant _).trans hlength
  obtain ⟨found, hfound, hword, hanswer, hinvariant'⟩ :=
    hcheck4 { act.gkword with workword := variant act.gkword.workword } hentered
      (hkeeps.workword _ _ hinvariant)
  unfold tryVariant
  rw [hfound]
  dsimp only
  by_cases hrval : found.1 > 0
  · rw [if_pos hrval]
    exact OnTheWay.restore hkeeps hanswer hinvariant'
  · rw [if_neg hrval]
    exact ⟨hword.isPrefix.length_le.trans hentered, hanswer, hinvariant'⟩

/-- The return value of other capitals replaces the one of the entered word. -/
theorem capitals_reset (hkeeps : Keeps spelling Invariant Answer) {check4 : Check} {length : ℕ}
    (hcheck4 : ∀ gkword : SpellWord, gkword.workword.length ≤ length → Invariant gkword →
      Settles Invariant Answer check4 gkword)
    (hsave : spellingRank saveword ≤ rank) {act : Activation}
    (hcapital : (isUpper (act.gkword.workword.headD 0) = true ∨
      act.gkword.workword.headD 0 = 42) ∧ spelling.strictCase = false)
    (hlength : act.gkword.workword.length ≤ length) (hinvariant : Invariant act.gkword) :
    (capitals spelling saveword check4 act).Meets (Restored Invariant Answer saveword)
      (OnTheWay Invariant Answer rank) := by
  unfold capitals
  dsimp only
  rw [if_pos hcapital, Flow.runAll_append]
  have htries : (Flow.runAll ([tryVariant saveword check4 (lowerFirst spelling.language)] ++
      (if spelling.language ≠ greek then
        [tryVariant saveword check4 lowerAll, tryVariant saveword check4 upperFirst]
        else [])) act).Meets (Restored Invariant Answer saveword)
        (Short Invariant Answer length) := by
    rw [List.cons_append, Flow.runAll]
    apply (tryVariant_settles hkeeps hcheck4 (lowerFirst_length _) hlength hinvariant).andThen
    intro next hnext
    apply Flow.runAll_meets _ hnext
    intro part hpart state hstate
    rw [List.nil_append] at hpart
    split_ifs at hpart with hgreek
    · rcases List.mem_cons.mp hpart with rfl | hpart
      · exact tryVariant_settles hkeeps hcheck4 lowerAll_length hstate.1 hstate.2.2
      · rw [List.mem_singleton.mp hpart]
        exact tryVariant_settles hkeeps hcheck4 upperFirst_length hstate.1 hstate.2.2
    · cases hpart
  apply htries.andThen
  intro state hstate
  have hrestored : Restored Invariant Answer saveword (state.restore saveword) :=
    OnTheWay.restore hkeeps hstate.2.1 hstate.2.2
  exact hrestored.onTheWay hsave

theorem capitals_settles (hkeeps : Keeps spelling Invariant Answer) {check4 : Check} {length : ℕ}
    (hcheck4 : ∀ gkword : SpellWord, gkword.workword.length ≤ length → Invariant gkword →
      Settles Invariant Answer check4 gkword)
    (hsave : spellingRank saveword ≤ rank) {act : Activation}
    (hlength : act.gkword.workword.length ≤ length) (hact : OnTheWay Invariant Answer rank act) :
    (capitals spelling saveword check4 act).Meets (Restored Invariant Answer saveword)
      (OnTheWay Invariant Answer rank) := by
  by_cases hcapital : (isUpper (act.gkword.workword.headD 0) = true ∨
      act.gkword.workword.headD 0 = 42) ∧ spelling.strictCase = false
  · exact capitals_reset hkeeps hcheck4 hsave hcapital hlength hact.2.2
  · unfold capitals
    dsimp only
    rw [if_neg hcapital]
    exact hact

/-- The places of an activation. -/
theorem places_settle (hkeeps : Keeps spelling Invariant Answer) {self : Check}
    (hself : ∀ gkword, spellingRank gkword.workword < rank → Invariant gkword →
      Settles Invariant Answer self gkword)
    (hsave : spellingRank saveword ≤ rank) {places : List Plan}
    (hplaces : places ⊆ plans spelling saveword) {act : Activation}
    (hact : OnTheWay Invariant Answer rank act) :
    (Flow.runAll (places.map (Plan.run saveword self)) act).Meets
      (Restored Invariant Answer saveword) (OnTheWay Invariant Answer rank) := by
  apply Flow.runAll_meets _ hact
  intro part hpart state hstate
  obtain ⟨plan, hplan, rfl⟩ := List.mem_map.mp hpart
  exact Plan.run_settles hkeeps hself hsave (hplaces hplan) hstate

/-- The parts of an activation behind its first try. -/
theorem parts_settle (hkeeps : Keeps spelling Invariant Answer) {check4 self apostr : Check}
    {length : ℕ}
    (hcheck4 : ∀ g : SpellWord, g.workword.length ≤ length → Invariant g →
      Settles Invariant Answer check4 g)
    (hself : ∀ g, spellingRank g.workword < rank → Invariant g →
      Settles Invariant Answer self g)
    (hapostr : ∀ g, spellingRank g.workword ≤ rank → Invariant g →
      Settles Invariant Answer apostr g)
    (hsave : spellingRank saveword ≤ rank) {act : Activation}
    (hlength : act.gkword.workword.length ≤ length) (hact : OnTheWay Invariant Answer rank act) :
    (Flow.runAll ([capitals spelling saveword check4, apostrophe saveword apostr] ++
      (plans spelling saveword).map (Plan.run saveword self)) act).Meets
        (Restored Invariant Answer saveword) (OnTheWay Invariant Answer rank) := by
  simp only [List.cons_append, List.nil_append, Flow.runAll]
  apply (capitals_settles hkeeps hcheck4 hsave hlength hact).andThen
  intro act hact
  apply (apostrophe_settles hkeeps hapostr hact).andThen
  intro act hact
  exact places_settle hkeeps hself hsave (List.Subset.refl _) hact

/-- An activation comes to an end when what it calls does. -/
theorem activation_settles (hkeeps : Keeps spelling Invariant Answer)
    {check4 self apostr : Check} {gkword : SpellWord}
    (hcheck4 : ∀ g : SpellWord, g.workword.length ≤ gkword.workword.length → Invariant g →
      Settles Invariant Answer check4 g)
    (hself : ∀ g, spellingRank g.workword < spellingRank gkword.workword → Invariant g →
      Settles Invariant Answer self g)
    (hapostr : ∀ g, spellingRank g.workword ≤ spellingRank gkword.workword → Invariant g →
      Settles Invariant Answer apostr g) (hinvariant : Invariant gkword) :
    (activation spelling check4 self apostr gkword).Meets
      (Restored Invariant Answer (xstrncpy gkword.workword maxWordSize))
      (Restored Invariant Answer (xstrncpy gkword.workword maxWordSize)) := by
  have hsave := spellingRank_xstrncpy gkword.workword maxWordSize
  obtain ⟨found, hfound, hword, hanswer, hinvariant'⟩ := hcheck4 gkword (Nat.le_refl _) hinvariant
  have hact : OnTheWay Invariant Answer (spellingRank gkword.workword) ⟨found.1, found.2, []⟩ :=
    ⟨spellingRank_le hword.isPrefix, hanswer, hinvariant'⟩
  unfold activation firstTry
  rw [hfound]
  dsimp only [Flow.goes_andThen]
  rw [Flow.runAll_append]
  apply (parts_settle hkeeps hcheck4 hself hapostr hsave hword.isPrefix.length_le hact).andThen
  intro act hact
  exact OnTheWay.restore hkeeps hact.2.1 hact.2.2

theorem checkCun_settles (hkeeps : Keeps spelling Invariant Answer) {gkword : SpellWord}
    (hinvariant : Invariant gkword) :
    LeavesWord gkword (checkCun spelling (xstrncpy gkword.workword maxWordSize) gkword).2 ∧
      Answer (checkCun spelling (xstrncpy gkword.workword maxWordSize) gkword).1 ∧
      Invariant (checkCun spelling (xstrncpy gkword.workword maxWordSize) gkword).2 := by
  unfold checkCun
  cases hasCun (xstrncpy gkword.workword maxWordSize) with
  | none => exact ⟨.inl rfl, hkeeps.zero, hinvariant⟩
  | some workword =>
    obtain ⟨hindecl, hinvariant1⟩ := hkeeps.ask spelling.checkindecl (by simp)
      (gkword.setWorkword workword) (hkeeps.workword _ _ hinvariant)
    obtain ⟨hnom, hinvariant2⟩ := hkeeps.ask spelling.checknom (by simp) _ hinvariant1
    exact ⟨.inr (xstrncpy_xstrncpy _ _), hkeeps.add _ _ hindecl hnom,
      hkeeps.workword _ _ hinvariant2⟩

/-- `checkstring4` comes to an end: the letters `t` get fewer. -/
theorem checkstring4_settles (hkeeps : Keeps spelling Invariant Answer) (fuel : ℕ)
    {gkword : SpellWord} (h : gkword.workword.count 116 < fuel) (hinvariant : Invariant gkword) :
    Settles Invariant Answer (checkstring4 spelling fuel) gkword := by
  induction fuel generalizing gkword with
  | zero => omega
  | succ fuel ih =>
    obtain ⟨hanswer, hinvariant1⟩ := hkeeps.ask spelling.checkword (by simp) gkword hinvariant
    unfold Settles checkstring4
    by_cases hfirst : (gkword.ask spelling.checkword).1 > 0
    · rw [if_pos hfirst]
      exact ⟨_, rfl, .inl rfl, hanswer, hinvariant1⟩
    · rw [if_neg hfirst]
      dsimp only
      by_cases hgreek : spelling.language ≠ greek
      · rw [if_pos hgreek]
        exact ⟨_, rfl, .inl rfl, hkeeps.zero, hinvariant1⟩
      · obtain ⟨hword, hanswer2, hinvariant2⟩ := checkCun_settles hkeeps hinvariant1
        have hsame : (gkword.ask spelling.checkword).2.workword = gkword.workword := rfl
        rw [hsame] at hword hanswer2 hinvariant2 ⊢
        rw [if_neg hgreek]
        by_cases hfound : (checkCun spelling (xstrncpy gkword.workword maxWordSize)
            (gkword.ask spelling.checkword).2).1 > 0
        · exact ⟨_, if_pos hfound, hword, hanswer2, hinvariant2⟩
        · rw [if_neg hfound]
          cases htt : hasTt (xstrncpy gkword.workword maxWordSize) with
          | none => exact ⟨_, rfl, hword, hkeeps.zero, hinvariant2⟩
          | some workword =>
            have hless := hasTt_count htt
            have hsave : (xstrncpy gkword.workword maxWordSize).count 116 ≤
                gkword.workword.count 116 := (List.take_sublist _ _).count_le 116
            have hshort : (xstrncpy workword maxWordSize).count 116 ≤ workword.count 116 :=
              (List.take_sublist _ _).count_le 116
            have hentered : ((checkCun spelling (xstrncpy gkword.workword maxWordSize)
                (gkword.ask spelling.checkword).2).2.setWorkword workword).workword.count 116 <
                fuel := hshort.trans_lt (by omega)
            obtain ⟨found, hrec, -, hanswer3, hinvariant3⟩ :=
              ih hentered (hkeeps.workword _ _ hinvariant2)
            dsimp only
            rw [hrec]
            exact ⟨_, rfl, .inr (xstrncpy_xstrncpy _ _), hanswer3,
              hkeeps.workword _ _ hinvariant3⟩

/-- A check that comes back from a spelling of a smaller rank, with what the lookups keep. -/
def ComesBack (Invariant : SpellWord → Prop) (Answer : ℕ → Prop) (check : Check)
    (gkword : SpellWord) : Prop :=
  ∃ found, check gkword = some found ∧ Answer found.1 ∧ Invariant found.2

theorem Settles.comesBack {check : Check} {gkword : SpellWord}
    (h : Settles Invariant Answer check gkword) : ComesBack Invariant Answer check gkword := by
  obtain ⟨found, hfound, -, hrest⟩ := h
  exact ⟨found, hfound, hrest⟩

/-- The state between the calls of `checkapostr`. -/
def Gathered (Invariant : SpellWord → Prop) (Answer : ℕ → Prop) (gkword : SpellWord)
    (state : ℕ × SpellWord) : Prop :=
  LeavesWord gkword state.2 ∧ Answer state.1 ∧ Invariant state.2

theorem accumulate_settles (hkeeps : Keeps spelling Invariant Answer) {check : Check}
    {enter leave : SpellWord → SpellWord} {gkword : SpellWord} {state : ℕ × SpellWord}
    (hstate : Gathered Invariant Answer gkword state)
    (hcheck : ComesBack Invariant Answer check (enter state.2))
    (hleave : ∀ g, Invariant g → LeavesWord gkword (leave g) ∧ Invariant (leave g)) :
    ∃ next, accumulate check enter leave state = some next ∧
      Gathered Invariant Answer gkword next := by
  obtain ⟨-, hanswer, -⟩ := hstate
  obtain ⟨found, hfound, hanswer', hinvariant'⟩ := hcheck
  obtain ⟨hword, hinvariant⟩ := hleave found.2 hinvariant'
  refine ⟨(state.1 + found.1, leave found.2), ?_, hword, hkeeps.add _ _ hanswer hanswer',
    hinvariant⟩
  unfold accumulate
  rw [hfound]
  rfl

theorem tryVowel_settles (hkeeps : Keeps spelling Invariant Answer) {self : Check}
    {gkword : SpellWord} {state : ℕ × SpellWord} {vow : Bytes × Bool}
    (hstate : Gathered Invariant Answer gkword state)
    (hself : ∀ g : SpellWord, g.workword = addApostrvowel state.2.workword vow.1 → Invariant g →
      ComesBack Invariant Answer self g) :
    ∃ next, tryVowel self (xstrncpy gkword.workword maxWordSize) state vow = some next ∧
      Gathered Invariant Answer gkword next := by
  have hcall := hself
    { state.2 with
      workword := addApostrvowel state.2.workword vow.1
      morphflags := if vow.2 then addMorphflag state.2.morphflags poetic else state.2.morphflags }
    rfl (hkeeps.morphflags _ _ (hkeeps.workword _ _ hstate.2.2))
  unfold tryVowel
  apply accumulate_settles hkeeps hstate hcall
  intro g hg
  exact ⟨.inr (xstrncpy_xstrncpy _ _), hkeeps.morphflags _ _ (hkeeps.workword _ _ hg)⟩

/-- `checkapostr` comes to an end when what it calls does. -/
theorem elision_settles (hkeeps : Keeps spelling Invariant Answer) {self apostr : Check}
    {gkword : SpellWord}
    (hself : ∀ g, spellingRank g.workword + 20 ≤ elisionRank gkword.workword → Invariant g →
      ComesBack Invariant Answer self g)
    (hapostr : ∀ g, elisionRank g.workword + elisionMarks g.workword <
      elisionRank gkword.workword + elisionMarks gkword.workword → Invariant g →
        ComesBack Invariant Answer apostr g) (hinvariant : Invariant gkword) :
    Settles Invariant Answer (elision self apostr) gkword := by
  unfold Settles elision
  by_cases hlast : gkword.workword.getLast? = some 39
  · rw [if_pos hlast]
    dsimp only
    have hsaved : xstrncpy gkword.workword maxWordSize <+: gkword.workword := List.take_prefix _ _
    have hzero : Gathered Invariant Answer gkword (0, gkword) :=
      ⟨.inl rfl, hkeeps.zero, hinvariant⟩
    have hleave : ∀ g, Invariant g →
        LeavesWord gkword (g.setWorkword (xstrncpy gkword.workword maxWordSize)) ∧
          Invariant (g.setWorkword (xstrncpy gkword.workword maxWordSize)) := fun g hg =>
      ⟨.inr (xstrncpy_xstrncpy _ _), hkeeps.workword _ _ hg⟩
    have hstart : ∃ state, tryUnaspirated apostr (xstrncpy gkword.workword maxWordSize) gkword =
        some state ∧ Gathered Invariant Answer gkword state := by
      unfold tryUnaspirated
      cases hasp : unaspirate gkword.workword with
      | none => exact ⟨_, rfl, hzero⟩
      | some word =>
        obtain ⟨hrank, hmarks⟩ := unaspirate_rank hasp
        have hcall := hapostr { gkword with workword := word } (by
          dsimp only
          omega) (hkeeps.workword _ _ hinvariant)
        exact accumulate_settles hkeeps hzero hcall hleave
    have hvowels : ∀ numSylls, ∀ vow ∈ elidedVowels numSylls, ∀ state : ℕ × SpellWord,
        Gathered Invariant Answer gkword state →
          ∃ next, tryVowel self (xstrncpy gkword.workword maxWordSize) state vow = some next ∧
            Gathered Invariant Answer gkword next := by
      intro numSylls vow hvow state hstate
      have hrank := addApostrvowel_rank (dropLast_prefix_dropLast hstate.1.isPrefix) hlast hvow
      apply tryVowel_settles hkeeps hstate
      intro g hg
      apply hself
      rw [hg]
      exact hrank
    obtain ⟨start, hstart, hcollected⟩ := hstart
    obtain ⟨last, hfold, hend⟩ := foldlM_some (hvowels (nsylls start.2.workword)) hcollected
    rw [hstart, Option.bind_some, hfold, Option.bind_some]
    unfold tryUnaccented
    by_cases haccent : last.1 = 0 ∧ ultimaAccent (xstrncpy gkword.workword maxWordSize) = true
    · rw [if_pos haccent]
      obtain ⟨hrank, hmarks⟩ := stripacc_rank hsaved haccent.2
      have hcall := hapostr
        { last.2 with workword := stripacc (xstrncpy gkword.workword maxWordSize) } (by
          dsimp only
          omega) (hkeeps.workword _ _ hend.2.2)
      have hretry : ∃ next, accumulate apostr
          (fun g => { g with workword := stripacc (xstrncpy gkword.workword maxWordSize) })
          (fun g => g.setWorkword (xstrncpy gkword.workword maxWordSize)) last = some next ∧
            Gathered Invariant Answer gkword next :=
        accumulate_settles hkeeps hend hcall hleave
      exact hretry
    · rw [if_neg haccent]
      exact ⟨last, rfl, hend⟩
  · rw [if_neg hlast]
    exact ⟨_, rfl, .inl rfl, hkeeps.zero, hinvariant⟩

/-- With more activations left than the rank of a word the retries come to an end. -/
theorem spelling_settles (hkeeps : Keeps spelling Invariant Answer) (fuel : ℕ) :
    (∀ gkword, spellingRank gkword.workword < fuel → Invariant gkword →
        Settles Invariant Answer (checkstring3 spelling fuel) gkword) ∧
      ∀ gkword, 0 < fuel → (gkword.workword.getLast? = some 39 →
        elisionRank gkword.workword + elisionMarks gkword.workword < fuel + 19) →
          Invariant gkword → Settles Invariant Answer (checkapostr spelling fuel) gkword := by
  induction fuel with
  | zero =>
    constructor
    · intro gkword h
      omega
    · intro gkword h
      omega
  | succ fuel ih =>
    obtain ⟨ih3, ihapostr⟩ := ih
    constructor
    · intro gkword hrank hinvariant
      have hpositive : 2 * gkword.workword.length + 1 ≤ spellingRank gkword.workword := by
        unfold spellingRank
        omega
      have hrun : (activation spelling (checkstring4 spelling fuel) (checkstring3 spelling fuel)
          (checkapostr spelling fuel) gkword).Meets
          (Restored Invariant Answer (xstrncpy gkword.workword maxWordSize))
          (Restored Invariant Answer (xstrncpy gkword.workword maxWordSize)) := by
        apply activation_settles hkeeps _ _ _ hinvariant
        · intro g hlength
          apply checkstring4_settles hkeeps
          have hcount := List.count_le_length (a := (116 : Byte)) (l := g.workword)
          omega
        · intro g hg
          apply ih3
          omega
        · intro g hg
          apply ihapostr
          · omega
          · intro hlast
            have hle := elisionRank_le hlast
            omega
      obtain ⟨act, hact, hend⟩ := hrun.final
      obtain ⟨hword, hrest⟩ : Restored Invariant Answer
          (xstrncpy gkword.workword maxWordSize) act := hend.elim id id
      rw [xstrncpy_xstrncpy] at hword
      refine ⟨(act.rval, act.gkword), ?_, .inr hword, hrest⟩
      unfold checkstring3
      rw [hact]
      rfl
    · intro gkword hpos hfuel hinvariant
      unfold Settles checkapostr
      by_cases hlast : gkword.workword.getLast? = some 39
      · have hfuel := hfuel hlast
        have hle := elisionRank_le hlast
        have hself : ∀ g, spellingRank g.workword + 20 ≤ elisionRank gkword.workword →
            Invariant g → ComesBack Invariant Answer (checkstring3 spelling fuel) g := by
          intro g hg hinvariant'
          exact (ih3 g (by omega) hinvariant').comesBack
        have hagain : ∀ g, elisionRank g.workword + elisionMarks g.workword <
            elisionRank gkword.workword + elisionMarks gkword.workword → Invariant g →
              ComesBack Invariant Answer (checkapostr spelling fuel) g := by
          intro g hg hinvariant'
          exact (ihapostr g (by omega) (fun _ => by omega) hinvariant').comesBack
        exact elision_settles hkeeps hself hagain hinvariant
      · unfold elision
        rw [if_neg hlast]
        exact ⟨_, rfl, .inl rfl, hkeeps.zero, hinvariant⟩

/-- The three functions with activations enough for a word. -/
theorem checks_settle (hkeeps : Keeps spelling Invariant Answer) {fuel : ℕ} {word : Bytes}
    (hfuel : spellingRank word ≤ fuel) :
    (∀ gkword : SpellWord, gkword.workword.length ≤ word.length → Invariant gkword →
        Settles Invariant Answer (checkstring4 spelling fuel) gkword) ∧
      (∀ gkword : SpellWord, spellingRank gkword.workword < spellingRank word →
        Invariant gkword → Settles Invariant Answer (checkstring3 spelling fuel) gkword) ∧
      ∀ gkword : SpellWord, spellingRank gkword.workword ≤ spellingRank word →
        Invariant gkword → Settles Invariant Answer (checkapostr spelling fuel) gkword := by
  have hpositive : 2 * word.length + 1 ≤ spellingRank word := by
    unfold spellingRank
    omega
  refine ⟨fun gkword hlength => ?_, fun gkword hrank => ?_, fun gkword hrank => ?_⟩
  · have hcount := List.count_le_length (a := (116 : Byte)) (l := gkword.workword)
    exact checkstring4_settles hkeeps fuel (by omega)
  · exact (spelling_settles hkeeps fuel).1 gkword (by omega)
  · apply (spelling_settles hkeeps fuel).2 gkword (by omega)
    intro hlast
    have hle := elisionRank_le hlast
    omega

end Settling

/-- The mutual recursion of the spelling retries comes to an end for every word, whatever the
dictionary answers: with enough activations each of the three functions has a result. -/
theorem spellingRetries_terminate (spelling : Spelling) (gkword : SpellWord) :
    ∃ steps, ∀ fuel ≥ steps, (checkstring3 spelling fuel gkword).isSome ∧
      (checkstring4 spelling fuel gkword).isSome ∧ (checkapostr spelling fuel gkword).isSome := by
  refine ⟨spellingRank gkword.workword + 3, fun fuel hfuel => ?_⟩
  have hcount := List.count_le_length (a := (116 : Byte)) (l := gkword.workword)
  have hpositive : 2 * gkword.workword.length + 1 ≤ spellingRank gkword.workword := by
    unfold spellingRank
    omega
  have hkeeps := keeps_true spelling
  obtain ⟨hcheck3, hapostr⟩ := spelling_settles hkeeps fuel
  obtain ⟨found3, hfound3, -⟩ := hcheck3 gkword (by omega) trivial
  obtain ⟨found4, hfound4, -⟩ := checkstring4_settles hkeeps fuel
    (by omega : gkword.workword.count 116 < fuel) trivial
  obtain ⟨found, hfound, -⟩ := hapostr gkword (by omega) (fun hlast => by
    have hle := elisionRank_le hlast
    omega) trivial
  rw [hfound3, hfound4, hfound]
  exact ⟨rfl, rfl, rfl⟩

end Morpheus
