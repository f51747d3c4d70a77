import Morpheus.CountedRetries

/-!
# Two dictionaries with the same answers for a time

The lookups of a run get more and more, so that a run depends only on what the dictionary answers
before its last lookup.
-/
namespace Morpheus

/-- A check needs no more than the lookups it has made: they get more, and the other check comes
to the same when these are fewer than a number. -/
def Follows (n : ℕ) (check other : Check) : Prop :=
  ∀ gkword found, check gkword = some found → gkword.lookups ≤ found.2.lookups ∧
    (found.2.lookups ≤ n → other gkword = some found)

/-- The same for the parts of an activation. -/
def FollowsPart (n : ℕ) (part other : Activation → Flow Activation) : Prop :=
  ∀ act state, (part act).final = some state → act.gkword.lookups ≤ state.gkword.lookups ∧
    (state.gkword.lookups ≤ n → other act = part act)

/-- Two dictionaries with the same answers to the first lookups. -/
def AgreeBefore (n : ℕ) (spelling other : Spelling) : Prop :=
  ∀ gkword : SpellWord, gkword.lookups < n →
    other.checkword gkword = spelling.checkword gkword ∧
      other.checkindecl gkword = spelling.checkindecl gkword ∧
        other.checknom gkword = spelling.checknom gkword

section Parts
variable {n : ℕ} {check4 check4' self self' apostr apostr' : Check} {saveword : Bytes}

theorem runAll_follows {parts others : List (Activation → Flow Activation)}
    (h : List.Forall₂ (FollowsPart n) parts others) :
    FollowsPart n (Flow.runAll parts) (Flow.runAll others) := by
  induction h with
  | nil =>
    intro act state hfinal
    obtain rfl := Option.some.inj hfinal
    exact ⟨Nat.le_refl _, fun _ => rfl⟩
  | @cons part other parts others hpart _ ih =>
    intro act state hfinal
    have hpart := hpart act
    rw [Flow.runAll] at hfinal
    rw [Flow.runAll, Flow.runAll]
    cases hflow : part act with
    | stuck =>
      rw [hflow] at hfinal
      cases hfinal
    | returned last =>
      rw [hflow] at hfinal hpart
      obtain ⟨hgrows, hsame⟩ := hpart state hfinal
      refine ⟨hgrows, fun hn => ?_⟩
      rw [hsame hn]
      rfl
    | goes next =>
      rw [hflow] at hfinal hpart
      obtain ⟨hgrows, hsame⟩ := hpart next rfl
      obtain ⟨hgrows', hsame'⟩ := ih next state hfinal
      refine ⟨hgrows.trans hgrows', fun hn => ?_⟩
      rw [hsame (hgrows'.trans hn), Flow.goes_andThen, Flow.goes_andThen]
      exact hsame' hn

theorem forall₂_map {α : Type*} {items : List α} {part other : α → Activation → Flow Activation}
    (h : ∀ item, FollowsPart n (part item) (other item)) :
    List.Forall₂ (FollowsPart n) (items.map part) (items.map other) := by
  rw [List.forall₂_map_left_iff, List.forall₂_map_right_iff]
  exact List.forall₂_same.mpr fun item _ => h item

theorem goes_follows {change : Activation → Activation}
    (h : ∀ act, (change act).gkword.lookups = act.gkword.lookups) :
    FollowsPart n (fun act => .goes (change act)) fun act => .goes (change act) := by
  intro act state hfinal
  obtain rfl := Option.some.inj hfinal
  exact ⟨(h act).ge, fun _ => rfl⟩

theorem retry_follows (hself : Follows n self self') (retry : Retry) :
    FollowsPart n (retry.run saveword self) (retry.run saveword self') := by
  intro act state hfinal
  unfold Retry.run at hfinal ⊢
  by_cases hskip : retry.whileEmpty = true ∧ act.gkword.analyses ≠ []
  · rw [if_pos hskip] at hfinal ⊢
    obtain rfl := Option.some.inj hfinal
    refine ⟨Nat.le_refl _, fun _ => ?_⟩
    rw [if_pos hskip]
  · rw [if_neg hskip] at hfinal ⊢
    rw [if_neg hskip]
    cases hfound : self (act.gkword.setWorkword retry.spelling) with
    | none =>
      rw [hfound] at hfinal
      cases hfinal
    | some found =>
      obtain ⟨hgrows, hsame⟩ := hself _ found hfound
      have hlookups : (retry.result act found).gkword.lookups = found.2.lookups := by
        unfold Retry.result
        dsimp only
        split_ifs <;> rfl
      rw [hfound] at hfinal
      dsimp only at hfinal ⊢
      have hstate : state.gkword.lookups = found.2.lookups := by
        rw [← hlookups]
        split_ifs at hfinal <;> obtain rfl := Option.some.inj hfinal <;> rfl
      rw [hstate]
      refine ⟨hgrows, fun hn => ?_⟩
      rw [hsame hn]

theorem plan_follows (hself : Follows n self self') (plan : Plan) :
    FollowsPart n (plan.run saveword self) (plan.run saveword self') := by
  intro act state hfinal
  exact runAll_follows (forall₂_map fun retry => retry_follows hself retry) act state hfinal

theorem tryVariant_follows (hcheck4 : Follows n check4 check4') (variant : Bytes → Bytes) :
    FollowsPart n (tryVariant saveword check4 variant) (tryVariant saveword check4' variant) := by
  intro act state hfinal
  unfold tryVariant at hfinal ⊢
  cases hfound : check4 { act.gkword with workword := variant act.gkword.workword } with
  | none =>
    rw [hfound] at hfinal
    cases hfinal
  | some found =>
    obtain ⟨hgrows, hsame⟩ := hcheck4 _ found hfound
    rw [hfound] at hfinal
    dsimp only at hfinal ⊢
    have hstate : state.gkword.lookups = found.2.lookups := by
      split_ifs at hfinal <;> obtain rfl := Option.some.inj hfinal <;> rfl
    rw [hstate]
    refine ⟨hgrows, fun hn => ?_⟩
    rw [hsame hn]

theorem apostrophe_follows (hapostr : Follows n apostr apostr') :
    FollowsPart n (apostrophe saveword apostr) (apostrophe saveword apostr') := by
  intro act state hfinal
  unfold apostrophe at hfinal ⊢
  by_cases hlast : act.gkword.workword.getLast? = some 39
  · rw [if_pos hlast] at hfinal ⊢
    rw [if_pos hlast]
    cases hfound : apostr act.gkword with
    | none =>
      rw [hfound] at hfinal
      cases hfinal
    | some found =>
      obtain ⟨hgrows, hsame⟩ := hapostr _ found hfound
      rw [hfound] at hfinal
      dsimp only at hfinal ⊢
      have hstate : state.gkword.lookups = found.2.lookups := by
        split_ifs at hfinal <;> obtain rfl := Option.some.inj hfinal <;> rfl
      rw [hstate]
      refine ⟨hgrows, fun hn => ?_⟩
      rw [hsame hn]
  · rw [if_neg hlast] at hfinal ⊢
    obtain rfl := Option.some.inj hfinal
    exact ⟨Nat.le_refl _, fun _ => (if_neg hlast).symm⟩

theorem capitals_follows (spelling : Spelling) (hcheck4 : Follows n check4 check4') :
    FollowsPart n (capitals spelling saveword check4) (capitals spelling saveword check4') := by
  intro act state hfinal
  unfold capitals at hfinal ⊢
  dsimp only at hfinal ⊢
  by_cases hcapital : (isUpper (act.gkword.workword.headD 0) = true ∨
      act.gkword.workword.headD 0 = 42) ∧ spelling.strictCase = false
  · rw [if_pos hcapital] at hfinal
    rw [if_pos hcapital, if_pos hcapital]
    refine runAll_follows ?_ act state hfinal
    apply List.rel_append (List.rel_append (.cons (tryVariant_follows hcheck4 _) .nil) _)
    · exact .cons (goes_follows fun _ => rfl) .nil
    · split_ifs
      · exact .cons (tryVariant_follows hcheck4 _) (.cons (tryVariant_follows hcheck4 _) .nil)
      · exact .nil
  · rw [if_neg hcapital] at hfinal
    obtain rfl := Option.some.inj hfinal
    refine ⟨Nat.le_refl _, fun _ => ?_⟩
    rw [if_neg hcapital, if_neg hcapital]

/-- The parts of an activation behind the first try. -/
theorem parts_follow (spelling : Spelling) (hcheck4 : Follows n check4 check4')
    (hself : Follows n self self') (hapostr : Follows n apostr apostr') :
    FollowsPart n
      (Flow.runAll ([capitals spelling saveword check4, apostrophe saveword apostr] ++
        (plans spelling saveword).map (Plan.run saveword self) ++
          [fun act => .goes (act.restore saveword)]))
      (Flow.runAll ([capitals spelling saveword check4', apostrophe saveword apostr'] ++
        (plans spelling saveword).map (Plan.run saveword self') ++
          [fun act => .goes (act.restore saveword)])) := by
  apply runAll_follows
  apply List.rel_append (List.rel_append _ (forall₂_map fun plan => plan_follows hself plan))
  · exact .cons (goes_follows fun _ => rfl) .nil
  · exact .cons (capitals_follows spelling hcheck4) (.cons (apostrophe_follows hapostr) .nil)

theorem activation_follows (spelling : Spelling) (hcheck4 : Follows n check4 check4')
    (hself : Follows n self self') (hapostr : Follows n apostr apostr') {gkword : SpellWord}
    {act : Activation}
    (hfinal : (activation spelling check4 self apostr gkword).final = some act) :
    gkword.lookups ≤ act.gkword.lookups ∧ (act.gkword.lookups ≤ n →
      activation spelling check4' self' apostr' gkword =
        activation spelling check4 self apostr gkword) := by
  unfold activation firstTry at hfinal ⊢
  cases hfound : check4 gkword with
  | none =>
    rw [hfound] at hfinal
    cases hfinal
  | some found =>
    obtain ⟨hgrows, hsame⟩ := hcheck4 _ found hfound
    rw [hfound] at hfinal
    dsimp only [Flow.goes_andThen] at hfinal ⊢
    obtain ⟨hgrows', hsame'⟩ := parts_follow spelling hcheck4 hself hapostr _ act hfinal
    refine ⟨hgrows.trans hgrows', fun hn => ?_⟩
    rw [hsame (hgrows'.trans hn)]
    exact hsame' hn

end Parts

section Checks
variable {n : ℕ} {spelling other : Spelling}

theorem checkCun_lookups (spelling : Spelling) (saveword : Bytes) (gkword : SpellWord) :
    gkword.lookups ≤ (checkCun spelling saveword gkword).2.lookups := by
  unfold checkCun
  cases hasCun saveword with
  | none => exact Nat.le_refl _
  | some workword =>
    change gkword.lookups ≤ gkword.lookups + 1 + 1
    omega

theorem checkCun_same (hagree : AgreeBefore n spelling other) {saveword : Bytes} {gkword : SpellWord}
    (hn : (checkCun spelling saveword gkword).2.lookups ≤ n) :
    checkCun other saveword gkword = checkCun spelling saveword gkword := by
  unfold checkCun at hn ⊢
  cases hcun : hasCun saveword with
  | none => rfl
  | some workword =>
    rw [hcun] at hn
    have hlookups : gkword.lookups + 1 + 1 ≤ n := hn
    obtain ⟨-, hindecl, -⟩ := hagree (gkword.setWorkword workword)
      (by change gkword.lookups < n; omega)
    have hfirst : (gkword.setWorkword workword).ask other.checkindecl =
        (gkword.setWorkword workword).ask spelling.checkindecl := by
      unfold SpellWord.ask
      rw [hindecl]
    obtain ⟨-, -, hnom⟩ := hagree ((gkword.setWorkword workword).ask spelling.checkindecl).2
      (by change gkword.lookups + 1 < n; omega)
    have hsecond : ((gkword.setWorkword workword).ask spelling.checkindecl).2.ask other.checknom =
        ((gkword.setWorkword workword).ask spelling.checkindecl).2.ask spelling.checknom := by
      unfold SpellWord.ask at hnom ⊢
      rw [hnom]
    dsimp only
    rw [hfirst, hsecond]

theorem checkstring4_follows (hlanguage : other.language = spelling.language)
    (hagree : AgreeBefore n spelling other) (fuel : ℕ) :
    Follows n (checkstring4 spelling fuel) (checkstring4 other fuel) := by
  induction fuel with
  | zero =>
    intro gkword found h
    cases h
  | succ fuel ih =>
    intro gkword found h
    have hask : (gkword.ask spelling.checkword).2.lookups ≤ n →
        gkword.ask other.checkword = gkword.ask spelling.checkword := by
      intro hn
      obtain ⟨hword, -⟩ := hagree gkword hn
      unfold SpellWord.ask
      rw [hword]
    unfold checkstring4 at h ⊢
    dsimp only at h ⊢
    by_cases hrval : (gkword.ask spelling.checkword).1 > 0
    · rw [if_pos hrval] at h
      obtain rfl := Option.some.inj h
      refine ⟨Nat.le_succ _, fun hn => ?_⟩
      rw [hask hn, if_pos hrval]
    · rw [if_neg hrval] at h
      by_cases hgreek : spelling.language ≠ greek
      · rw [if_pos hgreek] at h
        obtain rfl := Option.some.inj h
        refine ⟨Nat.le_succ _, fun hn => ?_⟩
        rw [hask hn, if_neg hrval, hlanguage, if_pos hgreek]
      · rw [if_neg hgreek] at h
        have hgrows := checkCun_lookups spelling
          (xstrncpy (gkword.ask spelling.checkword).2.workword maxWordSize)
          (gkword.ask spelling.checkword).2
        have hlookups : (gkword.ask spelling.checkword).2.lookups = gkword.lookups + 1 := rfl
        by_cases hcun : (checkCun spelling
            (xstrncpy (gkword.ask spelling.checkword).2.workword maxWordSize)
            (gkword.ask spelling.checkword).2).1 > 0
        · rw [if_pos hcun] at h
          obtain rfl := Option.some.inj h
          refine ⟨by omega, fun hn => ?_⟩
          rw [hask (hgrows.trans hn), if_neg hrval, hlanguage, if_neg hgreek,
            checkCun_same hagree hn, if_pos hcun]
        · rw [if_neg hcun] at h
          cases htt : hasTt (xstrncpy (gkword.ask spelling.checkword).2.workword maxWordSize) with
          | none =>
            rw [htt] at h
            obtain rfl := Option.some.inj h
            refine ⟨(Nat.le_succ _).trans hgrows, fun hn => ?_⟩
            rw [hask (hgrows.trans hn), if_neg hrval, hlanguage, if_neg hgreek,
              checkCun_same hagree hn, if_neg hcun, htt]
          | some workword =>
            rw [htt] at h
            obtain ⟨last, hlast, rfl⟩ := Option.map_eq_some_iff.mp h
            obtain ⟨hgrows', hsame⟩ := ih _ last hlast
            have hgrows' : (checkCun spelling
                (xstrncpy (gkword.ask spelling.checkword).2.workword maxWordSize)
                (gkword.ask spelling.checkword).2).2.lookups ≤ last.2.lookups := hgrows'
            refine ⟨?_, fun hn => ?_⟩
            · change gkword.lookups ≤ last.2.lookups
              omega
            · have hn : last.2.lookups ≤ n := hn
              rw [hask (hgrows.trans (hgrows'.trans hn)), if_neg hrval, hlanguage, if_neg hgreek,
                checkCun_same hagree (hgrows'.trans hn), if_neg hcun, htt]
              dsimp only
              rw [hsame hn]
              rfl

theorem accumulate_follows {check check' : Check} (h : Follows n check check')
    {enter leave : SpellWord → SpellWord} {state next : ℕ × SpellWord}
    (hnext : accumulate check enter leave state = some next)
    (henter : ∀ g, (enter g).lookups = g.lookups) (hleave : ∀ g, (leave g).lookups = g.lookups) :
    state.2.lookups ≤ next.2.lookups ∧ (next.2.lookups ≤ n →
      accumulate check' enter leave state = some next) := by
  unfold accumulate at hnext ⊢
  obtain ⟨found, hfound, rfl⟩ := Option.map_eq_some_iff.mp hnext
  obtain ⟨hgrows, hsame⟩ := h _ found hfound
  rw [henter] at hgrows
  dsimp only
  rw [hleave]
  refine ⟨hgrows, fun hn => ?_⟩
  rw [hsame hn]
  rfl

theorem foldlM_follows {β : Type*} {items : List β}
    {step step' : ℕ × SpellWord → β → Option (ℕ × SpellWord)}
    (h : ∀ item state next, step state item = some next → state.2.lookups ≤ next.2.lookups ∧
      (next.2.lookups ≤ n → step' state item = some next)) {state last : ℕ × SpellWord}
    (hlast : items.foldlM step state = some last) :
    state.2.lookups ≤ last.2.lookups ∧ (last.2.lookups ≤ n →
      items.foldlM step' state = some last) := by
  induction items generalizing state with
  | nil =>
    obtain rfl := Option.some.inj hlast
    exact ⟨Nat.le_refl _, fun _ => rfl⟩
  | cons item items ih =>
    rw [List.foldlM_cons] at hlast
    obtain ⟨next, hnext, hrest⟩ := Option.bind_eq_some_iff.mp hlast
    obtain ⟨hgrows, hsame⟩ := h item state next hnext
    obtain ⟨hgrows', hsame'⟩ := ih hrest
    refine ⟨hgrows.trans hgrows', fun hn => ?_⟩
    rw [List.foldlM_cons, hsame (hgrows'.trans hn)]
    exact hsame' hn

theorem tryUnaspirated_follows {apostr apostr' : Check} (hapostr : Follows n apostr apostr')
    {saveword : Bytes} {gkword : SpellWord} {start : ℕ × SpellWord}
    (hstart : tryUnaspirated apostr saveword gkword = some start) :
    gkword.lookups ≤ start.2.lookups ∧ (start.2.lookups ≤ n →
      tryUnaspirated apostr' saveword gkword = some start) := by
  unfold tryUnaspirated at hstart ⊢
  cases hasp : unaspirate gkword.workword with
  | none =>
    rw [hasp] at hstart
    obtain rfl := Option.some.inj hstart
    exact ⟨Nat.le_refl _, fun _ => rfl⟩
  | some plain =>
    rw [hasp] at hstart
    dsimp only at hstart ⊢
    exact accumulate_follows hapostr hstart (fun _ => rfl) fun _ => rfl

theorem tryVowels_follow {self self' : Check} (hself : Follows n self self') {saveword : Bytes}
    {vows : List (Bytes × Bool)} {start last : ℕ × SpellWord}
    (hlast : vows.foldlM (tryVowel self saveword) start = some last) :
    start.2.lookups ≤ last.2.lookups ∧ (last.2.lookups ≤ n →
      vows.foldlM (tryVowel self' saveword) start = some last) := by
  apply foldlM_follows _ hlast
  intro vow state next hnext
  unfold tryVowel at hnext ⊢
  exact accumulate_follows hself hnext (fun _ => rfl) fun _ => rfl

theorem tryUnaccented_follows {apostr apostr' : Check} (hapostr : Follows n apostr apostr')
    {saveword : Bytes} {last found : ℕ × SpellWord}
    (hfound : tryUnaccented apostr saveword last = some found) :
    last.2.lookups ≤ found.2.lookups ∧ (found.2.lookups ≤ n →
      tryUnaccented apostr' saveword last = some found) := by
  unfold tryUnaccented at hfound ⊢
  by_cases hultima : last.1 = 0 ∧ ultimaAccent saveword = true
  · rw [if_pos hultima] at hfound
    rw [if_pos hultima]
    exact accumulate_follows hapostr hfound (fun _ => rfl) fun _ => rfl
  · rw [if_neg hultima] at hfound
    rw [if_neg hultima]
    obtain rfl := Option.some.inj hfound
    exact ⟨Nat.le_refl _, fun _ => rfl⟩

theorem elision_follows {self self' apostr apostr' : Check} (hself : Follows n self self')
    (hapostr : Follows n apostr apostr') :
    Follows n (elision self apostr) (elision self' apostr') := by
  intro gkword found hfound
  unfold elision at hfound ⊢
  by_cases hlast : gkword.workword.getLast? = some 39
  · rw [if_pos hlast] at hfound
    rw [if_pos hlast]
    dsimp only at hfound ⊢
    obtain ⟨last, hfold, hend⟩ := Option.bind_eq_some_iff.mp hfound
    obtain ⟨start, hstart, hvowels⟩ := Option.bind_eq_some_iff.mp hfold
    have hplain := tryUnaspirated_follows hapostr hstart
    have hvowel := tryVowels_follow hself hvowels
    have haccent := tryUnaccented_follows hapostr hend
    refine ⟨hplain.1.trans (hvowel.1.trans haccent.1), fun hn => ?_⟩
    have hlastn := haccent.1.trans hn
    rw [hplain.2 (hvowel.1.trans hlastn), Option.bind_some, hvowel.2 hlastn, Option.bind_some]
    exact haccent.2 hn
  · rw [if_neg hlast] at hfound
    rw [if_neg hlast]
    obtain rfl := Option.some.inj hfound
    exact ⟨Nat.le_refl _, fun _ => rfl⟩

end Checks

theorem plans_answered (spelling : Spelling) (dictionary : Dictionary) (word : Bytes) :
    plans (spelling.answered dictionary) word = plans spelling word := by
  unfold plans
  rw [uRetry_answered]
  rfl

theorem activation_answered (spelling : Spelling) (dictionary : Dictionary)
    (check4 self apostr : Check) (gkword : SpellWord) :
    activation (spelling.answered dictionary) check4 self apostr gkword =
      activation spelling check4 self apostr gkword := by
  unfold activation
  dsimp only
  rw [plans_answered]
  rfl

/-- The checks with two dictionaries that agree on the first lookups. -/
theorem checks_follow {n : ℕ} (spelling : Spelling) {dictionary other : Dictionary}
    (hagree : AgreeBefore n (spelling.answered dictionary) (spelling.answered other)) (fuel : ℕ) :
    Follows n (checkstring3 (spelling.answered dictionary) fuel)
        (checkstring3 (spelling.answered other) fuel) ∧
      Follows n (checkapostr (spelling.answered dictionary) fuel)
        (checkapostr (spelling.answered other) fuel) := by
  induction fuel with
  | zero =>
    constructor
    · intro gkword found h
      cases h
    · intro gkword found h
      cases h
  | succ fuel ih =>
    obtain ⟨ih3, ihapostr⟩ := ih
    have hcheck4 : Follows n (checkstring4 (spelling.answered dictionary) fuel)
        (checkstring4 (spelling.answered other) fuel) := by
      apply checkstring4_follows _ hagree
      rfl
    constructor
    · intro gkword found h
      rw [checkstring3, activation_answered] at h
      rw [checkstring3, activation_answered]
      obtain ⟨act, hact, rfl⟩ := Option.map_eq_some_iff.mp h
      obtain ⟨hgrows, hsame⟩ := activation_follows spelling hcheck4 ih3 ihapostr hact
      refine ⟨hgrows, fun hn => ?_⟩
      rw [hsame hn, hact]
      rfl
    · intro gkword found h
      rw [checkapostr] at h
      rw [checkapostr]
      exact elision_follows ih3 ihapostr gkword found h

end Morpheus
