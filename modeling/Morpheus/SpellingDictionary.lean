import Morpheus.SpellingTermination

/-!
# The dictionary of the spelling retries

What a lookup returns says whether it found an analysis. With such a dictionary an analysis that
was found stays, and a dictionary that has nothing more to say leaves the word without any.
-/
namespace Morpheus

/-- A lookup that returns 0 adds no analysis to a word without any, and takes none away (it may
merge a duplicate into an analysis); one that returns something else leaves an analysis. -/
def Truthful (lookup : SpellWord → ℕ × List GkAnalysis) : Prop :=
  ∀ gkword, ((lookup gkword).1 = 0 → ((lookup gkword).2 = [] ↔ gkword.analyses = [])) ∧
    ((lookup gkword).1 ≠ 0 → (lookup gkword).2 ≠ [])

/-- The answers of a dictionary. -/
structure Dictionary where
  checkword : SpellWord → ℕ × List GkAnalysis
  checkindecl : SpellWord → ℕ × List GkAnalysis
  checknom : SpellWord → ℕ × List GkAnalysis
  truthful : ∀ lookup ∈ [checkword, checkindecl, checknom], Truthful lookup

/-- The lookups are those of a dictionary. -/
def Spelling.Honest (spelling : Spelling) : Prop :=
  ∀ lookup ∈ [spelling.checkword, spelling.checkindecl, spelling.checknom], Truthful lookup

/-- The retries with a dictionary. -/
def Spelling.answered (spelling : Spelling) (dictionary : Dictionary) : Spelling :=
  { spelling with
    checkword := dictionary.checkword
    checkindecl := dictionary.checkindecl
    checknom := dictionary.checknom }

theorem answered_honest (spelling : Spelling) (dictionary : Dictionary) :
    (spelling.answered dictionary).Honest := dictionary.truthful

section
variable {spelling : Spelling}

/-- An analysis that was found stays. -/
theorem keeps_nonempty (hhonest : spelling.Honest) :
    Keeps spelling (fun gkword => gkword.analyses ≠ []) fun _ => True where
  workword := fun _ _ h => h
  morphflags := fun _ _ h => h
  ask := by
    intro lookup hlookup gkword h
    refine ⟨trivial, ?_⟩
    obtain ⟨hzero, hfound⟩ := hhonest lookup hlookup gkword
    by_cases hrval : (lookup gkword).1 = 0
    · exact (hzero hrval).not.mpr h
    · exact hfound hrval
  filter := fun _ h hempty => absurd hempty h
  zero := trivial
  add := fun _ _ _ _ => trivial

/-- Nothing is found from a lookup on. -/
def Spelling.SilentFrom (spelling : Spelling) (n : ℕ) : Prop :=
  ∀ lookup ∈ [spelling.checkword, spelling.checkindecl, spelling.checknom],
    ∀ gkword : SpellWord, n ≤ gkword.lookups → lookup gkword = (0, gkword.analyses)

/-- Without further answers the return values are 0, and the analyses as they were. -/
theorem keeps_silent {n : ℕ} (h : spelling.SilentFrom n) (analyses : List GkAnalysis) :
    Keeps spelling (fun gkword => n ≤ gkword.lookups ∧ gkword.analyses = analyses)
      fun rval => rval = 0 where
  workword := fun _ _ h => h
  morphflags := fun _ _ h => h
  ask := by
    intro lookup hlookup gkword hgkword
    unfold SpellWord.ask
    rw [h lookup hlookup gkword hgkword.1]
    exact ⟨rfl, Nat.le_succ_of_le hgkword.1, hgkword.2⟩
  filter := by
    intro gkword hgkword hempty found hfound kept
    refine ⟨hfound.1, ?_⟩
    have hnil : found.analyses = [] := by rw [hfound.2, ← hgkword.2, hempty]
    rw [hnil, ← hgkword.2, hempty]
    rfl
  zero := rfl
  add := by
    intro a b ha hb
    rw [ha, hb]

end

section Dictionaries
variable (spelling : Spelling) (dictionary : Dictionary) (word : Bytes)

theorem u2vFrom_answered (half1 : Bytes) :
    u2vFrom (spelling.answered dictionary) half1 word = u2vFrom spelling half1 word := by
  induction word generalizing half1 with
  | nil => rfl
  | cons c s ih =>
    unfold u2vFrom
    simp only [ih]
    rfl

theorem u2v_answered : u2v (spelling.answered dictionary) word = u2v spelling word := by
  cases word with
  | nil => rfl
  | cons c s =>
    unfold u2v
    simp only [u2vFrom_answered]

theorem uRetry_answered :
    uRetry (spelling.answered dictionary) word = uRetry spelling word := by
  funext w empty
  unfold uRetry
  rw [u2v_answered]
  rfl

/-- The record of a word before the first lookup. -/
def SpellWord.unanalysed (word : Bytes) : SpellWord := ⟨word, fun _ => 0, [], 0⟩

/-- A dictionary that knows no word. -/
def emptyDictionary : Dictionary where
  checkword := fun gkword => (0, gkword.analyses)
  checkindecl := fun gkword => (0, gkword.analyses)
  checknom := fun gkword => (0, gkword.analyses)
  truthful := by
    intro lookup hlookup gkword
    simp only [List.mem_cons, List.not_mem_nil, or_false] at hlookup
    rcases hlookup with rfl | rfl | rfl <;> exact ⟨fun _ => Iff.rfl, fun h => absurd rfl h⟩

theorem emptyDictionary_silent : (spelling.answered emptyDictionary).SilentFrom 0 := by
  intro lookup hlookup gkword _
  simp only [List.mem_cons, List.not_mem_nil, or_false] at hlookup
  rcases hlookup with rfl | rfl | rfl <;> rfl

end Dictionaries

/-- A dictionary that knows one word. -/
def oneWordDictionary (known : Bytes) : Dictionary where
  checkword := fun gkword =>
    if gkword.workword = known then (1, [.zero]) else (0, gkword.analyses)
  checkindecl := fun gkword => (0, gkword.analyses)
  checknom := fun gkword => (0, gkword.analyses)
  truthful := by
    intro lookup hlookup gkword
    simp only [List.mem_cons, List.not_mem_nil, or_false] at hlookup
    rcases hlookup with rfl | rfl | rfl
    · dsimp only
      split_ifs
      · exact ⟨fun h => absurd h (by decide), fun _ => List.cons_ne_nil _ _⟩
      · exact ⟨fun _ => Iff.rfl, fun h => absurd rfl h⟩
    all_goals exact ⟨fun _ => Iff.rfl, fun h => absurd rfl h⟩

/-- Latin without tables of preverbs and endings. -/
def plainLatin : Spelling where
  language := latin
  strictCase := false
  checkword := fun gkword => (0, gkword.analyses)
  checkindecl := fun gkword => (0, gkword.analyses)
  checknom := fun gkword => (0, gkword.analyses)
  isRawpreverb := fun _ => false
  chckend := fun _ => false

/-- What `checkstring3` leaves: the word, and the analyses that were there. -/
def Keeping (self : Check) (gkword : SpellWord) : Prop :=
  ∃ found, self gkword = some found ∧ LeavesWord gkword found.2 ∧
    (gkword.analyses ≠ [] → found.2.analyses ≠ [])

theorem keeping_of_settles {spelling : Spelling} (hhonest : spelling.Honest) {check : Check}
    {gkword : SpellWord}
    (h : ∀ (Invariant : SpellWord → Prop) (Answer : ℕ → Prop),
      Keeps spelling Invariant Answer → Invariant gkword →
        Settles Invariant Answer check gkword) : Keeping check gkword := by
  by_cases hempty : gkword.analyses = []
  · obtain ⟨found, hfound, hword, -⟩ := h _ _ (keeps_true _) trivial
    exact ⟨found, hfound, hword, fun hne => absurd hempty hne⟩
  · obtain ⟨found, hfound, hword, -, hkept⟩ := h _ _ (keeps_nonempty hhonest) hempty
    exact ⟨found, hfound, hword, fun _ => hkept⟩

/-- The three functions with activations enough for a word. -/
theorem checks_keeping {spelling : Spelling} (hhonest : spelling.Honest) {fuel : ℕ} {word : Bytes}
    (hfuel : spellingRank word ≤ fuel) :
    (∀ gkword : SpellWord, gkword.workword.length ≤ word.length →
        Keeping (checkstring4 spelling fuel) gkword) ∧
      (∀ gkword : SpellWord, spellingRank gkword.workword < spellingRank word →
        Keeping (checkstring3 spelling fuel) gkword) ∧
      ∀ gkword : SpellWord, spellingRank gkword.workword ≤ spellingRank word →
        Keeping (checkapostr spelling fuel) gkword := by
  refine ⟨fun gkword hlength => ?_, fun gkword hrank => ?_, fun gkword hrank => ?_⟩
  · apply keeping_of_settles hhonest
    intro Invariant Answer hkeeps
    exact (checks_settle hkeeps hfuel).1 gkword hlength
  · apply keeping_of_settles hhonest
    intro Invariant Answer hkeeps
    exact (checks_settle hkeeps hfuel).2.1 gkword hrank
  · apply keeping_of_settles hhonest
    intro Invariant Answer hkeeps
    exact (checks_settle hkeeps hfuel).2.2 gkword hrank

/-- What a retry without conditions comes to when the function it calls has come back. -/
theorem Retry.run_found {self : Check} (saveword : Bytes) (retry : Retry) (act : Activation)
    (hwhile : retry.whileEmpty = false) (hmask : retry.mask = 0) (hrestores : retry.restores = false)
    {found : ℕ × SpellWord} (hfound : self (act.gkword.setWorkword retry.spelling) = some found) :
    retry.result act found = ⟨if retry.adds then act.rval + found.1 else found.1, found.2,
        act.tried ++ [(retry.spelling, found.1)]⟩ ∧
      retry.run saveword self act =
        if retry.returns = true ∧ (retry.result act found).rval ≠ 0 then
          .returned ((retry.result act found).restore saveword)
        else .goes (retry.result act found) := by
  constructor
  · have hzero : ¬ retry.mask ≠ 0 := fun hne => hne hmask
    unfold Retry.result
    rw [if_neg hzero]
  · unfold Retry.run
    rw [if_neg (by simp [hwhile]), hfound]
    dsimp only
    rw [hrestores]
    rfl

/-- Two retries whose results are added. -/
theorem runPair_found {self : Check} (saveword : Bytes) (act : Activation) (s t : Bytes)
    {first second : ℕ × SpellWord} (hfirst : self (act.gkword.setWorkword s) = some first)
    (hsecond : self (first.2.setWorkword t) = some second) :
    Flow.runAll (([{ spelling := s, adds := true, returns := false },
      { spelling := t, adds := true }] : List Retry).map (Retry.run saveword self)) act =
      if act.rval + first.1 + second.1 = 0 then
        .goes ⟨act.rval + first.1 + second.1, second.2,
          act.tried ++ [(s, first.1)] ++ [(t, second.1)]⟩
      else
        .returned (Activation.restore saveword ⟨act.rval + first.1 + second.1, second.2,
          act.tried ++ [(s, first.1)] ++ [(t, second.1)]⟩) := by
  obtain ⟨hresult, hrun⟩ := Retry.run_found saveword
    { spelling := s, adds := true, returns := false } act rfl rfl rfl hfirst
  obtain ⟨hresult', hrun'⟩ := Retry.run_found saveword { spelling := t, adds := true }
    ⟨act.rval + first.1, first.2, act.tried ++ [(s, first.1)]⟩ rfl rfl rfl hsecond
  rw [List.map_cons, List.map_cons, List.map_nil, Flow.runAll, hrun, hresult]
  simp only [Bool.false_eq_true, false_and, if_false, if_true, Flow.goes_andThen]
  rw [Flow.runAll, hrun', hresult']
  simp only [if_true, true_and]
  by_cases hzero : act.rval + first.1 + second.1 = 0
  · rw [if_neg fun hne => hne hzero, if_pos hzero]
    rfl
  · rw [if_pos hzero, if_neg hzero]
    rfl

/-- A spelling that fits in the buffer is in the record afterwards. -/
theorem Keeping.spelled {self : Check} {gkword : SpellWord} {s : Bytes}
    (h : Keeping self (gkword.setWorkword s)) (hlength : s.length < maxWordSize) :
    ∃ found, self (gkword.setWorkword s) = some found ∧ found.2.workword = s ∧
      (gkword.analyses ≠ [] → found.2.analyses ≠ []) := by
  obtain ⟨found, hfound, hword, hkept⟩ := h
  have hentered : (gkword.setWorkword s).workword = s := xstrncpy_of_lt hlength
  have hleft := hword.eq (by rw [hentered]; exact hlength)
  rw [hentered] at hleft
  exact ⟨found, hfound, hleft, hkept⟩

end Morpheus
