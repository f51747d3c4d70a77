import Morpheus.AnalysisStore

/-!
# The invariant of the store

`AddAnalysis` builds a candidate in the slot behind the stored analyses, in an array that grows
when it is full. Whatever the calls, the stored analyses stay pairwise inequivalent, and each call
changes them in one of three ways.
-/
namespace Morpheus

/-- What `equiv_anal` compares. -/
def equivKey (a : GkAnalysis) : (Bytes × Bytes × Bytes × Bytes × Bytes) × WordForm × Bool × UInt32 :=
  ((a.stLemma, a.aug1.gkstring, a.preverb.gkstring, a.workword, a.endstring.gkstring), a.forminfo,
    hasMorphflag a.stem.morphflags rEIAlpha, a.stemtype)

/-- The slots of the array. -/
def AnalysisStore.capacity (store : AnalysisStore) : ℕ := store.stored.length + store.free.length

/-- No two stored analyses are equivalent. -/
def AnalysisStore.Distinct (store : AnalysisStore) : Prop :=
  store.stored.Pairwise fun a b => equivAnal a b = false

/-- The array stays as it is, or is created with four slots, or is full and twice as large
afterwards. -/
def AnalysisStore.Grows (store after : AnalysisStore) : Prop :=
  after.capacity = store.capacity ∨ store.capacity = 0 ∧ after.capacity = 4 ∨
    store.stored.length = store.capacity ∧ after.capacity = 2 * store.capacity

/-- What a call does to the stored analyses: one more and the return value 1, or the return
value 0, and they are as they were, or the one to which the candidate is equivalent has a wider
dialect. -/
inductive StoreStep (env : WordEnv) (store : AnalysisStore) (offer : Offer) :
    AnalysisStore × Bool → Prop
  | appended {after : AnalysisStore} (a : GkAnalysis) (stored : after.stored = store.stored ++ [a]) :
      StoreStep env store offer (after, true)
  | same {after : AnalysisStore} (stored : after.stored = store.stored) :
      StoreStep env store offer (after, false)
  | widened {after : AnalysisStore} (front : List GkAnalysis) (old a : GkAnalysis)
      (back : List GkAnalysis) (own : offer.own env = some a) (equiv : equivAnal a old = true)
      (others : ∀ other ∈ front ++ back, equivAnal a other = false)
      (before : store.stored = front ++ old :: back)
      (stored : after.stored =
        front ++ { old with dialect := mergeDialect old.dialect a.dialect } :: back) :
      StoreStep env store offer (after, false)

section
variable {env : WordEnv} {store : AnalysisStore} {offer : Offer} {a b c : GkAnalysis}

theorem eqForminfo_iff (f1 f2 : WordForm) : eqForminfo f1 f2 = true ↔ f1 = f2 := by
  unfold eqForminfo
  cases f1
  cases f2
  simp only [Bool.and_eq_true, decide_eq_true_eq, WordForm.mk.injEq]
  tauto

/-- `equiv_anal` is an equivalence: the equality of what it compares. -/
theorem equivAnal_iff (a b : GkAnalysis) : equivAnal a b = true ↔ equivKey a = equivKey b := by
  unfold equivAnal equivKey
  simp only [Bool.and_eq_true, decide_eq_true_eq, eqForminfo_iff, Prod.mk.injEq]
  tauto

theorem equivAnal_false_iff (a b : GkAnalysis) : equivAnal a b = false ↔ equivKey a ≠ equivKey b := by
  rw [← Bool.not_eq_true, equivAnal_iff]

theorem equivKey_dialect (a : GkAnalysis) (dialect : UInt16) :
    equivKey { a with dialect } = equivKey a := rfl

theorem equivKey_crasis (a : GkAnalysis) (crasis : Bytes) : equivKey { a with crasis } = equivKey a :=
  rfl

/-- The keys decide whether the stored analyses are distinct. -/
theorem distinct_iff_nodup (store : AnalysisStore) :
    store.Distinct ↔ (store.stored.map equivKey).Nodup := by
  unfold AnalysisStore.Distinct List.Nodup
  simp only [equivAnal_false_iff, List.pairwise_map]

/-- A merge changes the dialect of the first equivalent analysis. -/
theorem mergeInto_split {l l' : List GkAnalysis} (h : mergeInto a l = some l') :
    ∃ front old back, l = front ++ old :: back ∧ equivAnal a old = true ∧
      (∀ other ∈ front, equivAnal a other = false) ∧
        l' = front ++ { old with dialect := mergeDialect old.dialect a.dialect } :: back := by
  induction l generalizing l' with
  | nil => cases h
  | cons first l ih =>
    unfold mergeInto at h
    by_cases hfirst : equivAnal a first = true
    · rw [if_pos hfirst] at h
      refine ⟨[], first, l, rfl, hfirst, by simp, ?_⟩
      rw [← Option.some.inj h]
      rfl
    · rw [if_neg hfirst] at h
      obtain ⟨rest, hrest, rfl⟩ := Option.map_eq_some_iff.mp h
      obtain ⟨front, old, back, hsplit, hequiv, hothers, hmerged⟩ := ih hrest
      refine ⟨first :: front, old, back, by rw [hsplit]; rfl, hequiv, ?_, by rw [hmerged]; rfl⟩
      intro other hother
      rcases List.mem_cons.mp hother with rfl | hother
      · simpa using hfirst
      · exact hothers other hother

/-- In a store without equivalents the candidate is equivalent to one analysis only. -/
theorem others_distinct {front back : List GkAnalysis} {old : GkAnalysis}
    (hdistinct : store.Distinct) (hstored : store.stored = front ++ old :: back)
    (hequiv : equivAnal a old = true) : ∀ other ∈ front ++ back, equivAnal a other = false := by
  have hnodup := (distinct_iff_nodup store).mp hdistinct
  rw [hstored, List.map_append, List.map_cons] at hnodup
  have hmiddle := (List.nodup_middle.mp hnodup)
  rw [← List.map_append, List.nodup_cons] at hmiddle
  intro other hother
  rw [equivAnal_false_iff, (equivAnal_iff a old).mp hequiv]
  intro hkey
  apply hmiddle.1
  rw [hkey]
  exact List.mem_map_of_mem hother

theorem addAnalysis_step (env : WordEnv) (hblank : store.FreeBlank) (hdistinct : store.Distinct)
    (offer : Offer) :
    StoreStep env store offer (addAnalysis env store offer) ∧
      (addAnalysis env store offer).1.Distinct := by
  obtain ⟨-, houtcome⟩ := addAnalysis_outcome env hblank offer
  generalize addAnalysis env store offer = result at houtcome ⊢
  cases houtcome with
  | refused same why =>
    refine ⟨.same same, ?_⟩
    unfold AnalysisStore.Distinct at hdistinct ⊢
    rw [same]
    exact hdistinct
  | @merged after a crasis own merge =>
    obtain ⟨front, old, back, hsplit, hequiv, -, hmerged⟩ := mergeInto_split merge
    have hequiv : equivAnal a old = true := by
      rw [equivAnal_iff, equivKey_crasis] at hequiv
      exact (equivAnal_iff a old).mpr hequiv
    refine ⟨.widened front old a back own hequiv (others_distinct hdistinct hsplit hequiv) hsplit
      hmerged, ?_⟩
    rw [distinct_iff_nodup] at hdistinct ⊢
    rw [hsplit, List.map_append, List.map_cons] at hdistinct
    rw [hmerged, List.map_append, List.map_cons, equivKey_dialect]
    exact hdistinct
  | @kept after a own takes one =>
    refine ⟨.appended _ one, ?_⟩
    have hnew : store.stored.any (equivAnal a) = false := by
      unfold takesSlot at takes
      rw [own] at takes
      simpa using (Bool.and_eq_true_iff.mp takes).2
    unfold AnalysisStore.Distinct at hdistinct ⊢
    rw [one, List.pairwise_append]
    refine ⟨hdistinct, List.pairwise_singleton _ _, ?_⟩
    intro other hother new hsingle
    rw [List.mem_singleton.mp hsingle, equivAnal_false_iff, equivKey_crasis]
    intro hkey
    have hsame := (equivAnal_iff a other).mpr hkey.symm
    have hnone := List.any_eq_false.mp hnew other hother
    exact hnone hsame

theorem reserve_grows (store : AnalysisStore) (offer : Offer) :
    store.Grows (store.reserve offer).1 ∧
      ((store.reserve offer).2 = true → (store.reserve offer).1.free ≠ []) ∧
      (store.capacity ≤ intMax → (store.reserve offer).1.capacity ≤ intMax) := by
  unfold AnalysisStore.reserve AnalysisStore.Grows AnalysisStore.capacity
  by_cases hnone : store.stored = [] ∧ store.free = []
  · rw [if_pos hnone]
    by_cases hcreated : offer.created = true
    · rw [if_pos hcreated]
      simp [hnone, intMax]
    · rw [if_neg hcreated]
      simp
  · rw [if_neg hnone]
    by_cases hfull : store.free = []
    · rw [if_pos hfull]
      dsimp only
      by_cases hfails : store.stored.length > intMax / 2 ∨ (!offer.grown) = true
      · rw [if_pos hfails]
        simp [hfull]
      · rw [if_neg hfails]
        have hne : store.stored ≠ [] := fun hempty => hnone ⟨hempty, hfull⟩
        have hpos : 0 < store.stored.length := List.length_pos_iff.mpr hne
        have hle : store.stored.length ≤ intMax / 2 := by
          by_contra hgt
          exact hfails (.inl (by omega))
        dsimp only
        rw [hfull, List.length_replicate, List.length_nil]
        refine ⟨.inr (.inr ⟨rfl, by omega⟩), fun _ hempty => ?_, fun _ => by omega⟩
        have hzero := congrArg List.length hempty
        rw [List.length_replicate, List.length_nil] at hzero
        omega
    · rw [if_neg hfull]
      simp [hfull]

/-- A candidate is built in a slot of the array. -/
theorem storeCandidate_capacity (env : WordEnv) (hfree : store.free ≠ []) (offer : Offer) :
    (storeCandidate env store offer).1.capacity = store.capacity := by
  have hslot : store.free.tail.length + 1 = store.free.length := by
    rw [List.length_tail]
    have hpos := List.length_pos_iff.mpr hfree
    omega
  unfold storeCandidate AnalysisStore.capacity
  dsimp only
  split
  · dsimp only
    rw [List.length_cons, hslot]
  · split
    · rename_i hmerge
      obtain ⟨front, old, back, hsplit, -, -, hmerged⟩ := mergeInto_split hmerge
      dsimp only
      rw [hmerged, hsplit, List.length_cons, hslot]
      simp
    · dsimp only
      rw [List.length_append, List.length_singleton]
      omega

theorem addAnalysis_grows (env : WordEnv) (store : AnalysisStore) (offer : Offer) :
    store.Grows (addAnalysis env store offer).1 ∧
      (store.capacity ≤ intMax → (addAnalysis env store offer).1.capacity ≤ intMax) := by
  obtain ⟨hgrows, hfree, hmax⟩ := reserve_grows store offer
  unfold addAnalysis
  by_cases herror : store.storageError ≠ 0
  · rw [if_pos herror]
    exact ⟨.inl rfl, id⟩
  rw [if_neg herror]
  by_cases hensured : (!offer.ensured) = true
  · rw [if_pos hensured]
    exact ⟨.inl rfl, id⟩
  rw [if_neg hensured]
  dsimp only
  by_cases hreserved : (!(store.reserve offer).2) = true
  · rw [if_pos hreserved]
    exact ⟨hgrows, hmax⟩
  · rw [if_neg hreserved]
    have hroom := storeCandidate_capacity env (hfree (by simpa using hreserved)) offer
    unfold AnalysisStore.Grows at hgrows ⊢
    rw [hroom]
    exact ⟨hgrows, hmax⟩

/-- What holds of the store after every sequence of calls. -/
structure AnalysisStore.Sound (store : AnalysisStore) : Prop where
  blank : store.FreeBlank
  distinct : store.Distinct
  bounded : store.capacity ≤ intMax

theorem sound_empty : AnalysisStore.empty.Sound :=
  ⟨freeBlank_empty, List.Pairwise.nil, by decide⟩

theorem AnalysisStore.Sound.add (h : store.Sound) (env : WordEnv) (offer : Offer) :
    (addAnalysis env store offer).1.Sound :=
  ⟨(addAnalysis_outcome env h.blank offer).1, (addAnalysis_step env h.blank h.distinct offer).2,
    (addAnalysis_grows env store offer).2 h.bounded⟩

end

/-- The store after a sequence of calls, each with the dialect the word has then. -/
def runCalls (store : AnalysisStore) (calls : List (WordEnv × Offer)) : AnalysisStore :=
  calls.foldl (fun store call => (addAnalysis call.1 store call.2).1) store

theorem runCalls_sound (calls : List (WordEnv × Offer)) {store : AnalysisStore} (h : store.Sound) :
    (runCalls store calls).Sound := by
  induction calls generalizing store with
  | nil => exact h
  | cons call calls ih => exact ih (h.add call.1 call.2)

/-- After every sequence of calls on a word the count is within the capacity and no two stored
analyses are equivalent, and the next call appends one analysis, or leaves the stored ones as they
are, or widens the dialect of the only one that the candidate is equivalent to. -/
theorem addAnalysis_storeInvariant (calls : List (WordEnv × Offer)) (env : WordEnv) (offer : Offer) :
    (runCalls .empty calls).stored.length ≤ (runCalls .empty calls).capacity ∧
      (runCalls .empty calls).capacity ≤ intMax ∧ (runCalls .empty calls).Distinct ∧
      StoreStep env (runCalls .empty calls) offer (addAnalysis env (runCalls .empty calls) offer) ∧
      (runCalls .empty calls).Grows (addAnalysis env (runCalls .empty calls) offer).1 := by
  have hsound := runCalls_sound calls sound_empty
  refine ⟨Nat.le_add_right _ _, hsound.bounded, hsound.distinct, ?_, ?_⟩
  · exact (addAnalysis_step env hsound.blank hsound.distinct offer).1
  · exact (addAnalysis_grows env (runCalls .empty calls) offer).1

end Morpheus
