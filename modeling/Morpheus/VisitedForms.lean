import Morpheus.Generate

/-!
# The forms that a generation visits

`collect_form` takes a form after another from the walk of the generation service, up to its limit.
Beside it stands a visitor that keeps all forms and never stops: what is stored, what is signalled and
what is returned after sorting is said by the forms that this one is given.
-/
namespace Morpheus
open Checked GenerIndex Comparison

section Visits
variable {σ : Type} (env : GenerateEnv σ)

/-- The forms that a visitor is given, each with the process at its visit. -/
abbrev Visits (σ : Type) := List (Process σ × GkWord)

/-- A visitor that keeps all forms and never stops the walk. -/
def keepForm (p : Process σ) (visits : Visits σ) (form : GkWord) : Visits σ × Bool :=
  (visits ++ [(p, form)], true)

/-- The records of visited forms, numbered in the order of their visits. -/
def visitedRecords (visits : Visits σ) : List NormalizedGeneration :=
  visits.zipIdx.map fun visit => normalizedForm (env.nameOfStemtype visit.1.1) visit.1.2 visit.2

theorem visitedRecords_length (visits : Visits σ) : (visitedRecords env visits).length = visits.length := by
  rw [visitedRecords, List.length_map, List.length_zipIdx]

theorem visitedRecords_append (visits : Visits σ) (p : Process σ) (form : GkWord) :
    visitedRecords env (visits ++ [(p, form)]) =
      visitedRecords env visits ++ [normalizedForm (env.nameOfStemtype p) form visits.length] := by
  simp [visitedRecords, List.zipIdx_append]

theorem visitedRecords_orders (visits : Visits σ) :
    (visitedRecords env visits).map (·.sourceOrder) = List.range visits.length := by
  rw [visitedRecords, List.map_map, List.range_eq_range', ← List.zipIdx_map_snd 0]
  rfl

/-- Records of earlier visits stay as they are. -/
theorem visitedRecords_prefix {visits later : Visits σ} (h : visits <+: later) :
    visitedRecords env visits <+: visitedRecords env later := by
  obtain ⟨rest, rfl⟩ := h
  rw [visitedRecords, visitedRecords, List.zipIdx_append, List.map_append]
  exact List.prefix_append _ _

end Visits

section Walk
variable {σ : Type} {env : GenerateEnv σ} {limit : ℕ}

/-- The engine may change the process between forms. -/
theorem Collecting.moved {records : List NormalizedGeneration} {run : Generating σ Collector}
    (h : Collecting limit records run) (p : Process σ) :
    Collecting limit records ⟨p, run.state, run.formCount, .ok⟩ :=
  ⟨rfl, h.records_eq, h.formCount, h.limit_eq, h.length_le, h.capacity_le, h.within, h.memory, h.orders⟩

/-- Both visitors were given the same forms, and all of them are stored. -/
structure Together (env : GenerateEnv σ) (limit : ℕ) (all : Generating σ (Visits σ))
    (run : Generating σ Collector) : Prop where
  process : run.process = all.process
  status : run.status = all.status
  formCount : run.formCount = all.formCount
  continued : run.status ≠ .stopped
  collecting : Collecting limit (visitedRecords env all.state) { run with status := .ok }

/-- One form more than the limit was visited: the first ones are stored, and the limit is signalled. -/
structure OverLimit (env : GenerateEnv σ) (limit : ℕ) (all : Generating σ (Visits σ))
    (run : Generating σ Collector) : Prop where
  status : run.status = .stopped
  exceeded : run.state.limitExceeded = true
  memory : run.state.noMemory = false
  formCount : run.formCount = limit + 1
  further : limit < all.state.length
  records : run.state.records = (visitedRecords env all.state).take limit

/-- The records could not be made to grow. -/
structure OutOfMemory (env : GenerateEnv σ) (all : Generating σ (Visits σ))
    (run : Generating σ Collector) : Prop where
  status : run.status = .stopped
  within : run.state.limitExceeded = false
  memory : run.state.noMemory = true
  refused : ∃ p capacity, env.memory p (.records capacity) = false
  records : run.state.records <+: visitedRecords env all.state

/-- How a walk with `collect_form` stands to the walk that goes on. -/
inductive Shadows (env : GenerateEnv σ) (limit : ℕ) (all : Generating σ (Visits σ))
    (run : Generating σ Collector) : Prop
  | together (h : Together env limit all run)
  | overLimit (h : OverLimit env limit all run)
  | outOfMemory (h : OutOfMemory env all run)

/-- A walk that was stopped stays so when the other one goes on. -/
theorem Shadows.later {all later : Generating σ (Visits σ)} {run : Generating σ Collector}
    (h : Shadows env limit all run) (hstopped : run.status = .stopped)
    (hlater : all.state <+: later.state) : Shadows env limit later run := by
  have hrecords := visitedRecords_prefix env hlater
  cases h with
  | together h => exact absurd hstopped h.continued
  | overLimit h =>
    refine .overLimit ⟨h.status, h.exceeded, h.memory, h.formCount,
      h.further.trans_le hlater.length_le, ?_⟩
    obtain ⟨rest, hrest⟩ := hrecords
    rw [h.records, ← hrest, List.take_append_of_le_length]
    rw [visitedRecords_length]
    exact h.further.le
  | outOfMemory h =>
    exact .outOfMemory ⟨h.status, h.within, h.memory, h.refused, h.records.trans hrecords⟩

/-- What `collect_form` does with a form. -/
theorem Collecting.collectForm_cases {records : List NormalizedGeneration} {p : Process σ}
    {collect : Collector} {count : ℕ} (hlimit : limit ≤ generationHardLimit)
    (h : Collecting limit records ⟨p, collect, count, .ok⟩) (form : GkWord) :
    ((Morpheus.collectForm env p collect form).2 = true ∧
        Collecting limit (records ++ [normalizedForm (env.nameOfStemtype p) form records.length])
          ⟨p, (Morpheus.collectForm env p collect form).1, count + 1, .ok⟩) ∨
      (records.length = limit ∧
        Morpheus.collectForm env p collect form = ({ collect with limitExceeded := true }, false)) ∨
      ((∃ capacity, env.memory p (.records capacity) = false) ∧
        Morpheus.collectForm env p collect form = ({ collect with noMemory := true }, false)) := by
  have hrecords : collect.records = records := h.records_eq
  have hlimeq : collect.limit = limit := h.limit_eq
  by_cases hfull : records.length = limit
  · refine .inr (.inl ⟨hfull, ?_⟩)
    rw [Morpheus.collectForm, hrecords, hlimeq, if_pos hfull]
  rcases h.collectForm env hlimit form with hstored | ⟨-, -, hlength⟩ | ⟨hstop, -⟩
  · exact .inl hstored
  · exact absurd hlength hfull
  · have hroom : collect.records.length = collect.capacity := by
      by_contra hroom
      rw [Morpheus.collectForm, hlimeq, if_neg (by rw [hrecords]; exact hfull)] at hstop
      simp [hroom] at hstop
    have hcapacity : collect.capacity < limit := by
      have hlength := h.length_le
      have hcap := h.capacity_le
      dsimp only at hlength hcap
      rw [← hroom, hrecords]
      omega
    obtain ⟨grown, hgrown, -, -⟩ := grownCapacity_spec hlimit hcapacity
    right; right
    rw [Morpheus.collectForm, hlimeq, if_neg (by rw [hrecords]; exact hfull)] at hstop ⊢
    simp only [hroom, if_true, hgrown] at hstop ⊢
    by_cases hmemory : env.memory p (.records grown) = true
    · rw [if_pos hmemory] at hstop
      cases hstop
    · rw [if_neg hmemory]
      exact ⟨⟨grown, by simpa using hmemory⟩, rfl⟩

theorem keepForm_visitForms (p : Process σ) (forms : List GkWord) (visits : Visits σ) (count : ℕ) :
    visits <+: (visitForms keepForm p forms visits count).state := by
  induction forms generalizing visits count with
  | nil => exact List.prefix_rfl
  | cons form forms ih =>
    rw [visitForms]
    split_ifs with hcount
    · exact List.prefix_rfl
    · exact (List.prefix_append _ _).trans (ih (visits ++ [(p, form)]) (count + 1))

/-- The forms of one array. -/
theorem Collecting.shadows (hlimit : limit ≤ generationHardLimit) {p : Process σ} (forms : List GkWord)
    {visits : Visits σ} {collect : Collector} {count : ℕ}
    (h : Collecting limit (visitedRecords env visits) ⟨p, collect, count, .ok⟩) :
    Shadows env limit (Morpheus.visitForms keepForm p forms visits count)
      (Morpheus.visitForms (Morpheus.collectForm env) p forms collect count) := by
  induction forms generalizing visits collect count with
  | nil => exact .together ⟨rfl, rfl, rfl, by simp [Morpheus.visitForms], h⟩
  | cons form forms ih =>
    have hcount : count = visits.length := by
      rw [← visitedRecords_length env]
      exact h.formCount
    have hroom : visits.length ≤ limit := by
      have hlength := h.length_le.trans h.capacity_le
      rwa [visitedRecords_length] at hlength
    have hnotMax : count ≠ sizeMax := by
      have hhard : generationHardLimit = 65536 := rfl
      have hmax : sizeMax = 18446744073709551615 := rfl
      omega
    have hrecords := visitedRecords_append env visits p form
    have hkept := keepForm_visitForms p forms (visits ++ [(p, form)]) (count + 1)
    rw [Morpheus.visitForms, if_neg hnotMax, Morpheus.visitForms, if_neg hnotMax]
    simp only [keepForm, if_true]
    rcases h.collectForm_cases hlimit form with ⟨hmore, hnext⟩ | ⟨hfull, hvisit⟩ | ⟨hrefused, hvisit⟩
    · rw [if_pos hmore]
      rw [visitedRecords_length, ← hrecords] at hnext
      exact ih hnext
    · rw [hvisit, if_neg Bool.false_ne_true]
      rw [visitedRecords_length] at hfull
      have hover : OverLimit env limit ⟨p, visits ++ [(p, form)], count + 1, .ok⟩
          ⟨p, { collect with limitExceeded := true }, count + 1, .stopped⟩ := by
        refine ⟨rfl, rfl, h.memory, by rw [hcount, hfull], ?_, ?_⟩
        · rw [List.length_append, List.length_singleton, hfull]
          exact Nat.lt_succ_self limit
        · rw [hrecords, List.take_left' (by rw [visitedRecords_length, hfull])]
          exact h.records_eq
      exact (Shadows.overLimit hover).later rfl hkept
    · rw [hvisit, if_neg Bool.false_ne_true]
      have hout : OutOfMemory env ⟨p, visits ++ [(p, form)], count + 1, .ok⟩
          ⟨p, { collect with noMemory := true }, count + 1, .stopped⟩ := by
        obtain ⟨capacity, hcapacity⟩ := hrefused
        refine ⟨rfl, h.within, rfl, ⟨p, capacity, hcapacity⟩, ?_⟩
        have hstored : collect.records = visitedRecords env visits := h.records_eq
        rw [hstored]
        exact visitedRecords_prefix env (List.prefix_append _ _)
      exact (Shadows.outOfMemory hout).later rfl hkept

section Records
variable (service : GenerationService) (lemma_ : Bytes) {view : RecordView}

theorem keepForm_generateRecord (hview : view.stem ≠ none ∧ view.keys ≠ none)
    (all : Generating σ (Visits σ)) :
    ∃ later, generateRecord env keepForm service lemma_ view all.process all.state all.formCount = .ok later ∧
      all.state <+: later.state := by
  obtain ⟨kind, stem, keys⟩ := view
  obtain ⟨stem, rfl⟩ := Option.ne_none_iff_exists'.mp hview.1
  obtain ⟨keys, rfl⟩ := Option.ne_none_iff_exists'.mp hview.2
  unfold generateRecord
  dsimp only
  split
  · exact ⟨_, rfl, List.prefix_rfl⟩
  · split
    · exact ⟨_, rfl, List.prefix_rfl⟩
    · split
      · exact ⟨_, rfl, List.prefix_rfl⟩
      · exact ⟨_, rfl, keepForm_visitForms ..⟩

theorem keepForm_generateViews {views : List RecordView}
    (hviews : ∀ view ∈ views, view.stem ≠ none ∧ view.keys ≠ none) (all : Generating σ (Visits σ)) :
    ∃ later, generateViews env keepForm service lemma_ views all = .ok later ∧ all.state <+: later.state := by
  induction views generalizing all with
  | nil => exact ⟨all, rfl, List.prefix_rfl⟩
  | cons view views ih =>
    obtain ⟨hview, hviews⟩ := List.forall_mem_cons.mp hviews
    obtain ⟨next, hnext, hprefix⟩ := @keepForm_generateRecord σ env service lemma_ view hview all
    rw [generateViews, hnext, ok_bind]
    split_ifs with hstatus
    · exact ⟨next, rfl, hprefix⟩
    · obtain ⟨later, hlater, hprefix'⟩ := ih hviews next
      exact ⟨later, hlater, hprefix.trans hprefix'⟩

/-- The forms of one index record. -/
theorem Together.generateRecord (hlimit : limit ≤ generationHardLimit)
    (hview : view.stem ≠ none ∧ view.keys ≠ none) {all : Generating σ (Visits σ)}
    {run : Generating σ Collector} (h : Together env limit all run) :
    ∃ all' run',
      Morpheus.generateRecord env keepForm service lemma_ view all.process all.state all.formCount = .ok all' ∧
        Morpheus.generateRecord env (Morpheus.collectForm env) service lemma_ view run.process run.state
          run.formCount = .ok run' ∧ Shadows env limit all' run' := by
  obtain ⟨kind, stem, keys⟩ := view
  obtain ⟨stem, rfl⟩ := Option.ne_none_iff_exists'.mp hview.1
  obtain ⟨keys, rfl⟩ := Option.ne_none_iff_exists'.mp hview.2
  have hstopped : ∀ context, runtimeStatus context ≠ .stopped := by
    intro context
    rcases runtimeStatus_eq context with hstatus | hstatus <;> simp [hstatus]
  have hgoes : ∀ (p : Process σ) (status : GenerationStatus), status ≠ .stopped →
      Shadows env limit ⟨p, all.state, all.formCount, status⟩ ⟨p, run.state, run.formCount, status⟩ := by
    intro p status hstatus
    exact .together ⟨rfl, rfl, h.formCount, hstatus, h.collecting.moved p⟩
  unfold Morpheus.generateRecord
  rw [h.process]
  dsimp only
  by_cases hkeys : (!env.memory all.process (.keys keys.length)) = true
  · rw [if_pos hkeys, if_pos hkeys]
    exact ⟨_, _, rfl, rfl, hgoes _ _ (by simp)⟩
  rw [if_neg hkeys, if_neg hkeys]
  cases hengine : engineForms env all.process lemma_ stem keys kind with
  | mk p forms =>
    dsimp only
    cases forms with
    | none => exact ⟨_, _, rfl, rfl, hgoes _ _ (hstopped _)⟩
    | some forms =>
      dsimp only
      by_cases herror : (p.contexts service.context).runtimeError ≠ .none
      · rw [if_pos herror, if_pos herror]
        exact ⟨_, _, rfl, rfl, hgoes _ _ (hstopped _)⟩
      · rw [if_neg herror, if_neg herror]
        refine ⟨_, _, rfl, rfl, ?_⟩
        rw [← h.formCount]
        exact (h.collecting.moved p).shadows hlimit (arrayForms forms)

/-- The forms of the index records of a lemma. -/
theorem Together.generateViews (hlimit : limit ≤ generationHardLimit) {views : List RecordView}
    (hviews : ∀ view ∈ views, view.stem ≠ none ∧ view.keys ≠ none) {all : Generating σ (Visits σ)}
    {run : Generating σ Collector} (h : Together env limit all run) :
    ∃ all' run', Morpheus.generateViews env keepForm service lemma_ views all = .ok all' ∧
      Morpheus.generateViews env (Morpheus.collectForm env) service lemma_ views run = .ok run' ∧
        Shadows env limit all' run' := by
  induction views generalizing all run with
  | nil => exact ⟨all, run, rfl, rfl, .together h⟩
  | cons view views ih =>
    obtain ⟨hview, hviews⟩ := List.forall_mem_cons.mp hviews
    obtain ⟨next, next', hnext, hnext', hshadows⟩ := h.generateRecord service lemma_ hlimit hview
    rw [Morpheus.generateViews, hnext, ok_bind, Morpheus.generateViews, hnext', ok_bind]
    by_cases hstop : next'.status = .stopped
    · -- the other walk may go on
      have hnot : next'.status ≠ .ok := by
        rw [hstop]
        simp
      rw [if_pos hnot]
      by_cases hok : next.status = .ok
      · rw [if_neg (not_not.mpr hok)]
        obtain ⟨later, hlater, hprefix⟩ := @keepForm_generateViews σ env service lemma_ views hviews next
        exact ⟨later, next', hlater, rfl, hshadows.later hstop hprefix⟩
      · rw [if_pos hok]
        exact ⟨next, next', rfl, rfl, hshadows⟩
    · cases hshadows with
      | together htogether =>
        rw [htogether.status]
        by_cases hok : next.status = .ok
        · rw [if_neg (not_not.mpr hok), if_neg (not_not.mpr hok)]
          exact ih hviews htogether
        · rw [if_pos hok, if_pos hok]
          exact ⟨next, next', rfl, rfl, .together htogether⟩
      | overLimit hover => exact absurd hover.status hstop
      | outOfMemory hout => exact absurd hout.status hstop

/-- The walk of the service with `collect_form`, beside the one that keeps all forms. -/
theorem service_shadows (hlimit : limit ≤ generationHardLimit) (hfree : NulFree lemma_) (p : Process σ) :
    ∃ all run, morpheusGenerationServiceGenerate env keepForm service lemma_ p [] = .ok all ∧
      morpheusGenerationServiceGenerate env (Morpheus.collectForm env) service lemma_ p
        ⟨[], 0, limit, false, false⟩ = .ok run ∧ Shadows env limit all run := by
  have hstart : ∀ (q : Process σ) (status : GenerationStatus), status ≠ .stopped →
      Together env limit (⟨q, [], 0, status⟩ : Generating σ (Visits σ))
        ⟨q, ⟨[], 0, limit, false, false⟩, 0, status⟩ := by
    intro q status hstatus
    exact ⟨rfl, rfl, rfl, hstatus, rfl, rfl, rfl, rfl, le_rfl, Nat.zero_le _, rfl, rfl, rfl⟩
  by_cases hne : lemma_ = []
  · subst hne
    exact ⟨_, _, rfl, rfl, .together (hstart p .invalid (by simp))⟩
  rcases serviceGenerate_eq env keepForm service hne hfree p [] with ⟨habsent, hall⟩ | ⟨blocks, hblocks, hviews, hall⟩
  · rcases serviceGenerate_eq env (Morpheus.collectForm env) service hne hfree p
      ⟨[], 0, limit, false, false⟩ with ⟨-, hrun⟩ | ⟨blocks, hblocks, -, -⟩
    · exact ⟨_, _, hall, hrun, .together (hstart p .notFound (by simp))⟩
    · rw [habsent] at hblocks
      cases hblocks
  · rcases serviceGenerate_eq env (Morpheus.collectForm env) service hne hfree p
      ⟨[], 0, limit, false, false⟩ with ⟨habsent, -⟩ | ⟨blocks', hblocks', -, hrun⟩
    · rw [habsent] at hblocks
      cases hblocks
    · rw [hblocks] at hblocks'
      cases hblocks'
      obtain ⟨all, run, hviewsAll, hviewsRun, hshadows⟩ :=
        (hstart (enterService service p) .ok (by simp)).generateViews service lemma_ hlimit hviews
      rw [hviewsAll, ok_bind] at hall
      rw [hviewsRun, ok_bind] at hrun
      refine ⟨_, _, hall, hrun, ?_⟩
      cases hshadows with
      | together h =>
        have hprocess := congrArg (·.activate p.current) h.process
        exact .together ⟨hprocess, h.status, h.formCount, h.continued, h.collecting.moved _⟩
      | overLimit h => exact .overLimit ⟨h.status, h.exceeded, h.memory, h.formCount, h.further, h.records⟩
      | outOfMemory h => exact .outOfMemory ⟨h.status, h.within, h.memory, h.refused, h.records⟩

end Records

/-- What the collector holds after a walk on which `all` the forms would be visited. -/
structure CollectsFirst (env : GenerateEnv σ) (limit : ℕ) (all : Generating σ (Visits σ))
    (run : Generating σ Collector) : Prop where
  memory : run.state.noMemory = true → ∃ p capacity, env.memory p (.records capacity) = false
  stored : run.state.noMemory = false → run.state.records = (visitedRecords env all.state).take limit
  signalled : run.state.noMemory = false → (run.state.limitExceeded = true ↔ limit < all.state.length)
  stopped : run.state.noMemory = false → (run.status = .stopped ↔ limit < all.state.length)
  further : run.state.limitExceeded = true → run.formCount = limit + 1
  ended : run.status ≠ .stopped → run.status = all.status ∧ run.formCount = run.state.records.length ∧
    run.state.records.length = all.state.length
  orders : run.state.records.map (·.sourceOrder) = List.range run.state.records.length

theorem orders_of_prefix {visits : Visits σ} {records : List NormalizedGeneration}
    (h : records <+: visitedRecords env visits) :
    records.map (·.sourceOrder) = List.range records.length := by
  have hlength : records.length ≤ visits.length := by
    rw [← visitedRecords_length env]
    exact h.length_le
  rw [List.prefix_iff_eq_take.mp h, List.map_take, visitedRecords_orders, List.take_range,
    List.length_take, visitedRecords_length]

theorem Shadows.collectsFirst {all : Generating σ (Visits σ)} {run : Generating σ Collector}
    (h : Shadows env limit all run) : CollectsFirst env limit all run := by
  cases h with
  | together h =>
    have hrecords : run.state.records = visitedRecords env all.state := h.collecting.records_eq
    have hwithin : run.state.limitExceeded = false := h.collecting.within
    have hmemory : run.state.noMemory = false := h.collecting.memory
    have hcount : run.formCount = (visitedRecords env all.state).length := h.collecting.formCount
    have hlength : (visitedRecords env all.state).length ≤ limit :=
      h.collecting.length_le.trans h.collecting.capacity_le
    have hnot : ¬limit < all.state.length := by
      rw [← visitedRecords_length env]
      exact hlength.not_gt
    exact
      { memory := fun hno => absurd (hno.symm.trans hmemory) (by simp)
        stored := fun _ => by rw [hrecords, List.take_of_length_le hlength]
        signalled := fun _ => iff_of_false (by simp [hwithin]) hnot
        stopped := fun _ => iff_of_false h.continued hnot
        further := fun hover => absurd (hover.symm.trans hwithin) (by simp)
        ended := fun _ => ⟨h.status, by rw [hcount, hrecords], by rw [hrecords, visitedRecords_length]⟩
        orders := orders_of_prefix (by rw [hrecords]) }
  | overLimit h =>
    exact
      { memory := fun hno => absurd (hno.symm.trans h.memory) (by simp)
        stored := fun _ => h.records
        signalled := fun _ => iff_of_true h.exceeded h.further
        stopped := fun _ => iff_of_true h.status h.further
        further := fun _ => h.formCount
        ended := fun hgoes => absurd h.status hgoes
        orders := orders_of_prefix (by rw [h.records]; exact List.take_prefix _ _) }
  | outOfMemory h =>
    have hno : run.state.noMemory ≠ false := by simp [h.memory]
    exact
      { memory := fun _ => h.refused
        stored := fun hmemory => absurd hmemory hno
        signalled := fun hmemory => absurd hmemory hno
        stopped := fun hmemory => absurd hmemory hno
        further := fun hover => absurd (hover.symm.trans h.within) (by simp)
        ended := fun hgoes => absurd h.status hgoes
        orders := orders_of_prefix h.records }

/-- Whatever forms the service visits, `collect_form` stores the first ones up to the limit. -/
theorem collectForm_collects (env : GenerateEnv σ) (service : GenerationService) {lemma_ : Bytes}
    (hfree : NulFree lemma_) (hlimit : limit ≤ generationHardLimit) (p : Process σ) :
    ∃ all run, morpheusGenerationServiceGenerate env keepForm service lemma_ p [] = .ok all ∧
      morpheusGenerationServiceGenerate env (collectForm env) service lemma_ p
        ⟨[], 0, limit, false, false⟩ = .ok run ∧ CollectsFirst env limit all run := by
  obtain ⟨all, run, hall, hrun, hshadows⟩ := service_shadows service lemma_ hlimit hfree p
  exact ⟨all, run, hall, hrun, hshadows.collectsFirst⟩

/-- With a limit of one, the first of the two forms of a noun is stored. -/
theorem collectForm_collects_logos : ∃ all run,
    morpheusGenerationServiceGenerate (nounEnv fun _ => true) keepForm nounService (ascii "lo/gos")
        nounProcess [] = .ok all ∧
      morpheusGenerationServiceGenerate (nounEnv fun _ => true) (collectForm (nounEnv fun _ => true))
        nounService (ascii "lo/gos") nounProcess ⟨[], 0, 1, false, false⟩ = .ok run ∧
      CollectsFirst (nounEnv fun _ => true) 1 all run :=
  collectForm_collects (nounEnv fun _ => true) nounService (by decide) (by decide) nounProcess

end Walk

section Normalized
variable {σ : Type} {env : GenerateEnv σ} {limit : ℕ}

theorem normalizedGenerationCompare_orders {forms : Set NormalizedGeneration}
    (h : forms.InjOn (·.sourceOrder)) : StrictlyOrders normalizedGenerationCompare forms := by
  refine strictlyOrders_of_agrees (fun a _ b _ => normalizedGenerationCompare_agrees a b)
    fun a ha b hb heq => ?_
  by_contra hne
  exact orderKey_sourceOrder (fun horder => hne (h ha hb horder)) heq

theorem visitedRecords_injOn (env : GenerateEnv σ) (visits : Visits σ) :
    {record | record ∈ visitedRecords env visits}.InjOn (·.sourceOrder) := by
  have hnodup : ((visitedRecords env visits).map (·.sourceOrder)).Nodup := by
    rw [visitedRecords_orders]
    exact List.nodup_range
  exact List.inj_on_of_nodup_map hnodup

theorem visitedRecords_nodup (env : GenerateEnv σ) (visits : Visits σ) : (visitedRecords env visits).Nodup := by
  refine List.Nodup.of_map (·.sourceOrder) ?_
  rw [visitedRecords_orders]
  exact List.nodup_range

/-- The records that `morpheus_generation_normalize` returns after a walk on which `all` the forms
would be visited: they are sorted, and no other order of them is. -/
structure NormalizesVisits (env : GenerateEnv σ) (limit : ℕ) (canonicalLemma : Bytes)
    (all : Generating σ (Visits σ)) (outcome : Except NormalizeStatus (List NormalizedGeneration)) : Prop where
  sorted : ∀ result, outcome = .ok result → all.status = .ok ∧
    SortedAlone normalizedGenerationCompare (visitedRecords env all.state) result
  returned : canonicalLemma ≠ [] → 1 ≤ limit → limit ≤ generationHardLimit → all.status = .ok →
    all.state.length ≤ limit → (∀ p allocation, env.memory p allocation = true) → ∃ result, outcome = .ok result

/-- Records in the order of their visits are sorted alone by `qsort`. -/
theorem visitedRecords_sorted (env : GenerateEnv σ) (visits : Visits σ) :
    SortedAlone normalizedGenerationCompare (visitedRecords env visits)
      (if (visitedRecords env visits).length > 1 then
        sortBy normalizedGenerationCompare (visitedRecords env visits) else visitedRecords env visits) := by
  have horders := normalizedGenerationCompare_orders (visitedRecords_injOn env visits)
  have hnodup := visitedRecords_nodup env visits
  split_ifs with hmany
  · refine horders.sortedAlone hnodup (sortBy_perm _ _) ?_
    have hsorted := @normalized_sorted (visitedRecords env visits)
      (by rw [visitedRecords_orders, visitedRecords_length])
    exact hsorted.imp le_of_lt
  · refine horders.sortedAlone hnodup (.refl _) ?_
    match hrecords : visitedRecords env visits with
    | [] => exact .nil
    | [record] => exact List.pairwise_singleton _ _
    | first :: second :: rest => simp [hrecords] at hmany

/-- What is returned after the walk. -/
theorem Shadows.normalizes {all : Generating σ (Visits σ)} {run : Generating σ Collector}
    (h : Shadows env limit all run) (canonicalLemma : Bytes) :
    NormalizesVisits env limit canonicalLemma all
      (if run.state.limitExceeded then .error .limit
      else if run.state.noMemory then .error .noMemory
      else if run.status ≠ .ok then .error (serviceStatus run.status)
      else if run.formCount ≠ run.state.records.length then .error .engineError
      else if run.state.records.length > 1 then
        .ok (sortBy normalizedGenerationCompare run.state.records)
      else .ok run.state.records) := by
  cases h with
  | together h =>
    have hrecords : run.state.records = visitedRecords env all.state := h.collecting.records_eq
    have hwithin : run.state.limitExceeded = false := h.collecting.within
    have hmemory : run.state.noMemory = false := h.collecting.memory
    have hcount : run.formCount = (visitedRecords env all.state).length := h.collecting.formCount
    rw [if_neg (by simp [hwithin]), if_neg (by simp [hmemory]), hrecords,
      if_neg (not_not.mpr hcount), h.status]
    by_cases hok : all.status = .ok
    · rw [if_neg (not_not.mpr hok), ← apply_ite Except.ok]
      refine ⟨fun result hresult => ⟨hok, ?_⟩, fun _ _ _ _ _ _ => ⟨_, rfl⟩⟩
      rw [← Except.ok.inj hresult]
      exact visitedRecords_sorted env all.state
    · rw [if_pos hok]
      exact ⟨fun result hresult => (by cases hresult), fun _ _ _ hall => absurd hall hok⟩
  | overLimit h =>
    rw [if_pos h.exceeded]
    exact ⟨fun result hresult => (by cases hresult),
      fun _ _ _ _ hlength => absurd h.further (not_lt.mpr hlength)⟩
  | outOfMemory h =>
    rw [if_neg (by simp [h.within]), if_pos h.memory]
    refine ⟨fun result hresult => (by cases hresult), fun _ _ _ _ _ hallocates => ?_⟩
    obtain ⟨p, capacity, hrefused⟩ := h.refused
    rw [hallocates] at hrefused
    cases hrefused

/-- The comparison is a strict total order on records of distinct source orders, and what is returned
is the one permutation of the visited forms that it sorts, however `qsort` finds it. -/
theorem morpheusGenerationNormalize_sorts (env : GenerateEnv σ) (service : GenerationService)
    {canonicalLemma : Bytes} (hfree : NulFree canonicalLemma) (limit : ℕ) (p : Process σ) :
    (∀ forms : Set NormalizedGeneration, forms.InjOn (·.sourceOrder) →
        StrictlyOrders normalizedGenerationCompare forms) ∧
      ∃ all q outcome, morpheusGenerationServiceGenerate env keepForm service canonicalLemma p [] = .ok all ∧
        morpheusGenerationNormalize env service canonicalLemma limit p = .ok (q, outcome) ∧
          NormalizesVisits env limit canonicalLemma all outcome := by
  refine ⟨fun forms h => normalizedGenerationCompare_orders h, ?_⟩
  unfold morpheusGenerationNormalize
  by_cases hinvalid : canonicalLemma = [] ∨ limit = 0 ∨ limit > generationHardLimit
  · obtain ⟨all, -, hall, -, -⟩ := @service_shadows σ env 0 service canonicalLemma (Nat.zero_le _) hfree p
    rw [if_pos hinvalid]
    refine ⟨all, _, _, hall, rfl, fun result hresult => (by cases hresult), fun hne hpos hlimit => ?_⟩
    rcases hinvalid with hnil | hzero | hbig
    · exact absurd hnil hne
    · omega
    · omega
  obtain ⟨all, run, hall, hrun, hshadows⟩ := @service_shadows σ env limit service canonicalLemma
    (by omega) hfree p
  rw [if_neg hinvalid]
  by_cases hmemory : (!env.memory p .normalized) = true
  · rw [if_pos hmemory]
    refine ⟨all, _, _, hall, rfl, fun result hresult => (by cases hresult), fun _ _ _ _ _ hallocates => ?_⟩
    exact absurd (hallocates p .normalized) (by simpa using hmemory)
  · rw [if_neg hmemory, hrun, ok_bind]
    exact ⟨all, _, _, hall, rfl, hshadows.normalizes canonicalLemma⟩

/-- The two forms of a noun come back in their one order. -/
theorem morpheusGenerationNormalize_sorts_logos :
    (∀ forms : Set NormalizedGeneration, forms.InjOn (·.sourceOrder) →
        StrictlyOrders normalizedGenerationCompare forms) ∧
      ∃ all q outcome, morpheusGenerationServiceGenerate (nounEnv fun _ => true) keepForm nounService
          (ascii "lo/gos") nounProcess [] = .ok all ∧
        morpheusGenerationNormalize (nounEnv fun _ => true) nounService (ascii "lo/gos") 2 nounProcess =
          .ok (q, outcome) ∧
        NormalizesVisits (nounEnv fun _ => true) 2 (ascii "lo/gos") all outcome :=
  morpheusGenerationNormalize_sorts (nounEnv fun _ => true) nounService (by decide) 2 nounProcess

end Normalized
end Morpheus
