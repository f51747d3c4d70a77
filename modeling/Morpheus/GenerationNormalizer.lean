import Morpheus.Comparison
import Morpheus.GenerationService
import Morpheus.PublicValues

/-!
# Normalized generations

The bridge of `generation_normalizer.c`: a visitor that turns the engine's forms into
public records, up to a limit, and the order in which the records are returned.
-/
namespace Morpheus
open Checked GenerIndex Comparison

/-- `MORPHEUS_GENERATION_RESULT_HARD_LIMIT` -/
def generationHardLimit : ℕ := 65536

/-- The size of `morpheus_normalized_generation`. -/
def normalizedGenerationSize : ℕ := 200

/-- `morpheus_normalized_generation`; its texts are C strings. -/
structure NormalizedGeneration where
  surface : Bytes
  lemma_ : Bytes
  partOfSpeech : PartOfSpeech
  dialect : UInt32
  geographicRegion : UInt32
  person : UInt32
  number : UInt32
  gender : UInt32
  grammaticalCase : UInt32
  tense : UInt32
  mood : UInt32
  voice : UInt32
  degree : UInt32
  morphFlags : PublicFlags
  truncatedFields : UInt32
  sourceOrder : ℕ
  surface_ok : NulFree surface
  lemma_ok : NulFree lemma_
  deriving DecidableEq

inductive NormalizeStatus
  | invalid
  | notFound
  | noMemory
  | engineError
  | limit
  deriving DecidableEq, Repr

/-- The dialect of a form as the legacy renderer calculates it. -/
def effectiveDialect (form : GkWord) : UInt32 :=
  let augment := form.aug1.dialect.toUInt32
  let ending := form.endstring.dialect.toUInt32
  let stem := form.stem.dialect.toUInt32
  let constraint := form.dialect.toUInt32
  let dialect := stem &&& ending
  let dialect :=
    if dialect = 0 then form.preverb.dialect.toUInt32 ||| augment ||| stem ||| ending
    else dialect
  let dialect := if augment ≠ 0 then dialect &&& augment else dialect
  if constraint ≠ 0 then dialect &&& constraint else dialect

/-- The record that `collect_form` makes of a form. -/
def normalizedForm (nameOfStemtype : UInt32 → Option Bytes) (form : GkWord) (sourceOrder : ℕ) :
    NormalizedGeneration :=
  let info := form.forminfo
  let partOfSpeech := morpheusPublicPartOfSpeech nameOfStemtype form.stemtype
  { surface := xstrncpy (cstr form.workword) textCapacity
    lemma_ := xstrncpy (cstr form.stLemma) textCapacity
    partOfSpeech
    dialect := morpheusPublicDialect (effectiveDialect form)
    geographicRegion := morpheusPublicRegion form.geogregion
    person := morpheusPublicPerson (UInt32.ofNat info.person.toNat)
    number := morpheusPublicNumber (UInt32.ofNat info.number.toNat)
    gender := morpheusPublicGender (UInt32.ofNat info.gender.toNat)
    grammaticalCase := morpheusPublicCase (UInt32.ofNat info.case_.toNat)
    tense := morpheusPublicTense (UInt32.ofNat info.tense.toNat)
    mood := morpheusPublicMood (UInt32.ofNat info.mood.toNat)
    voice := morpheusPublicVoice (UInt32.ofNat info.voice.toNat)
    degree := morpheusPublicDegree (UInt32.ofNat info.degree.toNat) partOfSpeech form.morphflags
    morphFlags := morpheusPublicMorphFlags form.morphflags
    truncatedFields :=
      (if (cstr form.workword).length ≥ textCapacity then 2 else 0) |||
        if (cstr form.stLemma).length ≥ textCapacity then 4 else 0
    sourceOrder
    surface_ok := (cstr_nulFree _).take _
    lemma_ok := (cstr_nulFree _).take _ }

/-- `collector` with the records of its result; they are counted by the length of the list. -/
structure Collector where
  records : List NormalizedGeneration
  capacity : ℕ
  limit : ℕ
  limitExceeded : Bool
  noMemory : Bool

/-- The capacity that `grow_result` asks for, `none` when it gives up before. -/
def grownCapacity (capacity limit : ℕ) : Option ℕ :=
  let wanted := if capacity ≠ 0 then capacity * 2 % 2 ^ 64 else 32
  let wanted := if wanted < capacity ∨ wanted > limit then limit else wanted
  if wanted ≤ capacity ∨ wanted > sizeMax / normalizedGenerationSize then none
  else some wanted

def compareU32 (left right : UInt32) : Int :=
  if left > right then 1 else if left < right then -1 else 0

def compareU64 (left right : ℕ) : Int := if left > right then 1 else if left < right then -1 else 0

/-- `memcmp` of two regions of one size. -/
def memcmp : Bytes → Bytes → Int
  | c :: s, d :: t => if c = d then memcmp s t else (c.toNat : Int) - d.toNat
  | _, _ => 0

/-- `morpheus_normalized_generation_compare` for two records that are there. -/
def normalizedGenerationCompare (left right : NormalizedGeneration) : Int :=
  let compareField (field : NormalizedGeneration → UInt32) :=
    compareU32 (field left) (field right)
  firstOrder
    [compareField (·.partOfSpeech.code), compareField (·.tense), compareField (·.voice),
      compareField (·.mood), compareField (·.degree), compareField (·.number),
      compareField (·.person), compareField (·.grammaticalCase), compareField (·.gender),
      compareField (·.dialect), compareField (·.geographicRegion),
      strcmp left.surface right.surface, strcmp left.lemma_ right.lemma_,
      memcmp (List.ofFn left.morphFlags) (List.ofFn right.morphFlags),
      compareU64 left.sourceOrder right.sourceOrder]

section
variable {σ : Type} (env : GenerateEnv σ)

/-- `collect_form` -/
def collectForm (p : Process σ) (collect : Collector) (form : GkWord) : Collector × Bool :=
  if collect.records.length = collect.limit then ({ collect with limitExceeded := true }, false)
  else
    let record := normalizedForm (env.nameOfStemtype p) form collect.records.length
    if collect.records.length = collect.capacity then
      match grownCapacity collect.capacity collect.limit with
      | none => ({ collect with noMemory := true }, false)
      | some capacity =>
        if env.memory p (.records capacity) then
          ({ collect with records := collect.records ++ [record], capacity }, true)
        else ({ collect with noMemory := true }, false)
    else ({ collect with records := collect.records ++ [record] }, true)

/-- `service_status` -/
def serviceStatus : GenerationStatus → NormalizeStatus
  | .notFound => .notFound
  | .noMemory => .noMemory
  | .invalid => .invalid
  | _ => .engineError

/-- `morpheus_generation_normalize` -/
def morpheusGenerationNormalize (service : GenerationService) (canonicalLemma : Bytes)
    (resultLimit : ℕ) (p : Process σ) :
    Checked (Process σ × Except NormalizeStatus (List NormalizedGeneration)) :=
  if canonicalLemma = [] ∨ resultLimit = 0 ∨ resultLimit > generationHardLimit then
    .ok (p, .error .invalid)
  else if !env.memory p .normalized then .ok (p, .error .noMemory)
  else do
    let run ← morpheusGenerationServiceGenerate env (collectForm env) service canonicalLemma p
      ⟨[], 0, resultLimit, false, false⟩
    let records := run.state.records
    return (run.process,
      if run.state.limitExceeded then .error .limit
      else if run.state.noMemory then .error .noMemory
      else if run.status ≠ .ok then .error (serviceStatus run.status)
      else if run.formCount ≠ records.length then .error .engineError
      else if records.length > 1 then .ok (sortBy normalizedGenerationCompare records)
      else .ok records)

end

open Checked GenerIndex Comparison

theorem memcmp_agrees {s t : Bytes} (h : s.length = t.length) :
    Agrees (memcmp s t) (rank id s) (rank id t) := by
  induction s generalizing t with
  | nil =>
    cases t with
    | nil => constructor <;> simp [memcmp]
    | cons d t => simp at h
  | cons c s ih =>
    cases t with
    | nil => simp at h
    | cons d t =>
      have hrest := ih (by simpa using h)
      by_cases hcd : c = d
      · subst hcd
        constructor
        · simp [memcmp, hrest.lt_iff]
        · simp [memcmp, hrest.eq_iff]
      · have hn : c.toNat ≠ d.toNat := fun he => hcd (UInt8.toNat_inj.mp he)
        constructor
        · simp [memcmp, hcd, hn, List.cons_lt_cons_iff]
        · simp [memcmp, hcd, hn]
          omega

theorem compareU32_agrees (left right : UInt32) :
    Agrees (compareU32 left right) [left.toNat] [right.toNat] := by
  have hlt : left < right ↔ left.toNat < right.toNat := UInt32.lt_iff_toNat_lt
  have hgt : left > right ↔ right.toNat < left.toNat := UInt32.lt_iff_toNat_lt
  constructor
  · simp only [compareU32, hlt, hgt, List.cons_lt_cons_iff]
    split_ifs <;> simp <;> omega
  · simp only [compareU32, hlt, hgt, List.cons.injEq]
    split_ifs <;> simp <;> omega

theorem compareU64_agrees (left right : ℕ) :
    Agrees (compareU64 left right) [left] [right] := by
  constructor
  · simp only [compareU64, List.cons_lt_cons_iff]
    split_ifs <;> simp <;> omega
  · simp only [compareU64, List.cons.injEq]
    split_ifs <;> simp <;> omega

/-- The fields of a record in the order of the comparison. -/
def orderKey (r : NormalizedGeneration) : List (List ℕ) :=
  [[r.partOfSpeech.code.toNat], [r.tense.toNat], [r.voice.toNat], [r.mood.toNat],
    [r.degree.toNat], [r.number.toNat], [r.person.toNat], [r.grammaticalCase.toNat],
    [r.gender.toNat], [r.dialect.toNat], [r.geographicRegion.toNat], rank id r.surface,
    rank id r.lemma_, rank id (List.ofFn r.morphFlags), [r.sourceOrder]]

/-- Records are compared field after field. -/
theorem normalizedGenerationCompare_agrees (left right : NormalizedGeneration) :
    Agrees (normalizedGenerationCompare left right) (orderKey left) (orderKey right) := by
  have hflags : Agrees (memcmp (List.ofFn left.morphFlags) (List.ofFn right.morphFlags))
      (rank id (List.ofFn left.morphFlags)) (rank id (List.ofFn right.morphFlags)) :=
    memcmp_agrees (by simp)
  have hlemma := strcmp_agrees left.lemma_ok right.lemma_ok
  have hsurface := strcmp_agrees left.surface_ok right.surface_ok
  unfold normalizedGenerationCompare orderKey
  dsimp only
  iterate 11 apply (compareU32_agrees _ _).cons
  apply hsurface.cons
  apply hlemma.cons
  apply hflags.cons
  apply (compareU64_agrees _ _).cons
  exact agrees_nil

theorem orderKey_sourceOrder {left right : NormalizedGeneration}
    (h : left.sourceOrder ≠ right.sourceOrder) : orderKey left ≠ orderKey right := by
  intro heq
  apply h
  simp only [orderKey, List.cons.injEq] at heq
  tauto

section
variable {σ : Type} (env : GenerateEnv σ) (service : GenerationService) (lemma_ : Bytes)

/-- The records that the engine's forms for an index record become, numbered from `start`;
`none` when the engine fails. -/
def recordForms (record : RecordView) (p : Process σ) (start : ℕ) :
    Process σ × Option (List NormalizedGeneration) :=
  match record.stem, record.keys with
  | some stem, some keys =>
    let (p, forms) := engineForms env p lemma_ stem keys record.kind
    (p, if (p.contexts service.context).runtimeError ≠ .none then none
      else forms.map fun forms => ((arrayForms forms).zipIdx start).map fun form =>
        normalizedForm (env.nameOfStemtype p) form.1 form.2)
  | _, _ => (p, none)

def viewsForms : List RecordView → Process σ → ℕ → Option (List NormalizedGeneration)
  | [], _, _ => some []
  | view :: views, p, start =>
    let (p, forms) := recordForms env service lemma_ view p start
    forms.bind fun forms => (viewsForms views p (start + forms.length)).map (forms ++ ·)

/-- All forms of a lemma, without a limit on them: what the engine makes of the records of
its index blocks, in their order. There are none for a lemma that is not indexed. -/
def lemmaForms (p : Process σ) : Option (List NormalizedGeneration) :=
  match serviceRecords service.index lemma_ with
  | .ok (.ok blocks) => viewsForms env service lemma_ blocks.flatten (enterService service p) 0
  | .ok (.error .notFound) => some []
  | _ => none

end

open Checked GenerIndex Comparison

section
variable {σ : Type} {env : GenerateEnv σ} {limit : ℕ}

/-- A collection under way: nothing went wrong, and the records are numbered by their places. -/
structure Collecting (limit : ℕ) (records : List NormalizedGeneration)
    (run : Generating σ Collector) : Prop where
  status : run.status = .ok
  records_eq : run.state.records = records
  formCount : run.formCount = records.length
  limit_eq : run.state.limit = limit
  length_le : records.length ≤ run.state.capacity
  capacity_le : run.state.capacity ≤ limit
  within : run.state.limitExceeded = false
  memory : run.state.noMemory = false
  orders : records.map (·.sourceOrder) = List.range records.length

/-- The limit was reached before all of the forms, when the engine makes them all. -/
structure Exceeded (limit : ℕ) (records : List NormalizedGeneration)
    (forms : Option (List NormalizedGeneration)) (run : Generating σ Collector) : Prop where
  status : run.status ≠ .ok
  exceeded : run.state.limitExceeded = true
  too_many : ∀ forms', forms = some forms' → limit < records.length + forms'.length

/-- An allocation failed. -/
structure Refused (env : GenerateEnv σ) (run : Generating σ Collector) : Prop where
  status : run.status ≠ .ok
  within : run.state.limitExceeded = false
  noMemory : run.state.noMemory = true ∨ run.status = .noMemory
  refused : ∃ p allocation, env.memory p allocation = false

/-- How collecting further forms ends, `none` when the engine does not make them all. -/
inductive Collected (env : GenerateEnv σ) (limit : ℕ) (records : List NormalizedGeneration) :
    Option (List NormalizedGeneration) → Generating σ Collector → Prop
  | all {forms run} (h : Collecting limit (records ++ forms) run) :
      Collected env limit records (some forms) run
  | exceeded {forms run} (h : Exceeded limit records forms run) :
      Collected env limit records forms run
  | refused {forms run} (h : Refused env run) : Collected env limit records forms run
  | failed {run} (hstatus : run.status = .noMemory ∨ run.status = .engineError)
      (hwithin : run.state.limitExceeded = false) : Collected env limit records none run

theorem Collected.status_ok {records : List NormalizedGeneration}
    {forms : Option (List NormalizedGeneration)} {run : Generating σ Collector}
    (h : Collected env limit records forms run) (hok : run.status = .ok) :
    ∃ forms', forms = some forms' ∧ Collecting limit (records ++ forms') run := by
  cases h with
  | all h => exact ⟨_, rfl, h⟩
  | exceeded h => exact absurd hok h.status
  | refused h => exact absurd hok h.status
  | failed hstatus _ =>
    rw [hok] at hstatus
    simp at hstatus

/-- The capacity can grow while it is below the limit. -/
theorem grownCapacity_spec {capacity : ℕ} (hlimit : limit ≤ generationHardLimit)
    (h : capacity < limit) :
    ∃ grown, grownCapacity capacity limit = some grown ∧ capacity < grown ∧ grown ≤ limit := by
  have hhard : generationHardLimit = 65536 := rfl
  have hmax : sizeMax / normalizedGenerationSize = 92233720368547758 := by decide
  have hgrown : ∀ wanted, capacity < wanted → wanted ≤ limit →
      ¬(wanted ≤ capacity ∨ wanted > sizeMax / normalizedGenerationSize) := by
    intro wanted _ _
    rw [hmax]
    omega
  unfold grownCapacity
  dsimp only
  generalize hw : (if capacity ≠ 0 then capacity * 2 % 2 ^ 64 else 32) = wanted
  have hlt : capacity < wanted := by
    split_ifs at hw <;> omega
  by_cases hbig : wanted < capacity ∨ wanted > limit
  · rw [if_pos hbig, if_neg (hgrown limit h le_rfl)]
    exact ⟨limit, rfl, h, le_rfl⟩
  · rw [if_neg hbig, if_neg (hgrown wanted hlt (by omega))]
    exact ⟨wanted, rfl, hlt, by omega⟩

/-- One form behind those collected so far. -/
theorem Collecting.collectForm (env : GenerateEnv σ) {records : List NormalizedGeneration} {p : Process σ}
    {collect : Collector} {count : ℕ} (hlimit : limit ≤ generationHardLimit)
    (h : Collecting limit records ⟨p, collect, count, .ok⟩) (form : GkWord) :
    let visited := Morpheus.collectForm env p collect form
    let record := normalizedForm (env.nameOfStemtype p) form records.length
    (visited.2 = true ∧
        Collecting limit (records ++ [record]) ⟨p, visited.1, count + 1, .ok⟩) ∨
      (visited.2 = false ∧ visited.1.limitExceeded = true ∧ records.length = limit) ∨
      (visited.2 = false ∧ Refused env ⟨p, visited.1, count + 1, .stopped⟩) := by
  obtain ⟨-, hrecords, hcount, hlimeq, hlen, hcap, hwithin, hmemory, horders⟩ := h
  dsimp only at hrecords hcount hlimeq hlen hcap hwithin hmemory
  have horders' : ∀ record : NormalizedGeneration, record.sourceOrder = records.length →
      (records ++ [record]).map (·.sourceOrder) = List.range (records ++ [record]).length := by
    intro record hrecord
    rw [List.map_append, horders, List.length_append, List.length_singleton, List.range_succ]
    simp [hrecord]
  dsimp only
  unfold Morpheus.collectForm
  rw [hrecords, hlimeq]
  by_cases hfull : records.length = limit
  · rw [if_pos hfull]
    exact .inr (.inl ⟨rfl, rfl, hfull⟩)
  rw [if_neg hfull]
  dsimp only
  by_cases hroom : records.length = collect.capacity
  · obtain ⟨grown, hgrown, hlt, hle⟩ := grownCapacity_spec hlimit
      (show collect.capacity < limit by omega)
    rw [if_pos hroom, hgrown]
    dsimp only
    cases hallocated : env.memory p (.records grown) with
    | true =>
      rw [if_pos rfl]
      left
      refine ⟨rfl, rfl, rfl, ?_, rfl, ?_, hle, hwithin, hmemory, horders' _ rfl⟩
      · simp [hcount]
      · simp only [List.length_append, List.length_singleton]
        omega
    | false =>
      rw [if_neg (by simp)]
      exact .inr (.inr ⟨rfl, by simp, hwithin, .inl rfl, _, _, hallocated⟩)
  · rw [if_neg hroom]
    left
    refine ⟨rfl, rfl, rfl, ?_, rfl, ?_, hcap, hwithin, hmemory, horders' _ rfl⟩
    · simp [hcount]
    · simp only [List.length_append, List.length_singleton]
      omega

/-- The forms of one array. -/
theorem Collecting.visitForms (env : GenerateEnv σ) {p : Process σ} (hlimit : limit ≤ generationHardLimit)
    (forms : List GkWord) {records : List NormalizedGeneration} {collect : Collector} {count : ℕ}
    (h : Collecting limit records ⟨p, collect, count, .ok⟩) :
    (Morpheus.visitForms (Morpheus.collectForm env) p forms collect count).process = p ∧
    Collected env limit records
      (some ((forms.zipIdx records.length).map fun form =>
        normalizedForm (env.nameOfStemtype p) form.1 form.2))
      (Morpheus.visitForms (Morpheus.collectForm env) p forms collect count) := by
  induction forms generalizing records collect count with
  | nil => exact ⟨rfl, .all (by simpa [Morpheus.visitForms] using h)⟩
  | cons form forms ih =>
    have hhard : generationHardLimit = 65536 := rfl
    have hmax : sizeMax = 18446744073709551615 := rfl
    have hcount : count ≠ sizeMax := by
      have h1 := h.formCount
      have h2 := h.length_le
      have h3 := h.capacity_le
      dsimp only at h1 h2 h3
      omega
    rw [Morpheus.visitForms, if_neg hcount]
    dsimp only
    rcases h.collectForm env hlimit form with ⟨hmore, hnext⟩ | ⟨hstop, hexceeded, hfull⟩ |
      ⟨hstop, hrefused⟩
    · rw [if_pos hmore]
      obtain ⟨hprocess, hcollected⟩ := ih hnext
      refine ⟨hprocess, ?_⟩
      rw [List.length_append, List.length_singleton] at hcollected
      rw [List.zipIdx_cons, List.map_cons]
      cases hcollected with
      | all hall => exact .all (by simpa using hall)
      | exceeded hmany =>
        refine .exceeded ⟨hmany.status, hmany.exceeded, ?_⟩
        intro forms' hforms
        have hlt := hmany.too_many _ rfl
        cases hforms
        simp only [List.length_append, List.length_cons, List.length_nil] at hlt ⊢
        omega
      | refused hrefused => exact .refused hrefused
    · rw [if_neg (by simp [hstop])]
      refine ⟨rfl, .exceeded ⟨by simp, hexceeded, ?_⟩⟩
      intro forms' hforms
      cases hforms
      simp only [List.length_map, List.length_zipIdx, List.length_cons]
      omega
    · rw [if_neg (by simp [hstop])]
      exact ⟨rfl, .refused hrefused⟩

theorem runtimeStatus_eq (context : RuntimeContext) :
    runtimeStatus context = .noMemory ∨ runtimeStatus context = .engineError := by
  unfold runtimeStatus
  cases context.runtimeError <;> simp

/-- The forms of one index record. -/
theorem Collecting.generateRecord (env : GenerateEnv σ) (service : GenerationService)
    (lemma_ : Bytes) (hlimit : limit ≤ generationHardLimit) {view : RecordView}
    (hview : view.stem ≠ none ∧ view.keys ≠ none) {records : List NormalizedGeneration}
    {run : Generating σ Collector} (h : Collecting limit records run) :
    ∃ next, Morpheus.generateRecord env (Morpheus.collectForm env) service lemma_ view run.process
        run.state run.formCount = .ok next ∧
      Collected env limit records
        (recordForms env service lemma_ view run.process records.length).2 next ∧
      (next.status = .ok →
        next.process = (recordForms env service lemma_ view run.process records.length).1) := by
  obtain ⟨p, collect, count, status⟩ := run
  have hstatus : status = .ok := h.status
  subst hstatus
  obtain ⟨kind, stem, keys⟩ := view
  obtain ⟨stem, rfl⟩ := Option.ne_none_iff_exists'.mp hview.1
  obtain ⟨keys, rfl⟩ := Option.ne_none_iff_exists'.mp hview.2
  unfold Morpheus.generateRecord recordForms
  dsimp only
  by_cases hkeys : env.memory p (.keys keys.length) = true
  · rw [if_neg (by simp [hkeys])]
    cases hengine : engineForms env p lemma_ stem keys kind with
    | mk p' forms =>
      dsimp only
      cases forms with
      | none =>
        refine ⟨_, rfl, ?_, fun _ => rfl⟩
        rw [Option.map_none, ite_self]
        exact .failed (runtimeStatus_eq _) h.within
      | some forms =>
        dsimp only
        by_cases herror : (p'.contexts service.context).runtimeError ≠ .none
        · rw [if_pos herror, if_pos herror]
          exact ⟨_, rfl, .failed (runtimeStatus_eq _) h.within, fun _ => rfl⟩
        · rw [if_neg herror, if_neg herror]
          have hcollecting : Collecting limit records ⟨p', collect, count, .ok⟩ :=
            ⟨rfl, h.records_eq, h.formCount, h.limit_eq, h.length_le, h.capacity_le, h.within,
              h.memory, h.orders⟩
          obtain ⟨hprocess, hcollected⟩ := hcollecting.visitForms env hlimit
            (arrayForms forms)
          exact ⟨_, rfl, hcollected, fun _ => hprocess⟩
  · rw [if_pos (by simp [hkeys])]
    refine ⟨_, rfl, .refused ⟨by simp, h.within, .inr rfl, p, _, by simpa using hkeys⟩, ?_⟩
    simp

/-- The forms of the index records of a lemma. -/
theorem Collecting.generateViews (env : GenerateEnv σ) (service : GenerationService)
    (lemma_ : Bytes) (hlimit : limit ≤ generationHardLimit) {views : List RecordView}
    (hviews : ∀ view ∈ views, view.stem ≠ none ∧ view.keys ≠ none)
    {records : List NormalizedGeneration} {run : Generating σ Collector}
    (h : Collecting limit records run) :
    ∃ next, Morpheus.generateViews env (Morpheus.collectForm env) service lemma_ views run =
        .ok next ∧
      Collected env limit records
        (viewsForms env service lemma_ views run.process records.length) next := by
  induction views generalizing records run with
  | nil => exact ⟨run, rfl, .all (by simpa using h)⟩
  | cons view views ih =>
    obtain ⟨hview, hviews⟩ := List.forall_mem_cons.mp hviews
    obtain ⟨next, hnext, hcollected, hprocess⟩ :=
      h.generateRecord env service lemma_ hlimit hview
    rw [Morpheus.generateViews, hnext, ok_bind, viewsForms]
    dsimp only
    cases hforms : recordForms env service lemma_ view run.process records.length with
    | mk p' forms =>
      rw [hforms] at hcollected hprocess
      dsimp only at hcollected hprocess ⊢
      by_cases hok : next.status = .ok
      · rw [if_neg (not_not.mpr hok)]
        obtain ⟨forms', rfl, hcollecting⟩ := hcollected.status_ok hok
        obtain ⟨last, hlast, hcollected'⟩ := ih hviews hcollecting
        rw [hprocess hok, List.length_append] at hcollected'
        refine ⟨last, hlast, ?_⟩
        rw [Option.bind_some]
        generalize viewsForms env service lemma_ views p' (records.length + forms'.length) = rest
          at hcollected'
        cases hcollected' with
        | all hall => exact .all (by simpa using hall)
        | exceeded hmany =>
          refine .exceeded ⟨hmany.status, hmany.exceeded, ?_⟩
          intro all hall
          obtain ⟨rest', hrest, rfl⟩ := Option.map_eq_some_iff.mp hall
          have hlt := hmany.too_many _ hrest
          simp only [List.length_append] at hlt ⊢
          omega
        | refused hrefused => exact .refused hrefused
        | failed hstatus hwithin => exact .failed hstatus hwithin
      · rw [if_pos hok]
        refine ⟨next, rfl, ?_⟩
        cases hcollected with
        | all hall => exact absurd hall.status hok
        | exceeded hmany =>
          refine .exceeded ⟨hok, hmany.exceeded, ?_⟩
          intro all hall
          obtain ⟨forms', hforms', hrest⟩ := Option.bind_eq_some_iff.mp hall
          obtain ⟨rest, -, rfl⟩ := Option.map_eq_some_iff.mp hrest
          have hlt := hmany.too_many _ hforms'
          simp only [List.length_append]
          omega
        | refused hrefused => exact .refused hrefused
        | failed hstatus hwithin => exact .failed hstatus hwithin


/-- What the normalizer of a lemma returns, by the forms that the engine makes. -/
inductive NormalizedAs (env : GenerateEnv σ) (limit : ℕ) :
    Option (List NormalizedGeneration) → Except NormalizeStatus (List NormalizedGeneration) → Prop
  | notFound : NormalizedAs env limit (some []) (.error .notFound)
  | all {forms normalized} (hlength : forms.length ≤ limit) (hperm : normalized.Perm forms)
      (hsorted : normalized.Pairwise fun left right => normalizedGenerationCompare left right < 0) :
      NormalizedAs env limit (some forms) (.ok normalized)
  | exceeded {forms} (h : ∀ forms', forms = some forms' → limit < forms'.length) :
      NormalizedAs env limit forms (.error .limit)
  | refused {forms} (h : ∃ p allocation, env.memory p allocation = false) :
      NormalizedAs env limit forms (.error .noMemory)
  | failed {status} (h : status ≠ .notFound) (h' : status ≠ .limit) :
      NormalizedAs env limit none (.error status)

/-- The sorted records, given that they are numbered by their places. -/
theorem normalized_sorted {records : List NormalizedGeneration}
    (h : records.map (·.sourceOrder) = List.range records.length) :
    (sortBy normalizedGenerationCompare records).Pairwise fun left right =>
      normalizedGenerationCompare left right < 0 := by
  apply sortBy_ascends normalizedGenerationCompare_agrees
  have hdistinct : (records.map (·.sourceOrder)).Nodup := by
    rw [h]
    exact List.nodup_range
  exact (List.pairwise_map.mp hdistinct).imp orderKey_sourceOrder

theorem morpheusGenerationNormalize_eq (env : GenerateEnv σ) (service : GenerationService) {canonicalLemma : Bytes}
    (hne : canonicalLemma ≠ []) (hfree : NulFree canonicalLemma) (hpos : limit ≠ 0)
    (hlimit : limit ≤ generationHardLimit) (p : Process σ) :
    ∃ q outcome, morpheusGenerationNormalize env service canonicalLemma limit p =
        .ok (q, outcome) ∧
      NormalizedAs env limit (lemmaForms env service canonicalLemma p) outcome := by
  have hstart : Collecting limit [] (⟨enterService service p, ⟨[], 0, limit, false, false⟩, 0, .ok⟩ :
      Generating σ Collector) :=
    ⟨rfl, rfl, rfl, rfl, le_rfl, Nat.zero_le _, rfl, rfl, rfl⟩
  unfold morpheusGenerationNormalize lemmaForms
  rw [if_neg (by simp [hne, hpos]; omega)]
  by_cases hmemory : env.memory p .normalized = true
  · rw [if_neg (by simp [hmemory])]
    rcases serviceGenerate_eq env (collectForm env) service hne hfree p
      ⟨[], 0, limit, false, false⟩ with ⟨hrecords, hrun⟩ | ⟨blocks, hrecords, hviews, hrun⟩
    · rw [hrun, hrecords, ok_bind]
      exact ⟨_, _, rfl, .notFound⟩
    · obtain ⟨run, hviewsRun, hcollected⟩ := hstart.generateViews env service
        canonicalLemma hlimit hviews
      rw [hrun, hrecords, hviewsRun, ok_bind, ok_bind]
      refine ⟨_, _, rfl, ?_⟩
      dsimp only
      dsimp only [List.length_nil] at hcollected
      generalize viewsForms env service canonicalLemma blocks.flatten (enterService service p) 0 =
        forms at hcollected
      cases hcollected with
      | all hall =>
        rename_i forms
        rw [List.nil_append] at hall
        have hlength : forms.length ≤ limit := hall.length_le.trans hall.capacity_le
        have horders := hall.orders
        rw [hall.within, hall.memory, if_neg (by simp), if_neg (by simp),
          if_neg (not_not.mpr hall.status), hall.records_eq,
          if_neg (not_not.mpr hall.formCount)]
        by_cases hmany : forms.length > 1
        · rw [if_pos hmany]
          exact .all hlength (sortBy_perm _ _) (normalized_sorted horders)
        · rw [if_neg hmany]
          refine .all hlength (.refl _) ?_
          cases forms with
          | nil => exact .nil
          | cons form rest =>
            have hrest : rest = [] := List.length_eq_zero_iff.mp (by simpa using hmany)
            subst hrest
            exact List.pairwise_singleton _ _
      | exceeded hmany =>
        rw [hmany.exceeded, if_pos rfl]
        refine .exceeded ?_
        intro forms' hforms
        simpa using hmany.too_many forms' hforms
      | refused hrefused =>
        rw [hrefused.within, if_neg (by simp)]
        rcases hrefused.noMemory with hflag | hstatus
        · rw [hflag, if_pos rfl]
          exact .refused hrefused.refused
        · rw [if_pos hrefused.status, hstatus]
          split_ifs
          · exact .refused hrefused.refused
          · exact .refused hrefused.refused
      | failed hstatus hwithin =>
        rw [hwithin, if_neg (by simp)]
        by_cases hflag : run.state.noMemory = true
        · rw [if_pos hflag]
          exact .failed (by simp) (by simp)
        · rw [if_neg hflag]
          rcases hstatus with hstatus | hstatus
          · rw [hstatus, if_pos (by simp)]
            exact .failed (by simp [serviceStatus]) (by simp [serviceStatus])
          · rw [hstatus, if_pos (by simp)]
            exact .failed (by simp [serviceStatus]) (by simp [serviceStatus])
  · rw [if_pos (by simp [hmemory])]
    exact ⟨_, _, rfl, .refused ⟨p, _, by simpa using hmemory⟩⟩

end

end Morpheus
