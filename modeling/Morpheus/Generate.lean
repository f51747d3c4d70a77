import Morpheus.Analyze
import Morpheus.GenerIndexCanonical
import Morpheus.GenerationNormalizer

/-!
# One generation call

`morpheus_generate` of `generation.c`: the checks of the request, the service that is
opened with the first request of a context, and the filter and the limit of the caller.
-/
namespace Morpheus
open Checked GenerIndex

/-- `MORPHEUS_GENERATION_OPTIONS_VERSION` -/
def generationOptionsVersion : UInt32 := 1

/-- `MORPHEUS_GENERATION_DEFAULT_LIMIT` -/
def generationDefaultLimit : ℕ := 4096

/-- `MORPHEUS_GENERATION_MAX_LIMIT` -/
def generationMaxLimit : ℕ := 65536

/-- `MORPHEUS_GENERATION_EXCLUDE_DUALS` -/
def excludeDuals : UInt32 := 1

/-- `MORPHEUS_NUMBER_DUAL` -/
def numberDual : UInt32 := 2

/-- `MORPHEUS_REGION_KNOWN_MASK` -/
def regionKnownMask : UInt32 := 32767

/-- The size of `morpheus_generation_options`. -/
def generationOptionsSize : ℕ := 64

structure MorpheusGenerationOptions where
  version : UInt32
  structSize : UInt32
  resultLimit : UInt64
  flags : UInt32
  partOfSpeech : UInt32
  dialect : UInt32
  geographicRegion : UInt32
  person : UInt32
  number : UInt32
  gender : UInt32
  grammaticalCase : UInt32
  tense : UInt32
  mood : UInt32
  voice : UInt32
  degree : UInt32
  deriving DecidableEq, Repr

/-- A trait of a request that `validate_options` refuses. -/
def optionsRefused (options : MorpheusGenerationOptions) : Bool :=
  options.partOfSpeech > PartOfSpeech.interjection.code ||
    options.person > 3 || options.number > 3 || options.tense > 8 || options.mood > 9 ||
    options.degree > 3 || options.gender &&& ~~~15 != 0 ||
    options.grammaticalCase &&& ~~~63 != 0 || options.voice &&& ~~~7 != 0 ||
    options.dialect &&& ~~~dialectKnownMask != 0 ||
    options.geographicRegion &&& ~~~regionKnownMask != 0 ||
    (options.flags &&& excludeDuals != 0 && options.number == numberDual)

/-- `validate_options`: the limit of the request. -/
def validateOptions : Option MorpheusGenerationOptions → Except MorpheusStatus ℕ
  | none => .ok generationDefaultLimit
  | some options =>
    if options.version ≠ generationOptionsVersion ∨
        options.structSize.toNat < generationOptionsSize then
      .error .abiMismatch
    else if options.flags &&& ~~~excludeDuals ≠ 0 then .error .invalidArgument
    else if optionsRefused options then .error .invalidArgument
    else
      let requested :=
        if options.resultLimit ≠ 0 then options.resultLimit.toNat else generationDefaultLimit
      if requested > generationMaxLimit then .error .invalidArgument else .ok requested

/-- `mask_matches` -/
def maskMatches (filter value : UInt32) : Bool := filter == 0 || filter &&& value != 0

/-- A trait that is not asked for, or is the one of the form. -/
def traitMatches (filter value : UInt32) : Bool := filter == 0 || filter == value

/-- `generation_matches` -/
def generationMatches (options : Option MorpheusGenerationOptions)
    (generation : NormalizedGeneration) : Bool :=
  match options with
  | none => true
  | some options =>
    traitMatches options.partOfSpeech generation.partOfSpeech.code &&
      traitMatches options.person generation.person &&
      traitMatches options.number generation.number &&
      traitMatches options.tense generation.tense &&
      traitMatches options.mood generation.mood &&
      traitMatches options.degree generation.degree &&
      (options.dialect == 0 || generation.dialect == 0 ||
        options.dialect &&& generation.dialect != 0) &&
      maskMatches options.geographicRegion generation.geographicRegion &&
      maskMatches options.gender generation.gender &&
      maskMatches options.grammaticalCase generation.grammaticalCase &&
      maskMatches options.voice generation.voice &&
      !(options.flags &&& excludeDuals != 0 && generation.number == numberDual)

structure MorpheusGeneration where
  structSize : ℕ
  partOfSpeech : PartOfSpeech
  dialect : UInt32
  geographicRegion : UInt32
  person : UInt32
  number : UInt32
  gender : UInt32
  grammaticalCase : UInt32
  tense : UInt32
  mood : UInt32
  voice : UInt32
  degree : UInt32
  surface : Bytes
  lemma_ : Bytes
  morphFlags : PublicFlags
  deriving DecidableEq

/-- The size of `morpheus_generation`. -/
def morpheusGenerationSize : ℕ := 188

/-- `copy_generation`, with the truncation mask that is kept beside it. -/
def copyGeneration (source : NormalizedGeneration) : MorpheusGeneration × UInt32 :=
  ({ structSize := morpheusGenerationSize
     partOfSpeech := source.partOfSpeech
     dialect := source.dialect
     geographicRegion := source.geographicRegion
     person := source.person
     number := source.number
     gender := source.gender
     grammaticalCase := source.grammaticalCase
     tense := source.tense
     mood := source.mood
     voice := source.voice
     degree := source.degree
     surface := source.surface
     lemma_ := source.lemma_
     morphFlags := source.morphFlags }, source.truncatedFields)

/-- `morpheus_generation_result` -/
abbrev GenerationResult := List (MorpheusGeneration × UInt32)

/-- The first loop of `morpheus_generate` over the normalized records: the number that
matches, `none` when it exceeds the limit. -/
def countMatches (options : Option MorpheusGenerationOptions) (limit : ℕ) :
    List NormalizedGeneration → ℕ → Option ℕ
  | [], output => some output
  | item :: items, output =>
    if generationMatches options item then
      if output + 1 > limit then none else countMatches options limit items (output + 1)
    else countMatches options limit items output

/-- The second loop. -/
def copyMatches (options : Option MorpheusGenerationOptions) :
    List NormalizedGeneration → GenerationResult
  | [] => []
  | item :: items =>
    if !generationMatches options item then copyMatches options items
    else copyGeneration item :: copyMatches options items

/-- `normalize_status` -/
def normalizeStatus : NormalizeStatus → MorpheusStatus
  | .noMemory => .noMemory
  | .limit => .resultLimitExceeded
  | _ => .internalError

/-- An index that was opened. -/
structure OpenIndex where
  index : Index
  valid : ∃ image, validLayout image = .ok index

section
variable {σ : Type} (env : GenerateEnv σ)

/-- `morpheus_gener_index_open_file` -/
def morpheusGenerIndexOpenFile (p : Process σ) (path : Bytes) : Except Status OpenIndex :=
  match env.file p.engine path with
  | none => .error .ioError
  | some bytes =>
    if hfit : bytes.length ≤ sizeMax then
      if bytes = [] then .error .ioError
      else if !env.memory p .indexFile then .error .noMemory
      else if !env.memory p .index then .error .noMemory
      else
        match hvalid : validLayout ⟨bytes, hfit⟩ with
        | .ok index => .ok ⟨index, _, hvalid⟩
        | .error _ => .error .invalid
    else .error .ioError

/-- `morpheus_generation_service_create_at_path` with the index and path of a context. -/
def createService (p : Process σ) (opened : OpenIndex) (root : Bytes) :
    Process σ × Option GenerationService :=
  if !env.memory p .service then (p, none)
  else if !env.memory p .serviceContext then (p, none)
  else
    let created := ContextId.heap p.created
    let p := { p with created := p.created + 1 }
    if !env.memory p .serviceRoot then (p, none)
    else
      (p.update created fun _ => { RuntimeContext.zero with stemlibPath := some root },
        some ⟨opened.index, opened.valid, created⟩)

/-- `ensure_generation_service` -/
def ensureGenerationService (p : Process σ) (c : ContextId) :
    Checked (Process σ × Except MorpheusStatus GenerationService) :=
  match (p.contexts c).generationService, (p.contexts c).stemlibPath with
  | some service, _ => .ok (p, .ok service)
  | none, none => fault .nullPointer
  | none, some root =>
    if root.length > sizeMax - 13 then .ok (p, .error .inputTooLong)
    else if !env.memory p .path then .ok (p, .error .noMemory)
    else
      match morpheusGenerIndexOpenFile env p (root ++ ascii "/gener.index") with
      | .error .noMemory => .ok (p, .error .noMemory)
      | .error _ => .ok (p, .error .stemlibError)
      | .ok opened =>
        match createService env p opened root with
        | (p, none) => .ok (p, .error .noMemory)
        | (p, some service) =>
          .ok (p.update c fun context => { context with generationService := some service },
            .ok service)

/-- The part of `morpheus_generate` behind the normalizer. -/
def filterGenerations (p : Process σ) (options : Option MorpheusGenerationOptions) (limit : ℕ) :
    Except NormalizeStatus (List NormalizedGeneration) → Returned σ GenerationResult
  | .error .notFound =>
    if env.memory p (.result 0) then ⟨.ok, p, some []⟩ else ⟨.noMemory, p, none⟩
  | .error status => ⟨normalizeStatus status, p, none⟩
  | .ok normalized =>
    match countMatches options limit normalized 0 with
    | none => ⟨.resultLimitExceeded, p, none⟩
    | some output =>
      if env.memory p (.result output) then ⟨.ok, p, some (copyMatches options normalized)⟩
      else ⟨.noMemory, p, none⟩

/-- The statuses of a lemma that is refused. -/
def lemmaStatus : ApiStatus → MorpheusStatus
  | .invalidArgument => .invalidArgument
  | .inputTooLong => .inputTooLong

/-- `morpheus_generate` behind the test of its pointers: `*result` is `NULL` from here on. -/
def runGeneration (p : Process σ) (c : ContextId) (request : Bytes)
    (options : Option MorpheusGenerationOptions) : Checked (Returned σ GenerationResult) :=
  if (p.contexts c).language ≠ greek then .ok ⟨.invalidArgument, p, none⟩
  else
    match validateOptions options with
    | .error status => .ok ⟨status, p, none⟩
    | .ok limit =>
      match canonicalRequest request with
      | .error status => .ok ⟨lemmaStatus status, p, none⟩
      | .ok canonical => do
        match ← ensureGenerationService env p c with
        | (p, .error status) => return ⟨status, p, none⟩
        | (p, .ok service) => do
          let normalized ← morpheusGenerationNormalize env service canonical generationMaxLimit p
          return filterGenerations env normalized.1 options limit normalized.2

/-- The arguments of a call, `none` for a `NULL` pointer; `result` is what `*result` is before. -/
structure GenerateCall where
  context : Option ContextId
  lemma_ : Option Bytes
  options : Option MorpheusGenerationOptions
  result : Option (Option GenerationResult)

/-- `morpheus_generate` -/
def morpheusGenerate (p : Process σ) (call : GenerateCall) :
    Checked (Returned σ (Option GenerationResult)) :=
  match call.context, call.lemma_, call.result with
  | some c, some request, some _ => do
    let returned ← runGeneration env p c request call.options
    return ⟨returned.status, returned.process, some returned.result⟩
  | _, _, _ => .ok ⟨.invalidArgument, p, call.result⟩

end

open Checked GenerIndex

theorem countMatches_eq (options : Option MorpheusGenerationOptions) (limit : ℕ)
    (items : List NormalizedGeneration) {output : ℕ} (h : output ≤ limit) :
    countMatches options limit items output =
      if limit < output + (items.filter (generationMatches options)).length then none
      else some (output + (items.filter (generationMatches options)).length) := by
  induction items generalizing output with
  | nil =>
    rw [countMatches, List.filter_nil, List.length_nil, Nat.add_zero, if_neg (by omega)]
  | cons item items ih =>
    rw [countMatches]
    cases hmatch : generationMatches options item with
    | false => rw [if_neg (by simp), ih h, List.filter_cons_of_neg (by simp [hmatch])]
    | true =>
      rw [if_pos rfl, List.filter_cons_of_pos hmatch, List.length_cons]
      by_cases hmany : output + 1 > limit
      · rw [if_pos hmany, if_pos (by omega)]
      · have hsum : output + 1 + (items.filter (generationMatches options)).length =
            output + ((items.filter (generationMatches options)).length + 1) := by omega
        rw [if_neg hmany, ih (by omega), hsum]

theorem copyMatches_eq (options : Option MorpheusGenerationOptions)
    (items : List NormalizedGeneration) :
    copyMatches options items = (items.filter (generationMatches options)).map copyGeneration := by
  induction items with
  | nil => rfl
  | cons item items ih =>
    rw [copyMatches]
    cases hmatch : generationMatches options item with
    | false => rw [if_pos (by simp), ih, List.filter_cons_of_neg (by simp [hmatch])]
    | true => rw [if_neg (by simp), ih, List.filter_cons_of_pos hmatch, List.map_cons]

theorem canonicalRequest_ok {request canonical : Bytes}
    (h : canonicalRequest request = .ok canonical) : canonical ≠ [] ∧ NulFree canonical := by
  unfold canonicalRequest at h
  dsimp only at h
  split_ifs at h with hempty hlong hnul hnone
  cases h
  exact ⟨hnone, NulFree.sublist hnul (canonicalFrom_sublist 0 request)⟩

section
variable {σ : Type} (env : GenerateEnv σ) (p : Process σ) (c : ContextId)

/-- The result of a call is there exactly when it returns `MORPHEUS_OK`. -/
theorem filterGenerations_result (options : Option MorpheusGenerationOptions) (limit : ℕ)
    (normalized : Except NormalizeStatus (List NormalizedGeneration)) :
    (filterGenerations env p options limit normalized).status ≠ .ok →
      (filterGenerations env p options limit normalized).result = none := by
  unfold filterGenerations
  split
  · split_ifs
    · simp
    · simp
  · simp
  · split
    · simp
    · split_ifs
      · simp
      · simp

theorem runGeneration_result {request : Bytes} {options : Option MorpheusGenerationOptions}
    {returned : Returned σ GenerationResult}
    (h : runGeneration env p c request options = .ok returned) (hok : returned.status ≠ .ok) :
    returned.result = none := by
  unfold runGeneration at h
  by_cases hgreek : (p.contexts c).language ≠ greek
  · rw [if_pos hgreek] at h
    cases h
    rfl
  rw [if_neg hgreek] at h
  cases hoptions : validateOptions options with
  | error status =>
    rw [hoptions] at h
    cases h
    rfl
  | ok limit =>
    rw [hoptions] at h
    dsimp only at h
    cases hcanonical : canonicalRequest request with
    | error status =>
      rw [hcanonical] at h
      cases h
      rfl
    | ok canonical =>
      rw [hcanonical] at h
      obtain ⟨⟨q, opened⟩, -, h⟩ := bind_eq_ok.mp h
      cases opened with
      | error status =>
        cases h
        rfl
      | ok service =>
        obtain ⟨normalized, -, h⟩ := bind_eq_ok.mp h
        cases h
        exact filterGenerations_result env _ _ _ _ hok

theorem ensureGenerationService_ok (h : (p.contexts c).stemlibPath ≠ none) :
    ∃ q opened, ensureGenerationService env p c = .ok (q, opened) := by
  obtain ⟨root, hroot⟩ := Option.ne_none_iff_exists'.mp h
  unfold ensureGenerationService
  rw [hroot]
  cases (p.contexts c).generationService with
  | some service => exact ⟨_, _, rfl⟩
  | none =>
    dsimp only
    split_ifs
    · exact ⟨_, _, rfl⟩
    · exact ⟨_, _, rfl⟩
    · split
      · exact ⟨_, _, rfl⟩
      · exact ⟨_, _, rfl⟩
      · split
        · exact ⟨_, _, rfl⟩
        · exact ⟨_, _, rfl⟩


theorem ensureGenerationService_error {q : Process σ} {status : MorpheusStatus}
    (h : ensureGenerationService env p c = .ok (q, .error status)) : status ≠ .ok := by
  intro hstatus
  subst hstatus
  unfold ensureGenerationService at h
  split at h
  · simp at h
  · cases h
  · split_ifs at h
    · simp at h
    · simp at h
    · split at h
      · simp at h
      · simp at h
      · split at h
        · simp at h
        · simp at h

/-- A result of `options`, made of the forms of a lemma: those that match, in the order of
the comparison. -/
def ResultOf (options : Option MorpheusGenerationOptions) (forms : List NormalizedGeneration)
    (result : GenerationResult) : Prop :=
  ∃ normalized : List NormalizedGeneration, normalized.Perm forms ∧
    (normalized.Pairwise fun left right => normalizedGenerationCompare left right < 0) ∧
    result = (normalized.filter (generationMatches options)).map copyGeneration

/-- More forms than the caller wants of those that match, or than are collected at all. -/
def TooMany (options : Option MorpheusGenerationOptions) (limit : ℕ)
    (forms : List NormalizedGeneration) : Prop :=
  limit < (forms.filter (generationMatches options)).length ∨ generationMaxLimit < forms.length

variable {env}

/-- What the filter makes of the records of a lemma. -/
theorem filterGenerations_law (p : Process σ) (options : Option MorpheusGenerationOptions)
    (limit : ℕ) {forms : Option (List NormalizedGeneration)}
    {normalized : Except NormalizeStatus (List NormalizedGeneration)}
    (h : NormalizedAs env generationMaxLimit forms normalized) :
    ((filterGenerations env p options limit normalized).status = .ok →
      ∃ forms', forms = some forms' ∧ ∃ result,
        (filterGenerations env p options limit normalized).result = some result ∧
          ResultOf options forms' result) ∧
    ∀ forms', forms = some forms' →
      ((filterGenerations env p options limit normalized).status = .resultLimitExceeded ↔
        TooMany options limit forms') ∨
      ((filterGenerations env p options limit normalized).status = .noMemory ∧
        ∃ q allocation, env.memory q allocation = false) := by
  cases h with
  | notFound =>
    have hfew : ¬TooMany options limit [] := by simp [TooMany]
    unfold filterGenerations
    cases hmemory : env.memory p (.result 0) with
    | true =>
      rw [if_pos rfl]
      refine ⟨fun _ => ⟨[], rfl, [], rfl, [], .refl _, .nil, rfl⟩, ?_⟩
      intro forms' hforms
      cases hforms
      exact .inl ⟨by simp, fun hmany => absurd hmany hfew⟩
    | false =>
      rw [if_neg (by simp)]
      exact ⟨by simp, fun _ _ => .inr ⟨rfl, _, _, hmemory⟩⟩
  | @all forms normalized hlength hperm hsorted =>
    have hcount : (normalized.filter (generationMatches options)).length =
        (forms.filter (generationMatches options)).length :=
      (hperm.filter _).length_eq
    unfold filterGenerations
    dsimp only
    rw [countMatches_eq options limit normalized (Nat.zero_le _), Nat.zero_add, hcount]
    by_cases hmany : limit < (forms.filter (generationMatches options)).length
    · rw [if_pos hmany]
      refine ⟨by simp, ?_⟩
      intro forms' hforms
      cases hforms
      exact .inl ⟨fun _ => .inl hmany, fun _ => rfl⟩
    · rw [if_neg hmany]
      dsimp only
      have hfew : ¬TooMany options limit forms := by
        unfold TooMany
        omega
      cases hmemory : env.memory p (.result (forms.filter (generationMatches options)).length) with
      | true =>
        rw [if_pos rfl]
        refine ⟨fun _ => ⟨forms, rfl, _, rfl, normalized, hperm, hsorted,
          copyMatches_eq options normalized⟩, ?_⟩
        intro forms' hforms
        cases hforms
        exact .inl ⟨by simp, fun hmany => absurd hmany hfew⟩
      | false =>
        rw [if_neg (by simp)]
        exact ⟨by simp, fun _ _ => .inr ⟨rfl, _, _, hmemory⟩⟩
  | exceeded hexceeded =>
    refine ⟨by simp [filterGenerations, normalizeStatus], ?_⟩
    intro forms' hforms
    exact .inl ⟨fun _ => .inr (hexceeded forms' hforms), fun _ => rfl⟩
  | refused hrefused =>
    exact ⟨by simp [filterGenerations, normalizeStatus], fun _ _ => .inr ⟨rfl, hrefused⟩⟩
  | @failed status hstatus _ =>
    refine ⟨?_, by simp⟩
    cases status with
    | notFound => exact absurd rfl hstatus
    | invalid => simp [filterGenerations, normalizeStatus]
    | noMemory => simp [filterGenerations, normalizeStatus]
    | engineError => simp [filterGenerations, normalizeStatus]
    | limit => simp [filterGenerations, normalizeStatus]

variable (env)

/-- The result law of a generation call. Its result is `NULL` unless it returns `MORPHEUS_OK`;
then it is made of all forms of the lemma that match, sorted. When the engine makes all of
the forms, the limit is exceeded exactly when there are too many of them, unless the call
runs out of memory. -/
theorem morpheusGenerate_law (call : GenerateCall) {c : ContextId} {request canonical : Bytes}
    {limit : ℕ} (hcontext : call.context = some c) (hlemma : call.lemma_ = some request)
    (hresult : call.result ≠ none) (hgreek : (p.contexts c).language = greek)
    (hroot : (p.contexts c).stemlibPath ≠ none)
    (hlimit : validateOptions call.options = .ok limit)
    (hcanonical : canonicalRequest request = .ok canonical) :
    ∃ returned, morpheusGenerate env p call = .ok returned ∧
      (returned.status ≠ .ok → returned.result = some none) ∧
      (returned.status = .ok → ∃ q service forms result,
        ensureGenerationService env p c = .ok (q, .ok service) ∧
          lemmaForms env service canonical q = some forms ∧
          returned.result = some (some result) ∧ ResultOf call.options forms result) ∧
      ∀ q service forms, ensureGenerationService env p c = .ok (q, .ok service) →
        lemmaForms env service canonical q = some forms →
        (returned.status = .resultLimitExceeded ↔ TooMany call.options limit forms) ∨
          (returned.status = .noMemory ∧ ∃ q allocation, env.memory q allocation = false) := by
  obtain ⟨hne, hfree⟩ := canonicalRequest_ok hcanonical
  obtain ⟨before, hbefore⟩ := Option.ne_none_iff_exists'.mp hresult
  obtain ⟨q, opened, hensure⟩ := ensureGenerationService_ok env p c hroot
  have hcall : ∀ returned, runGeneration env p c request call.options = .ok returned →
      morpheusGenerate env p call =
        .ok ⟨returned.status, returned.process, some returned.result⟩ := by
    intro returned hrun
    unfold morpheusGenerate
    rw [hcontext, hlemma, hbefore]
    dsimp only
    rw [hrun]
    rfl
  have hnull : ∀ returned, runGeneration env p c request call.options = .ok returned →
      returned.status ≠ .ok → some returned.result = some none := by
    intro returned hrun hok
    rw [runGeneration_result env p c hrun hok]
  cases opened with
  | error status =>
    have hstatus : status ≠ .ok := ensureGenerationService_error env p c hensure
    have hrun : runGeneration env p c request call.options = .ok ⟨status, q, none⟩ := by
      unfold runGeneration
      rw [if_neg (not_not.mpr hgreek), hlimit]
      dsimp only
      rw [hcanonical]
      dsimp only
      rw [hensure]
      rfl
    refine ⟨_, hcall _ hrun, hnull _ hrun, fun hok => absurd hok hstatus, ?_⟩
    intro q' service forms hother
    rw [hensure] at hother
    cases hother
  | ok service =>
    obtain ⟨q', normalized, hnormalized, hlaw⟩ := morpheusGenerationNormalize_eq env
      service hne hfree (by decide) (le_refl generationMaxLimit) q
    have hrun : runGeneration env p c request call.options =
        .ok (filterGenerations env q' call.options limit normalized) := by
      unfold runGeneration
      rw [if_neg (not_not.mpr hgreek), hlimit]
      dsimp only
      rw [hcanonical]
      dsimp only
      rw [hensure, ok_bind]
      dsimp only
      rw [hnormalized]
      rfl
    obtain ⟨hok, hmany⟩ := filterGenerations_law q' call.options limit hlaw
    refine ⟨_, hcall _ hrun, hnull _ hrun, ?_, ?_⟩
    · intro hstatus
      obtain ⟨forms, hforms, result, hresult, hof⟩ := hok hstatus
      exact ⟨q, service, forms, result, hensure, hforms, by rw [hresult], hof⟩
    · intro q'' service' forms hother hforms
      rw [hensure] at hother
      cases hother
      exact hmany forms hforms

end

open Checked GenerIndex

/-- An index of one noun. -/
def nounFile : Bytes :=
  ascii "MORPHGEN" ++ leBytes 4 1 ++ leBytes 4 1 ++ leBytes 8 1 ++ leBytes 8 1 ++ leBytes 8 1 ++
    leBytes 8 22 ++ [140, 158, 70, 8, 94, 162, 188, 31] ++ leBytes 8 0 ++
    (leBytes 8 0 ++ leBytes 8 0 ++ leBytes 4 1 ++ leBytes 4 0) ++
    (leBytes 8 0 ++ leBytes 4 1 ++ leBytes 4 0) ++
    (leBytes 4 1 ++ leBytes 4 0 ++ leBytes 8 7 ++ leBytes 8 11) ++
    (ascii "lo/gos" ++ [0] ++ ascii "log" ++ [0] ++ ascii "os_ou masc" ++ [0])

def nounService : GenerationService where
  index := ⟨nounFile, 64, 88, 104, 128, 22, 1, 1, 1⟩
  valid := ⟨⟨nounFile, by decide +kernel⟩, by decide +kernel⟩
  context := .heap 0

/-- A Greek context with the service of that index. -/
def nounProcess : Process Unit :=
  ⟨fun _ => { RuntimeContext.zero with
    stemlibPath := some []
    generationService := some nounService }, none, 1, ()⟩

/-- An engine that makes two forms of a record. -/
def nounEnv (memory : Allocation → Bool) : GenerateEnv Unit where
  file := fun _ _ => none
  genStemForms := fun p input _ _ =>
    (p, some [{ input with workword := ascii "lo/gou" }, { input with workword := ascii "lo/gos" }])
  genIrregForm := fun p _ _ _ => (p, none)
  nameOfStemtype := fun _ _ => none
  memory := fun _ allocation => memory allocation

/-- A request for one form at most. -/
def oneForm : MorpheusGenerationOptions := ⟨1, 64, 1, 0, 0, 0, 0, 0, 0, 0, 0, 0, 0, 0, 0⟩

/-- A lemma with a mark in it is found, and its two forms come back. -/
theorem morpheusGenerate_law_logos :
    ∃ forms result, ResultOf none forms result ∧ result.length = 2 ∧
      (morpheusGenerate (nounEnv fun _ => true) nounProcess
        ⟨some .default, some (ascii "lo/go^s"), none, some none⟩).map (·.result) =
          .ok (some (some result)) := by
  have hcanonical : canonicalRequest (ascii "lo/go^s") = .ok (ascii "lo/gos") := by
    decide +kernel
  obtain ⟨returned, hcall, -, hok, -⟩ := morpheusGenerate_law (nounEnv fun _ => true) nounProcess
    ⟨some .default, some (ascii "lo/go^s"), none, some none⟩ rfl rfl (by simp) rfl
    (by simp [nounProcess]) rfl hcanonical
  have hstatus : (morpheusGenerate (nounEnv fun _ => true) nounProcess
      ⟨some .default, some (ascii "lo/go^s"), none, some none⟩).map (·.status) = .ok .ok := by
    decide +kernel
  have hlength : (morpheusGenerate (nounEnv fun _ => true) nounProcess
      ⟨some .default, some (ascii "lo/go^s"), none, some none⟩).map
        (fun returned => returned.result.map fun result => result.map List.length) =
          .ok (some (some 2)) := by
    decide +kernel
  rw [hcall] at hstatus hlength ⊢
  simp only [Except.map, Except.ok.injEq] at hstatus hlength ⊢
  obtain ⟨-, -, forms, result, -, -, hresult, hof⟩ := hok hstatus
  rw [hresult] at hlength ⊢
  exact ⟨forms, result, hof, by simpa using hlength, rfl⟩

/-- Without memory for its records, a call for one of two forms does not report the limit. -/
theorem morpheusGenerate_outOfMemory :
    let env := nounEnv fun allocation => decide (allocation ≠ .records 32)
    (∃ forms, lemmaForms env nounService (ascii "lo/gos") nounProcess = some forms ∧
      TooMany (some oneForm) 1 forms) ∧
    (morpheusGenerate env nounProcess
      ⟨some .default, some (ascii "lo/gos"), some oneForm, some none⟩).map (·.status) =
        .ok .noMemory := by
  have hcount : (lemmaForms (nounEnv fun allocation => decide (allocation ≠ .records 32))
      nounService (ascii "lo/gos") nounProcess).map
        (fun forms => (forms.filter (generationMatches (some oneForm))).length) = some 2 := by
    decide +kernel
  obtain ⟨forms, hforms, hlength⟩ := Option.map_eq_some_iff.mp hcount
  refine ⟨⟨forms, hforms, .inl ?_⟩, by decide +kernel⟩
  rw [hlength]
  decide

end Morpheus
