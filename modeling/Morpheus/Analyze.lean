import Morpheus.IndexCaches
import Morpheus.PublicValues
import Morpheus.RuntimeContext
import Mathlib.Data.List.DropRight

/-!
# One analysis call

`morpheus_analyze`: it overlays the options of a request on the context, runs the
analyser and puts the context back on the way out. The analyser is an arbitrary
function on the whole process state, so whatever it does to the context is undone.
-/
namespace Morpheus

structure MorpheusAnalysis where
  structSize : ℕ
  partOfSpeech : PartOfSpeech
  dialect : UInt32
  geographicRegion : UInt32
  person : UInt32
  number : UInt32
  gender : UInt32
  grammaticalCase : UInt32
  tense : UInt32
  mood : UInt32
  voice : UInt32
  degree : UInt32
  raw : Bytes
  workword : Bytes
  lemma_ : Bytes
  preverb : Bytes
  augment : Bytes
  stem : Bytes
  suffix : Bytes
  ending : Bytes
  crasis : Bytes
  dictionaryForm : Bytes
  englishForm : Bytes
  rawPreverb : Bytes
  domains : Bytes
  morphFlags : PublicFlags

/-- A result: the analyses with their truncation masks. -/
abbrev MorpheusResult := List (MorpheusAnalysis × UInt32)

/-- What the call uses of the rest of the library: the files that can be opened, the
analyser (its word as the list of its analyses), the names of the stem types, and whether
there is memory for a result of so many analyses. -/
structure AnalyzeEnv (σ : Type) where
  file : σ → Bytes → Option Bytes
  checkWord : Process σ → Bytes → UInt32 → Process σ × Option (List GkAnalysis)
  nameOfStemtype : Process σ → UInt32 → Option Bytes
  memory : Process σ → ℕ → Bool

/-- `request_state`: the fields of a context that belong to a request. -/
structure RequestState where
  crasisDisabled : Int
  quickEnabled : Int
  hqDictionary : Int
  wantedDialects : UInt16
  wantedDialectsInitialized : Int
  deriving DecidableEq, Repr

def requestState (context : RuntimeContext) : RequestState :=
  ⟨context.crasisDisabled, context.quickEnabled, context.dictionaryHqMode,
    context.wantedDialects, context.wantedDialectsInitialized⟩

def languageDirectory (language : Int) : Option Bytes :=
  if language = latin then some (ascii "Latin")
  else if language = italian then some (ascii "Italian")
  else if language = greek then some (ascii "Greek")
  else none

/-- The body of the loop of `hq_dictionary_available`: the file is there and not empty. -/
def hqFileAvailable {σ : Type} (env : AnalyzeEnv σ) (engine : σ)
    (stemlibPath directory required : Bytes) : Bool :=
  let path := stemlibPath ++ ascii "/" ++ directory ++ ascii "/" ++ required
  decide (path.length < maxPathName) &&
    match env.file engine path with
    | none => false
    | some bytes => !bytes.isEmpty

/-- `hq_dictionary_available` -/
def hqDictionaryAvailable {σ : Type} (env : AnalyzeEnv σ) (p : Process σ) (c : ContextId) :
    Process σ × Bool :=
  let context := p.contexts c
  if context.hqAvailabilityChecked ≠ 0 ∧ context.hqAvailabilityLanguage = context.language then
    (p, context.hqAvailable != 0)
  else
    let p := p.update c fun context => { context with
      hqAvailabilityChecked := 1
      hqAvailabilityLanguage := context.language
      hqAvailable := 0 }
    match context.stemlibPath, languageDirectory context.language with
    | some stemlibPath, some directory =>
      if hqFileAvailable env p.engine stemlibPath directory stemlist &&
          hqFileAvailable env p.engine stemlibPath directory (stemlist ++ ascii ".lindex") then
        (p.update c fun context => { context with hqAvailable := 1 }, true)
      else (p, false)
    | _, _ => (p, false)

def optionStrictCase : UInt64 := 1
def optionIgnoreAccents : UInt64 := 2
def optionVerbsOnly : UInt64 := 4
def optionNoCrasis : UInt64 := 8
def optionQuick : UInt64 := 16
def optionHqDictionary : UInt64 := 32

/-- `MORPHEUS_OPTION_DIALECT_SHIFT` -/
def optionDialectShift : UInt64 := 16

def optionDialectMask : UInt64 := dialectKnownMask.toUInt64 <<< optionDialectShift

def knownOptions : UInt64 :=
  optionStrictCase ||| optionIgnoreAccents ||| optionVerbsOnly ||| optionNoCrasis |||
    optionQuick ||| optionHqDictionary ||| optionDialectMask

/-- `STRICT_CASE`, `IGNORE_ACCENTS` and `VERBS_ONLY` of the engine. -/
def prntFlags (options : UInt64) : UInt32 :=
  (if options &&& optionStrictCase ≠ 0 then 0o1000 else 0) |||
    (if options &&& optionIgnoreAccents ≠ 0 then 0o20000 else 0) |||
    (if options &&& optionVerbsOnly ≠ 0 then 0o400000 else 0)

/-- `!!(options & option)` -/
def optionValue (options option : UInt64) : Int := if options &&& option ≠ 0 then 1 else 0

/-- `apply_request_options`; what it saves is the `requestState` before. -/
def applyRequestOptions (options : UInt64) (context : RuntimeContext) : RuntimeContext :=
  { context with
    crasisDisabled := optionValue options optionNoCrasis
    quickEnabled := optionValue options optionQuick
    dictionaryHqMode := optionValue options optionHqDictionary
    wantedDialects :=
      (morpheusLegacyDialect ((options &&& optionDialectMask) >>> optionDialectShift).toUInt32).toUInt16
    wantedDialectsInitialized := 1 }

/-- `restore_request_state` -/
def restoreRequestState (saved : RequestState) (context : RuntimeContext) : RuntimeContext :=
  { context with
    crasisDisabled := saved.crasisDisabled
    quickEnabled := saved.quickEnabled
    dictionaryHqMode := saved.hqDictionary
    wantedDialects := saved.wantedDialects
    wantedDialectsInitialized := saved.wantedDialectsInitialized }

/-- `CompAnals` -/
def compAnals (anal1 anal2 : GkAnalysis) : Int := strcmp anal1.stLemma anal2.stLemma

/-- One turn of the loop of `SortAnals`: the analyses with greater lemmas move up. -/
def insertAnal (sorted : List GkAnalysis) (current : GkAnalysis) : List GkAnalysis :=
  let greater := fun anal => decide (compAnals current anal < 0)
  sorted.rdropWhile greater ++ current :: sorted.rtakeWhile greater

def sortAnals (anals : List GkAnalysis) : List GkAnalysis := anals.foldl insertAnal []

/-- `MORPHEUS_DOMAIN_CAPACITY` -/
def domainCapacity : ℕ := 24

/-- The fields of the truncation mask, in the order of its bits, with the room for each. -/
def copiedTexts (source : GkAnalysis) : List (Bytes × ℕ) :=
  [(source.rawword, textCapacity), (source.workword, textCapacity),
    (source.stLemma, textCapacity), (source.preverb.gkstring, textCapacity),
    (source.aug1.gkstring, textCapacity), (source.stem.gkstring, textCapacity),
    (source.suffix.gkstring, textCapacity), (source.endstring.gkstring, textCapacity),
    (source.crasis, textCapacity), (source.dictform, textCapacity),
    (source.engform, textCapacity), (source.rawprvb, textCapacity),
    (source.domains, domainCapacity)]

def truncatedFields (texts : List (Bytes × ℕ)) : UInt32 :=
  texts.zipIdx.foldl (fun truncated text =>
    if text.1.1.length ≥ text.1.2 then truncated ||| 1 <<< UInt32.ofNat text.2
    else truncated) 0

/-- The size of `morpheus_analysis`. -/
def morpheusAnalysisSize : ℕ := 852

/-- `copy_analysis` -/
def copyAnalysis (nameOfStemtype : UInt32 → Option Bytes) (source : GkAnalysis) :
    MorpheusAnalysis × UInt32 :=
  let partOfSpeech := morpheusPublicPartOfSpeech nameOfStemtype source.stemtype
  ({ structSize := morpheusAnalysisSize
     partOfSpeech
     dialect := morpheusPublicDialect source.dialect.toInt16.toInt32.toUInt32
     geographicRegion := morpheusPublicRegion source.geogregion
     person := morpheusPublicPerson (UInt32.ofNat source.forminfo.person.toNat)
     number := morpheusPublicNumber (UInt32.ofNat source.forminfo.number.toNat)
     gender := morpheusPublicGender (UInt32.ofNat source.forminfo.gender.toNat)
     grammaticalCase := morpheusPublicCase (UInt32.ofNat source.forminfo.case_.toNat)
     tense := morpheusPublicTense (UInt32.ofNat source.forminfo.tense.toNat)
     mood := morpheusPublicMood (UInt32.ofNat source.forminfo.mood.toNat)
     voice := morpheusPublicVoice (UInt32.ofNat source.forminfo.voice.toNat)
     degree := morpheusPublicDegree (UInt32.ofNat source.forminfo.degree.toNat) partOfSpeech
       source.morphflags
     raw := xstrncpy source.rawword textCapacity
     workword := xstrncpy source.workword textCapacity
     lemma_ := xstrncpy source.stLemma textCapacity
     preverb := xstrncpy source.preverb.gkstring textCapacity
     augment := xstrncpy source.aug1.gkstring textCapacity
     stem := xstrncpy source.stem.gkstring textCapacity
     suffix := xstrncpy source.suffix.gkstring textCapacity
     ending := xstrncpy source.endstring.gkstring textCapacity
     crasis := xstrncpy source.crasis textCapacity
     dictionaryForm := xstrncpy source.dictform textCapacity
     englishForm := xstrncpy source.engform textCapacity
     rawPreverb := xstrncpy source.rawprvb textCapacity
     domains := xstrncpy source.domains domainCapacity
     morphFlags := morpheusPublicMorphFlags source.morphflags },
    truncatedFields (copiedTexts source))

/-- What a call leaves: its status, the process, and what `*result` points to, `none` for
`NULL`. -/
structure Returned (σ α : Type) where
  status : MorpheusStatus
  process : Process σ
  result : Option α

section
variable {σ : Type} (env : AnalyzeEnv σ)

/-- The way out of every return behind `apply_request_options`. -/
def leaveRequest (saved : RequestState) (c previous : ContextId) (p : Process σ) : Process σ :=
  (p.update c (restoreRequestState saved)).activate previous

/-- `morpheus_analyze` from the activation of the context on. -/
def runRequest (p : Process σ) (c : ContextId) (input : Bytes) (options : UInt64) :
    Returned σ MorpheusResult :=
  let previous := p.current
  let p := (p.activate c).clearError c
  let saved := requestState (p.contexts c)
  let (p, word) := env.checkWord (p.update c (applyRequestOptions options)) input
    (prntFlags options)
  let leave := leaveRequest saved c previous
  match morpheusRuntimeStatus (p.contexts c), word with
  | .ok, none => ⟨.invalidArgument, leave p, none⟩
  | .ok, some anals =>
    let sorted := sortAnals anals
    if env.memory p sorted.length then
      ⟨.ok, leave p, some (sorted.map (copyAnalysis (env.nameOfStemtype p)))⟩
    else ⟨.noMemory, leave p, none⟩
  | status, _ => ⟨status, leave p, none⟩

/-- The test of `MORPHEUS_OPTION_HQ_DICTIONARY`. -/
def requestAvailable (p : Process σ) (c : ContextId) (options : UInt64) : Process σ × Bool :=
  if options &&& optionHqDictionary ≠ 0 then hqDictionaryAvailable env p c else (p, true)

/-- `morpheus_analyze` behind the test of its pointers: `*result` is `NULL` from here on. -/
def checkRequest (p : Process σ) (c : ContextId) (betaCode : Bytes) (options : UInt64) :
    Returned σ MorpheusResult :=
  if options &&& ~~~knownOptions ≠ 0 then ⟨.invalidArgument, p, none⟩
  else if options &&& optionDialectMask ≠ 0 ∧ (p.contexts c).language ≠ greek then
    ⟨.invalidArgument, p, none⟩
  else
    let (p, available) := requestAvailable env p c options
    if !available then ⟨.stemlibError, p, none⟩
    else if betaCode.length ≥ maxWordSize then ⟨.inputTooLong, p, none⟩
    else if (0 : Byte) ∈ betaCode then ⟨.invalidArgument, p, none⟩
    else runRequest env p c betaCode options

/-- The arguments of a call, `none` for a `NULL` pointer; `result` is what `*result` is before. -/
structure AnalyzeCall where
  context : Option ContextId
  betaCode : Option Bytes
  options : UInt64
  result : Option (Option MorpheusResult)

/-- `morpheus_analyze` -/
def morpheusAnalyze (p : Process σ) (call : AnalyzeCall) :
    Returned σ (Option MorpheusResult) :=
  match call.context, call.betaCode, call.result with
  | some c, some betaCode, some _ =>
    let returned := checkRequest env p c betaCode call.options
    ⟨returned.status, returned.process, some returned.result⟩
  | _, _, _ => ⟨.invalidArgument, p, call.result⟩

end

/-- The frame of a request: its fields of the context and the active context are the same. -/
structure SameRequest {σ : Type} (c : ContextId) (p p' : Process σ) : Prop where
  state : requestState (p'.contexts c) = requestState (p.contexts c)
  active : p'.current = p.current

namespace SameRequest

variable {σ : Type} {c : ContextId} {p p' p'' : Process σ}

theorem refl : SameRequest c p p := ⟨rfl, rfl⟩

theorem trans (h : SameRequest c p p') (h' : SameRequest c p' p'') : SameRequest c p p'' :=
  ⟨h'.state.trans h.state, h'.active.trans h.active⟩

/-- An update that leaves the fields of the request alone. -/
theorem update (f : RuntimeContext → RuntimeContext)
    (hf : ∀ context, requestState (f context) = requestState context) :
    SameRequest c p (p.update c f) where
  state := by rw [Process.update_self, hf]
  active := Process.current_update p c f

end SameRequest

theorem requestState_restore (saved : RequestState) (context : RuntimeContext) :
    requestState (restoreRequestState saved context) = saved := rfl

section
variable {σ : Type} (env : AnalyzeEnv σ) (p : Process σ) (c : ContextId)

theorem hqDictionaryAvailable_frame : SameRequest c p (hqDictionaryAvailable env p c).1 := by
  unfold hqDictionaryAvailable
  dsimp only
  split_ifs with hchecked
  · exact .refl
  · have hreset : SameRequest c p (p.update c fun context => { context with
        hqAvailabilityChecked := 1
        hqAvailabilityLanguage := context.language
        hqAvailable := 0 }) := .update _ fun _ => rfl
    split
    · split_ifs with hfiles
      · apply hreset.trans
        dsimp only
        apply SameRequest.update
        intro context
        rfl
      · exact hreset
    · exact hreset

/-- Whatever process the analyser leaves, the way out restores the request of `p`. -/
theorem leaveRequest_frame (p' : Process σ) :
    SameRequest c p (leaveRequest (requestState (p.contexts c)) c p.current p') where
  state := by
    unfold leaveRequest
    rw [Process.contexts_activate, Process.update_self, requestState_restore]
  active := Process.current_activate _ _

theorem runRequest_frame (input : Bytes) (options : UInt64) :
    SameRequest c p (runRequest env p c input options).process := by
  have hsaved : requestState (((p.activate c).clearError c).contexts c) =
      requestState (p.contexts c) := by
    unfold Process.clearError
    rw [Process.update_self]
    rfl
  unfold runRequest
  dsimp only
  rw [hsaved]
  split
  · exact leaveRequest_frame p c _
  · split_ifs with hmemory
    · exact leaveRequest_frame p c _
    · exact leaveRequest_frame p c _
  · exact leaveRequest_frame p c _

theorem runRequest_result (input : Bytes) (options : UInt64) :
    (runRequest env p c input options).status = .ok ↔
      (runRequest env p c input options).result ≠ none := by
  unfold runRequest
  dsimp only
  split
  · simp
  · split_ifs with hmemory
    · simp
    · simp
  · rename_i hnone hsome
    simp only [ne_eq, not_true_eq_false, iff_false]
    intro hok
    cases hword : (env.checkWord (((p.activate c).clearError c).update c
        (applyRequestOptions options)) input (prntFlags options)).2 with
    | none => exact hnone hok hword
    | some anals => exact hsome anals hok hword

theorem requestAvailable_frame (options : UInt64) :
    SameRequest c p (requestAvailable env p c options).1 := by
  unfold requestAvailable
  split_ifs with hhq
  · exact hqDictionaryAvailable_frame env p c
  · exact .refl

theorem checkRequest_frame (betaCode : Bytes) (options : UInt64) :
    SameRequest c p (checkRequest env p c betaCode options).process := by
  have havailable := requestAvailable_frame env p c options
  unfold checkRequest
  dsimp only
  split_ifs with hknown hdialect hmissing hlong hzero
  · exact .refl
  · exact .refl
  · exact havailable
  · exact havailable
  · exact havailable
  · exact havailable.trans (runRequest_frame env _ c betaCode options)

theorem checkRequest_result (betaCode : Bytes) (options : UInt64) :
    (checkRequest env p c betaCode options).status = .ok ↔
      (checkRequest env p c betaCode options).result ≠ none := by
  unfold checkRequest
  dsimp only
  split_ifs with hknown hdialect hmissing hlong hzero
  · simp
  · simp
  · simp
  · simp
  · simp
  · exact runRequest_result env _ c betaCode options

end

/-- A call leaves the request fields of its context and the active context as they were.
Its result pointer is `NULL` unless it returns `MORPHEUS_OK`; without a context or an
input it leaves everything alone, its result pointer included. -/
theorem morpheusAnalyze_frame {σ : Type} (env : AnalyzeEnv σ) (p : Process σ)
    (call : AnalyzeCall) :
    (∀ c, call.context = some c → SameRequest c p (morpheusAnalyze env p call).process) ∧
      (morpheusAnalyze env p call).process.current = p.current ∧
      (call.context ≠ none → call.betaCode ≠ none → (morpheusAnalyze env p call).status ≠ .ok →
        ∀ value, (morpheusAnalyze env p call).result = some value → value = none) ∧
      (call.context = none ∨ call.betaCode = none →
        (morpheusAnalyze env p call).status = .invalidArgument ∧
          (morpheusAnalyze env p call).process = p ∧
          (morpheusAnalyze env p call).result = call.result) := by
  obtain ⟨context, betaCode, options, result⟩ := call
  cases context with
  | none => simp [morpheusAnalyze]
  | some c =>
    cases betaCode with
    | none => simp [morpheusAnalyze, SameRequest.refl]
    | some betaCode =>
      cases result with
      | none => simp [morpheusAnalyze, SameRequest.refl]
      | some before =>
        have hframe := checkRequest_frame env p c betaCode options
        have hresult := checkRequest_result env p c betaCode options
        simp only [morpheusAnalyze]
        refine ⟨?_, hframe.active, ?_, by simp⟩
        · intro c' hc
          cases hc
          exact hframe
        · intro _ _ hstatus value hvalue
          cases hvalue
          exact not_not.mp fun hsome => hstatus (hresult.mpr hsome)

/-- A call without an input keeps what the result pointer pointed to. -/
theorem morpheusAnalyze_keepsResult :
    let env : AnalyzeEnv Unit :=
      ⟨fun _ _ => none, fun p _ _ => (p, none), fun _ _ => none, fun _ _ => true⟩
    let p : Process Unit := ⟨fun _ => .zero, none, 0, ()⟩
    let call : AnalyzeCall := ⟨some .default, none, 0, some (some [])⟩
    (morpheusAnalyze env p call).status ≠ .ok ∧
      (morpheusAnalyze env p call).result = some (some []) := by
  exact ⟨by simp [morpheusAnalyze], rfl⟩

end Morpheus
