import Morpheus.GenerIndexSound
import Morpheus.GkString
import Morpheus.RuntimeContext

/-!
# The generation service

`generation_service.c`: it walks the index blocks of a lemma and gives every form that
the engine generates for a record to a visitor, which can stop it. The engine is an
arbitrary function on the process.
-/
namespace Morpheus
open Checked GenerIndex

/-- `INDECL` of `modes.h` -/
def indeclMode : ℕ := 0o20

/-- The allocations of a generation. -/
inductive Allocation
  | path
  | indexFile
  | index
  | service
  | serviceContext
  | serviceRoot
  | normalized
  | keys (length : ℕ)
  | records (capacity : ℕ)
  | result (count : ℕ)
  deriving DecidableEq, Repr

/-- What generation uses of the rest of the library: the files that can be read, the two
generators (a form without a word ends the array they return), the names of the stem types,
and whether there is memory. -/
structure GenerateEnv (σ : Type) where
  file : σ → Bytes → Option Bytes
  genStemForms : Process σ → GkWord → Bytes → ℕ → Process σ × Option (List GkWord)
  genIrregForm : Process σ → GkWord → Bytes → ℕ → Process σ × Option (List GkWord)
  nameOfStemtype : Process σ → UInt32 → Option Bytes
  memory : Process σ → Allocation → Bool

inductive GenerationStatus
  | ok
  | invalid
  | notFound
  | noMemory
  | engineError
  | stopped
  deriving DecidableEq, Repr

/-- `runtime_status` -/
def runtimeStatus (context : RuntimeContext) : GenerationStatus :=
  match context.runtimeError with
  | .noMemory => .noMemory
  | .internal => .engineError
  | .none => .engineError

/-- `record_keys`: the commas of the first word become blanks. -/
def recordKeys (source : Bytes) : Bytes :=
  let rest := source.dropWhile isSpace
  source.takeWhile isSpace ++
    (rest.takeWhile fun c => !isSpace c).map (fun c => if c = 44 then 32 else c) ++
      rest.dropWhile fun c => !isSpace c

/-- The input word of a record. -/
def recordInput (lemma_ stem : Bytes) : GkWord :=
  { GkWord.zero with
    stLemma := xstrncpy lemma_ maxWordSize
    stem := { GkString.zero with gkstring := xstrncpy stem maxWordSize } }

section
variable {σ : Type} (env : GenerateEnv σ)

/-- The call of the engine for a record. -/
def engineForms (p : Process σ) (lemma_ stem keys : Bytes) (kind : ℕ) :
    Process σ × Option (List GkWord) :=
  if kind = 4 ∨ kind = 5 then
    env.genIrregForm p (recordInput lemma_ stem) (recordKeys keys)
      (if kind = 4 then indeclMode else 0)
  else env.genStemForms p (recordInput lemma_ stem) (recordKeys keys) 0

/-- The forms of an array that the loop of `generate_record` reaches. -/
def arrayForms (forms : List GkWord) : List GkWord :=
  forms.takeWhile fun form => form.workword.headD 0 ≠ 0

/-- A generation under way: the process, the state of the visitor, the count of its visits
and the status so far. -/
structure Generating (σ α : Type) where
  process : Process σ
  state : α
  formCount : ℕ
  status : GenerationStatus

variable {α : Type} (visitor : Process σ → α → GkWord → α × Bool)

/-- The loop of `generate_record` over the forms. -/
def visitForms (p : Process σ) : List GkWord → α → ℕ → Generating σ α
  | [], state, formCount => ⟨p, state, formCount, .ok⟩
  | form :: forms, state, formCount =>
    if formCount = sizeMax then ⟨p, state, formCount, .engineError⟩
    else
      let visited := visitor p state form
      if visited.2 then visitForms p forms visited.1 (formCount + 1)
      else ⟨p, visited.1, formCount + 1, .stopped⟩

def generateRecord (service : GenerationService) (lemma_ : Bytes) (record : RecordView)
    (p : Process σ) (state : α) (formCount : ℕ) : Checked (Generating σ α) :=
  match record.stem, record.keys with
  | some stem, some keys =>
    if !env.memory p (.keys keys.length) then .ok ⟨p, state, formCount, .noMemory⟩
    else
      let (p, forms) := engineForms env p lemma_ stem keys record.kind
      match forms with
      | none => .ok ⟨p, state, formCount, runtimeStatus (p.contexts service.context)⟩
      | some forms =>
        if (p.contexts service.context).runtimeError ≠ .none then
          .ok ⟨p, state, formCount, runtimeStatus (p.contexts service.context)⟩
        else .ok (visitForms visitor p (arrayForms forms) state formCount)
  | _, _ => fault .nullPointer

/-- The record loop of a block, `left` records from `record` on. -/
def generateRecords (service : GenerationService) (lemma_ : Bytes) :
    ℕ → ℕ → Generating σ α → Checked (Generating σ α)
  | 0, _, run => .ok run
  | left + 1, record, run => do
    match ← morpheusGenerIndexRecord service.index record with
    | .error _ => .ok { run with status := .invalid }
    | .ok view => do
      let run ← generateRecord env visitor service lemma_ view run.process run.state run.formCount
      if run.status ≠ .ok then .ok run
      else generateRecords service lemma_ left (record + 1) run

/-- The block loop, `left` blocks from `block` on. -/
def generateBlocks (service : GenerationService) (lemma_ : Bytes) :
    ℕ → ℕ → Generating σ α → Checked (Generating σ α)
  | 0, _, run => .ok run
  | left + 1, block, run => do
    match ← morpheusGenerIndexBlock service.index block with
    | .error _ => .ok { run with status := .invalid }
    | .ok view => do
      let run ← generateRecords env visitor service lemma_ view.recordCount view.firstRecord run
      if run.status ≠ .ok then .ok run
      else generateBlocks service lemma_ left (block + 1) run

/-- The process in which the engine runs: the context of the service is active, Greek, and
without an error. -/
def enterService (service : GenerationService) (p : Process σ) : Process σ :=
  ((p.activate service.context).setLanguage service.context greek).clearError service.context

/-- `morpheus_generation_service_generate` -/
def morpheusGenerationServiceGenerate (service : GenerationService) (canonicalLemma : Bytes)
    (p : Process σ) (state : α) : Checked (Generating σ α) :=
  if canonicalLemma = [] then .ok ⟨p, state, 0, .invalid⟩
  else do
    match ← morpheusGenerIndexLookup service.index canonicalLemma with
    | .error .notFound => .ok ⟨p, state, 0, .notFound⟩
    | .error _ => .ok ⟨p, state, 0, .invalid⟩
    | .ok view => do
      let run ← generateBlocks env visitor service canonicalLemma view.blockCount view.firstBlock
        ⟨enterService service p, state, 0, .ok⟩
      return { run with process := run.process.activate p.current }

/-- The walk of the index records of a lemma, given as a list. -/
def generateViews (service : GenerationService) (lemma_ : Bytes) :
    List RecordView → Generating σ α → Checked (Generating σ α)
  | [], run => .ok run
  | view :: views, run => do
    let run ← generateRecord env visitor service lemma_ view run.process run.state run.formCount
    if run.status ≠ .ok then .ok run else generateViews service lemma_ views run

end

open Checked GenerIndex

section
variable {σ : Type} (env : GenerateEnv σ) {α : Type}
  (visitor : Process σ → α → GkWord → α × Bool) (service : GenerationService) (lemma_ : Bytes)

theorem generateViews_append (views views' : List RecordView) {run : Generating σ α}
    (hok : run.status = .ok) :
    generateViews env visitor service lemma_ (views ++ views') run =
      (generateViews env visitor service lemma_ views run >>= fun run =>
        if run.status ≠ .ok then .ok run
        else generateViews env visitor service lemma_ views' run) := by
  induction views generalizing run with
  | nil =>
    change generateViews env visitor service lemma_ views' run =
      if run.status ≠ .ok then _ else _
    rw [if_neg (not_not.mpr hok)]
  | cons view views ih =>
    rw [List.cons_append, generateViews, generateViews, bind_assoc]
    congr 1
    funext next
    by_cases hnext : next.status = .ok
    · rw [if_neg (not_not.mpr hnext), if_neg (not_not.mpr hnext), ih hnext]
    · rw [if_pos hnext, if_pos hnext, ok_bind, if_pos hnext]

variable (hv : service.index.Valid)
include hv

theorem generateRecords_eq {left record : ℕ} (h : record + left ≤ service.index.recordCount)
    (run : Generating σ α) :
    generateRecords env visitor service lemma_ left record run =
      generateViews env visitor service lemma_
        ((List.range' record left).map fun record => ⟨(service.index.recordEntry record).kind,
          (service.index.recordEntry record).stem, (service.index.recordEntry record).keys⟩)
        run := by
  induction left generalizing record run with
  | zero => rfl
  | succ left ih =>
    rw [generateRecords, hv.record_eq (by omega), ok_bind, List.range'_succ, List.map_cons,
      generateViews]
    dsimp only
    congr 1
    funext next
    rw [ih (by omega)]

theorem generateBlocks_eq {left block : ℕ} (h : block + left ≤ service.index.blockCount)
    {run : Generating σ α} (hok : run.status = .ok) :
    generateBlocks env visitor service lemma_ left block run =
      generateViews env visitor service lemma_
        ((List.range' block left).map service.index.recordsOf).flatten run := by
  induction left generalizing block run with
  | zero => rfl
  | succ left ih =>
    have hblock : block < service.index.blockCount := by omega
    have hrecords := generateRecords_eq env visitor service lemma_ hv (hv.records_inside hblock)
    rw [generateBlocks, hv.block_eq hblock, ok_bind, List.range'_succ, List.map_cons,
      List.flatten_cons, generateViews_append env visitor service lemma_ _ _ hok]
    dsimp only
    rw [hrecords]
    change (_ >>= _) = (generateViews env visitor service lemma_
      (service.index.recordsOf block) run >>= _)
    congr 1
    funext next
    by_cases hnext : next.status = .ok
    · rw [if_neg (not_not.mpr hnext), if_neg (not_not.mpr hnext), ih (by omega) hnext]
    · rw [if_pos hnext, if_pos hnext]

omit hv
/-- The service walks the records of the blocks of the lemma, in order. -/
theorem serviceGenerate_eq {canonicalLemma : Bytes} (hne : canonicalLemma ≠ [])
    (hfree : NulFree canonicalLemma) (p : Process σ) (state : α) :
    (serviceRecords service.index canonicalLemma = .ok (.error .notFound) ∧
      morpheusGenerationServiceGenerate env visitor service canonicalLemma p state =
        .ok ⟨p, state, 0, .notFound⟩) ∨
    ∃ blocks, serviceRecords service.index canonicalLemma = .ok (.ok blocks) ∧
      (∀ view ∈ blocks.flatten, view.stem ≠ none ∧ view.keys ≠ none) ∧
      morpheusGenerationServiceGenerate env visitor service canonicalLemma p state =
        (generateViews env visitor service canonicalLemma blocks.flatten
          ⟨enterService service p, state, 0, .ok⟩ >>= fun run =>
            .ok { run with process := run.process.activate p.current }) := by
  obtain ⟨image, himage⟩ := service.valid
  obtain ⟨-, hv⟩ := ((validLayout_decides image).2 _).mp himage
  by_cases hkey : ∃ item < service.index.lemmaCount, service.index.key item = canonicalLemma
  · obtain ⟨item, hitem, hkey⟩ := hkey
    subst hkey
    right
    refine ⟨_, hv.serviceRecords_of_key hitem, ?_, ?_⟩
    · intro view hview
      simp only [Index.blocksOf, Index.recordsOf, List.mem_flatten, List.mem_map,
        List.mem_range'_1] at hview
      obtain ⟨records, ⟨block, ⟨-, hblock⟩, rfl⟩, hview⟩ := hview
      obtain ⟨record, hrecord, rfl⟩ := List.mem_map.mp hview
      have hinside := hv.records_inside (hblock.trans_le (hv.blocks_inside hitem))
      have hok := hv.record_ok ((List.mem_range'_1.mp hrecord).2.trans_le hinside)
      exact ⟨hok.2.2.2.1.1, hok.2.2.2.2.1⟩
    · rw [morpheusGenerationServiceGenerate, if_neg hne, hv.lookup_of_key hitem, ok_bind]
      dsimp only
      rw [generateBlocks_eq env visitor service _ hv (hv.blocks_inside hitem) rfl]
      rfl
  · have habsent : ∀ item < service.index.lemmaCount, service.index.key item ≠ canonicalLemma :=
      fun item hitem heq => hkey ⟨item, hitem, heq⟩
    left
    refine ⟨hv.serviceRecords_of_absent hne hfree habsent, ?_⟩
    rw [morpheusGenerationServiceGenerate, if_neg hne, hv.lookup_of_absent hne hfree habsent,
      ok_bind]

end

end Morpheus
