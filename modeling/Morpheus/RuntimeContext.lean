import Morpheus.EndingCache
import Morpheus.GenerIndexReader
import Mathlib.Logic.Function.Basic

/-!
# Runtime contexts

The contexts of a thread and the one that is active: `runtime_context.h` and the
context functions of `setlang.c`. A context has the fields that the public calls
read and write; whatever else the engine keeps (its tables and caches, the files
it reads) is one value of an arbitrary type.
-/
namespace Morpheus

/-- A context: the default one of the thread, or one from `morpheus_runtime_context_create`. -/
inductive ContextId
  | default
  | heap (serial : ℕ)
  deriving DecidableEq, Repr

inductive RuntimeError
  | none
  | noMemory
  | internal
  deriving DecidableEq, Repr

/-- A generation service: the index that was opened for it and the context that it runs
the engine in. -/
structure GenerationService where
  index : GenerIndex.Index
  valid : ∃ image, GenerIndex.validLayout image = .ok index
  context : ContextId

/-- `struct morpheus_runtime_context` -/
structure RuntimeContext where
  language : Int
  stemlibPath : Option Bytes
  generationService : Option GenerationService
  dictionaryHqMode : Int
  hqAvailabilityChecked : Int
  hqAvailable : Int
  hqAvailabilityLanguage : Int
  crasisDisabled : Int
  quickEnabled : Int
  wantedDialects : UInt16
  wantedDialectsInitialized : Int
  storageError : Int
  runtimeError : RuntimeError

/-- A context as `calloc` makes it. -/
def RuntimeContext.zero : RuntimeContext := ⟨0, .none, .none, 0, 0, 0, 0, 0, 0, 0, 0, 0, .none⟩

/-- `active` is the thread's `active_context`, `created` the number of contexts that
were ever created, `engine` all other state. -/
structure Process (σ : Type) where
  contexts : ContextId → RuntimeContext
  active : Option ContextId
  created : ℕ
  engine : σ

/-- `GREEK` -/
def greek : Int := 0

/-- `MORPHEUS_OK` and the other statuses of the public calls that are modelled. -/
inductive MorpheusStatus
  | ok
  | invalidArgument
  | abiMismatch
  | noMemory
  | inputTooLong
  | internalError
  | stemlibError
  | resultLimitExceeded
  deriving DecidableEq, Repr

/-- `morpheus_runtime_status` -/
def morpheusRuntimeStatus (context : RuntimeContext) : MorpheusStatus :=
  match context.runtimeError with
  | .noMemory => .noMemory
  | .internal => .internalError
  | .none => .ok

namespace Process

variable {σ : Type} (p : Process σ) (c c' : ContextId) (f : RuntimeContext → RuntimeContext)

/-- `morpheus_runtime_context_current` -/
def current : ContextId := p.active.getD .default

/-- `morpheus_runtime_context_activate`; what it returns is the `current` before. -/
def activate : Process σ := { p with active := some c }

def update : Process σ := { p with contexts := Function.update p.contexts c (f (p.contexts c)) }

/-- `morpheus_runtime_context_clear_error` -/
def clearError : Process σ :=
  p.update c fun context => { context with runtimeError := .none, storageError := 0 }

/-- `morpheus_runtime_context_set_language` -/
def setLanguage (language : Int) : Process σ :=
  p.update c fun context => { context with language }

@[simp] theorem current_activate : (p.activate c).current = c := rfl

@[simp] theorem contexts_activate : (p.activate c).contexts = p.contexts := rfl

@[simp] theorem update_self : (p.update c f).contexts c = f (p.contexts c) := by
  simp [update]

theorem update_of_ne {c c' : ContextId} (h : c' ≠ c) :
    (p.update c f).contexts c' = p.contexts c' := by
  simp [update, h]

@[simp] theorem current_update : (p.update c f).current = p.current := rfl

@[simp] theorem created_update : (p.update c f).created = p.created := rfl

end Process

end Morpheus
