import Morpheus.AnalysisStore
import Mathlib.Data.Option.Basic

/-!
# Words that share their analyses

A `gk_word` is copied by plain assignment, and the copies share one
`gk_analysis_storage` (`gkstring.h`, `gkstring.c`). A heap of numbered blocks stands for
the memory: using a block that was freed has no result. Above it stands a machine that
knows no addresses, in which a word holds a numbered store.
-/
namespace Morpheus

/-- The analysis fields of a `gk_word`. -/
structure Handle where
  storage : Option ℕ
  analysis : Option ℕ
  totanal : ℕ
  capacity : ℕ

/-- The fields of a cleared word. -/
def Handle.zero : Handle := ⟨none, none, 0, 0⟩

/-- A `gk_analysis_storage`; its owner is the address of a word. -/
structure StorageBlock where
  items : Option ℕ
  count : ℕ
  capacity : ℕ
  owner : ℕ

/-- The words by address, the storage blocks and the item arrays by number, the counters of
the context, and the numbers of the storage blocks freed so far. -/
structure Heap where
  handles : ℕ → Handle
  storages : ℕ → Option StorageBlock
  arrays : ℕ → Option (List GkAnalysis)
  storageCount : ℕ
  arrayCount : ℕ
  storageError : ℕ
  totalAnalyses : ℕ
  totalLemmas : ℕ
  freed : List ℕ

def Heap.empty : Heap := ⟨fun _ => .zero, fun _ => none, fun _ => none, 0, 0, 0, 0, 0, []⟩

namespace Heap

variable (heap : Heap)

def setHandle (h : ℕ) (handle : Handle) : Heap :=
  { heap with handles := Function.update heap.handles h handle }

def setStorage (s : ℕ) (block : StorageBlock) : Heap :=
  { heap with storages := Function.update heap.storages s (some block) }

def setArray (a : ℕ) (items : List GkAnalysis) : Heap :=
  { heap with arrays := Function.update heap.arrays a (some items) }

/-- `analysis_of` -/
def analysisOf (h : ℕ) : Option (Option ℕ) :=
  match (heap.handles h).storage with
  | none => some (heap.handles h).analysis
  | some s => (heap.storages s).map (·.items)

/-- `totanal_of` -/
def totanalOf (h : ℕ) : Option ℕ :=
  match (heap.handles h).storage with
  | none => some (heap.handles h).totanal
  | some s => (heap.storages s).map (·.count)

/-- `anal_capacity_of` -/
def analCapacityOf (h : ℕ) : Option ℕ :=
  match (heap.handles h).storage with
  | none => some (heap.handles h).capacity
  | some s => (heap.storages s).map (·.capacity)

/-- The analyses a word shows: the first `totanal_of` items of `analysis_of`. -/
def analysesOf (h : ℕ) : Option (List GkAnalysis) :=
  (heap.analysisOf h).bind fun analysis =>
    (heap.totanalOf h).bind fun totanal =>
      match analysis with
      | none => some []
      | some a => (heap.arrays a).map (·.take totanal)

/-- `EnsureGkAnalStorage`; `memory` says whether a block can be had. -/
def ensure (h : ℕ) (memory : Bool) : Heap × Bool :=
  let word := heap.handles h
  if word.storage.isSome then (heap, true)
  else if !memory then (heap, false)
  else
    let storage := heap.storageCount
    let heap := { heap with storageCount := storage + 1 }
    let heap := heap.setStorage storage ⟨word.analysis, word.totanal, word.capacity, h⟩
    (heap.setHandle h { word with storage := some storage }, true)

/-- `DetachGkAnalStorage` -/
def detach (h : ℕ) : Heap := heap.setHandle h .zero

/-- `free` of an item array -/
def freeArray : Option ℕ → Option Heap
  | none => some heap
  | some a =>
    if (heap.arrays a).isNone then none
    else some { heap with arrays := Function.update heap.arrays a none }

/-- `free` of a storage block -/
def freeStorage (s : ℕ) : Option Heap :=
  if (heap.storages s).isNone then none
  else some { heap with
    storages := Function.update heap.storages s none
    freed := heap.freed ++ [s] }

/-- `ReleaseGkAnalStorage` -/
def release (h : ℕ) : Option Heap :=
  match (heap.handles h).storage with
  | some s =>
    (heap.storages s).bind fun storage =>
      if storage.owner = h then
        (heap.freeArray storage.items).bind fun heap =>
          (heap.freeStorage s).map (·.detach h)
      else some (heap.detach h)
  | none => (heap.freeArray (heap.handles h).analysis).map (·.detach h)

/-- The assignment of the storage in `CpGkAnal`, with the ownership. -/
def takeStorage (h1 h2 : ℕ) : Option Heap :=
  let heap1 := heap.setHandle h1
    { heap.handles h1 with storage := (heap.handles h2).storage }
  match (heap.handles h2).storage with
  | none => some heap1
  | some s =>
    (heap1.storages s).map fun storage =>
      if storage.owner = h2 then heap1.setStorage s { storage with owner := h1 } else heap1

/-- The last three assignments of `CpGkAnal`. -/
def cacheFields (h1 h2 : ℕ) : Option Heap :=
  (heap.totanalOf h2).bind fun totanal =>
    (heap.analCapacityOf h2).bind fun capacity =>
      (heap.analysisOf h2).map fun analysis =>
        heap.setHandle h1 { heap.handles h1 with totanal, capacity, analysis }

/-- `CpGkAnal` -/
def cpGkAnal (h1 h2 : ℕ) : Option Heap :=
  if (heap.handles h1).storage ≠ (heap.handles h2).storage then
    let cleared :=
      if (heap.handles h1).storage.isSome then heap.release h1
      else (heap.analysisOf h2).bind fun analysis =>
        if (heap.handles h1).analysis ≠ analysis then heap.release h1
        else some (heap.detach h1)
    cleared.bind fun heap => (heap.takeStorage h1 h2).bind fun heap => heap.cacheFields h1 h2
  else heap.cacheFields h1 h2

/-- The first four slots, in `AddAnalysis`. -/
def createItems (s : ℕ) (created : Bool) (block : StorageBlock) : Heap × Bool :=
  if block.items.isNone then
    if created then
      let a := heap.arrayCount
      let heap := { heap with arrayCount := a + 1 }
      let heap := heap.setArray a (List.replicate 4 .zero)
      (heap.setStorage s { block with items := some a, capacity := 4 }, true)
    else ({ heap with storageError := heap.storageError + 1 }, false)
  else (heap, true)

/-- More slots, in `AddAnalysis`: `realloc` moves the items to a new array. -/
def growItems (s : ℕ) (grown : Bool) (block : StorageBlock) : Option (Heap × Bool) :=
  if block.count ≥ block.capacity then
    if block.capacity = 0 ∨ block.capacity > intMax / 2 ∨ !grown then some (heap, false)
    else
      match block.items with
      | none => none
      | some old =>
        (heap.arrays old).map fun items =>
          let a := heap.arrayCount
          let heap := { heap with
            arrayCount := a + 1, arrays := Function.update heap.arrays old none }
          let heap := heap.setArray a (items ++ List.replicate block.capacity .zero)
          (heap.setStorage s { block with items := some a, capacity := block.capacity * 2 }, true)
  else some (heap, true)

/-- The rest of `AddAnalysis`, on the items of a block with a free slot. -/
def fillItems (env : WordEnv) (s : ℕ) (offer : Offer) (block : StorageBlock) :
    Option (Heap × Bool) :=
  match block.items with
  | none => none
  | some a =>
    (heap.arrays a).map fun items =>
      let store : AnalysisStore :=
        ⟨items.take block.count, items.drop block.count, heap.storageError,
          heap.totalAnalyses, heap.totalLemmas⟩
      let result := storeCandidate env store offer
      let heap := heap.setArray a (result.1.stored ++ result.1.free)
      let heap := heap.setStorage s { block with count := result.1.stored.length }
      ({ heap with
          totalAnalyses := result.1.totalAnalyses
          totalLemmas := result.1.totalLemmas }, result.2)

/-- `AddAnalysis` on a storage block. -/
def addToBlock (env : WordEnv) (s : ℕ) (offer : Offer) : Option (Heap × Bool) :=
  (heap.storages s).bind fun block =>
    let created := heap.createItems s offer.created block
    if !created.2 then some created
    else (created.1.storages s).bind fun block =>
      (created.1.growItems s offer.grown block).bind fun grown =>
        if !grown.2 then some grown
        else (grown.1.storages s).bind fun block => grown.1.fillItems env s offer block

/-- `AddAnalysis` -/
def add (env : WordEnv) (h : ℕ) (offer : Offer) : Option (Heap × Bool) :=
  if heap.storageError ≠ 0 then some (heap, false)
  else
    (heap.analysisOf h).bind fun analysis =>
      (heap.totanalOf h).bind fun totanal =>
        if analysis.isNone ∧ totanal ≠ 0 then
          some ({ heap with storageError := heap.storageError + 1 }, false)
        else
          let ensured := heap.ensure h offer.ensured
          if !ensured.2 then some ensured
          else match (ensured.1.handles h).storage with
            | none => none
            | some s => ensured.1.addToBlock env s offer

end Heap

/-- What is done with words: `EnsureGkAnalStorage` (with or without memory), the assignment
`*h1 = *h2`, `AddAnalysis`, `CpGkAnal(h1,h2)` and `ReleaseGkAnalStorage`. -/
inductive HandleOp where
  | ensure (h : ℕ) (memory : Bool)
  | copy (h1 h2 : ℕ)
  | add (h : ℕ) (offer : Offer)
  | cp (h1 h2 : ℕ)
  | release (h : ℕ)

def Heap.step (env : WordEnv) (heap : Heap) : HandleOp → Option Heap
  | .ensure h memory => some (heap.ensure h memory).1
  | .copy h1 h2 => some (heap.setHandle h1 (heap.handles h2))
  | .add h offer => (heap.add env h offer).map (·.1)
  | .cp h1 h2 => heap.cpGkAnal h1 h2
  | .release h => heap.release h

/-- A run from words that are all cleared. -/
def heapRun (env : WordEnv) (ops : List HandleOp) : Option Heap :=
  ops.foldlM (Heap.step env) .empty

/-! ### Words that hold stores -/

/-- A store of analyses with the word that owns it. -/
structure OwnedStore where
  stored : List GkAnalysis
  free : List GkAnalysis
  owner : ℕ

/-- The store each word holds, the stores that were not released, how many there were, and
the counters of the context. -/
structure Holdings where
  holds : ℕ → Option ℕ
  live : ℕ → Option OwnedStore
  made : ℕ
  storageError : ℕ
  totalAnalyses : ℕ
  totalLemmas : ℕ

def Holdings.empty : Holdings := ⟨fun _ => none, fun _ => none, 0, 0, 0, 0⟩

namespace Holdings

variable (holdings : Holdings)

def hold (h : ℕ) (s : Option ℕ) : Holdings :=
  { holdings with holds := Function.update holdings.holds h s }

def put (s : ℕ) (store : OwnedStore) : Holdings :=
  { holdings with live := Function.update holdings.live s (some store) }

/-- A word without a store gets a new one, which it owns. -/
def ensure (h : ℕ) (memory : Bool) : Holdings :=
  if (holdings.holds h).isNone ∧ memory then
    let s := holdings.made
    let holdings := { holdings with made := s + 1 }
    (holdings.hold h (some s)).put s ⟨[], [], h⟩
  else holdings

/-- The owner takes the store with it; another word only lets go. -/
def release (h : ℕ) : Option Holdings :=
  match holdings.holds h with
  | none => some holdings
  | some s =>
    (holdings.live s).map fun store =>
      let holdings := holdings.hold h none
      if store.owner = h then
        { holdings with live := Function.update holdings.live s none }
      else holdings

/-- `h1` holds what `h2` holds, and owns it if `h2` did. -/
def take (h1 h2 : ℕ) : Option Holdings :=
  match holdings.holds h2 with
  | none => some (holdings.hold h1 none)
  | some s =>
    (holdings.live s).map fun store =>
      let holdings := holdings.hold h1 (some s)
      if store.owner = h2 then holdings.put s { store with owner := h1 } else holdings

/-- A word that holds a released store must not be used. -/
def usable (h : ℕ) : Bool :=
  match holdings.holds h with
  | none => true
  | some s => (holdings.live s).isSome

def cp (h1 h2 : ℕ) : Option Holdings :=
  if holdings.holds h1 ≠ holdings.holds h2 then
    (holdings.release h1).bind fun holdings => holdings.take h1 h2
  else if holdings.usable h2 then some holdings else none

/-- The store a word holds, as `addAnalysis` sees it. -/
def analysisStore (store : OwnedStore) : AnalysisStore :=
  ⟨store.stored, store.free, holdings.storageError, holdings.totalAnalyses,
    holdings.totalLemmas⟩

/-- The store and the counters after an `addAnalysis`. -/
def write (s : ℕ) (store : OwnedStore) (result : AnalysisStore) : Holdings :=
  let holdings := holdings.put s { store with stored := result.stored, free := result.free }
  { holdings with
    storageError := result.storageError
    totalAnalyses := result.totalAnalyses
    totalLemmas := result.totalLemmas }

/-- One `addAnalysis` on a store. -/
def addTo (env : WordEnv) (s : ℕ) (store : OwnedStore) (offer : Offer) : Holdings × Bool :=
  let result := addAnalysis env (holdings.analysisStore store) { offer with ensured := true }
  (holdings.write s store result.1, result.2)

def add (env : WordEnv) (h : ℕ) (offer : Offer) : Option (Holdings × Bool) :=
  if holdings.storageError ≠ 0 then some (holdings, false)
  else
    let ensured := holdings.ensure h offer.ensured
    match ensured.holds h with
    | none => some (ensured, false)
    | some s => (ensured.live s).map fun store => ensured.addTo env s store offer

def step (env : WordEnv) (holdings : Holdings) : HandleOp → Option Holdings
  | .ensure h memory => some (holdings.ensure h memory)
  | .copy h1 h2 => some (holdings.hold h1 (holdings.holds h2))
  | .add h offer => (holdings.add env h offer).map (·.1)
  | .cp h1 h2 => holdings.cp h1 h2
  | .release h => holdings.release h

end Holdings

/-- A run of the same operations; there is none when a word is added to, released or given
to `CpGkAnal` although the store it holds was released. -/
def holdingsRun (env : WordEnv) (ops : List HandleOp) : Option Holdings :=
  ops.foldlM (Holdings.step env) .empty

/-! ### The heap holds the stores -/

/-- A storage block with its array describes a store. -/
structure Describes (heap : Heap) (block : StorageBlock) (store : OwnedStore) : Prop where
  owner : block.owner = store.owner
  count : block.count = store.stored.length
  capacity : block.capacity = (store.stored ++ store.free).length
  noItems : block.items = none → store.stored ++ store.free = []
  someItems : ∀ a, block.items = some a →
    heap.arrays a = some (store.stored ++ store.free) ∧ store.stored ++ store.free ≠ []

/-- The heap refines the holdings. -/
structure Refines (heap : Heap) (holdings : Holdings) : Prop where
  storage : ∀ h, (heap.handles h).storage = holdings.holds h
  detached : ∀ h, holdings.holds h = none → heap.handles h = .zero
  blocks : ∀ s, Option.Rel (Describes heap) (heap.storages s) (holdings.live s)
  distinct : ∀ s s' block block' a, heap.storages s = some block →
    heap.storages s' = some block' → block.items = some a → block'.items = some a → s = s'
  reachable : ∀ a, heap.arrays a ≠ none →
    ∃ s block, heap.storages s = some block ∧ block.items = some a
  made : heap.storageCount = holdings.made
  newStorage : ∀ s, heap.storageCount ≤ s → heap.storages s = none
  newArray : ∀ a, heap.arrayCount ≤ a → heap.arrays a = none
  freedOnce : heap.freed.Nodup
  freed : ∀ s, s ∈ heap.freed ↔ s < heap.storageCount ∧ heap.storages s = none
  held : ∀ h s, holdings.holds h = some s → s < holdings.made
  counters : heap.storageError = holdings.storageError ∧
    heap.totalAnalyses = holdings.totalAnalyses ∧ heap.totalLemmas = holdings.totalLemmas

variable {heap : Heap} {holdings : Holdings}

theorem Describes.of_array {heap heap' : Heap} {block : StorageBlock} {store : OwnedStore}
    (h : Describes heap block store)
    (harray : ∀ a, block.items = some a → heap'.arrays a = heap.arrays a) :
    Describes heap' block store where
  owner := h.owner
  count := h.count
  capacity := h.capacity
  noItems := h.noItems
  someItems := by
    intro a ha
    rw [harray a ha]
    exact h.someItems a ha

/-- The blocks describe the same stores as long as their arrays stay. -/
theorem describes_rel {heap heap' : Heap} {block : Option StorageBlock}
    {store : Option OwnedStore} (h : Option.Rel (Describes heap) block store)
    (harray : ∀ b, block = some b → ∀ a, b.items = some a → heap'.arrays a = heap.arrays a) :
    Option.Rel (Describes heap') block store := by
  cases h with
  | none => exact .none
  | some hdesc => exact .some (hdesc.of_array (harray _ rfl))

theorem Refines.block (r : Refines heap holdings) {s : ℕ} {block : StorageBlock}
    (hs : heap.storages s = some block) :
    ∃ store, holdings.live s = some store ∧ Describes heap block store := by
  have hrel := r.blocks s
  rw [hs] at hrel
  cases hlive : holdings.live s with
  | none => rw [hlive] at hrel; cases hrel
  | some store =>
    rw [hlive] at hrel
    cases hrel with
    | some hdesc => exact ⟨store, rfl, hdesc⟩

theorem Refines.released (r : Refines heap holdings) {s : ℕ} :
    heap.storages s = none ↔ holdings.live s = none := by
  have hrel := r.blocks s
  cases hs : heap.storages s <;> cases hlive : holdings.live s <;> rw [hs, hlive] at hrel <;>
    cases hrel <;> simp

theorem Refines.store (r : Refines heap holdings) {s : ℕ} {store : OwnedStore}
    (hlive : holdings.live s = some store) :
    ∃ block, heap.storages s = some block ∧ Describes heap block store := by
  cases hs : heap.storages s with
  | none => rw [r.released.mp hs] at hlive; cases hlive
  | some block =>
    obtain ⟨store', hlive', hdesc⟩ := r.block hs
    rw [hlive] at hlive'
    cases hlive'
    exact ⟨block, rfl, hdesc⟩

/-- The fields of one word change, and it holds what they point to. -/
theorem Refines.setHandle (r : Refines heap holdings) (h : ℕ) (handle : Handle)
    (hzero : handle.storage = none → handle = .zero)
    (hheld : ∀ s, handle.storage = some s → s < holdings.made) :
    Refines (heap.setHandle h handle) (holdings.hold h handle.storage) where
  storage := by
    intro h'
    simp only [Heap.setHandle, Holdings.hold, Function.update_apply]
    split
    · rfl
    · exact r.storage h'
  detached := by
    intro h'
    simp only [Heap.setHandle, Holdings.hold, Function.update_apply]
    split
    · exact hzero
    · exact r.detached h'
  blocks := fun s => describes_rel (r.blocks s) (fun _ _ _ _ => rfl)
  distinct := r.distinct
  reachable := r.reachable
  made := r.made
  newStorage := r.newStorage
  newArray := r.newArray
  freedOnce := r.freedOnce
  freed := r.freed
  held := by
    intro h' s
    simp only [Holdings.hold, Function.update_apply]
    split
    · exact hheld s
    · exact r.held h' s
  counters := r.counters

theorem Refines.detach (r : Refines heap holdings) (h : ℕ) :
    Refines (heap.detach h) (holdings.hold h none) :=
  r.setHandle h .zero (fun _ => rfl) (fun _ hs => by cases hs)

theorem Refines.copy (r : Refines heap holdings) (h1 h2 : ℕ) :
    Refines (heap.setHandle h1 (heap.handles h2)) (holdings.hold h1 (holdings.holds h2)) := by
  have hset := r.setHandle h1 (heap.handles h2)
    (fun hnone => r.detached h2 (by rw [← r.storage]; exact hnone))
    (fun s hs => r.held h2 s (by rw [← r.storage]; exact hs))
  rw [r.storage h2] at hset
  exact hset

/-- A new block without items. -/
theorem Refines.newBlock (r : Refines heap holdings) (h : ℕ) :
    Refines
      ({ heap with storageCount := heap.storageCount + 1 }.setStorage heap.storageCount
        ⟨none, 0, 0, h⟩)
      ({ holdings with made := holdings.made + 1 }.put holdings.made ⟨[], [], h⟩) where
  storage := r.storage
  detached := r.detached
  blocks := by
    intro s
    simp only [Heap.setStorage, Holdings.put, ← r.made, Function.update_apply]
    split
    · refine .some ⟨rfl, rfl, rfl, fun _ => rfl, ?_⟩
      intro a ha
      cases ha
    · exact describes_rel (r.blocks s) (fun _ _ _ _ => rfl)
  distinct := by
    intro s s' block block' a hs hs' ha ha'
    simp only [Heap.setStorage, Function.update_apply] at hs hs'
    split at hs
    · cases hs
      cases ha
    · split at hs'
      · cases hs'
        cases ha'
      · exact r.distinct s s' block block' a hs hs' ha ha'
  reachable := by
    intro a ha
    obtain ⟨s, block, hs, hitems⟩ := r.reachable a ha
    refine ⟨s, block, ?_, hitems⟩
    have hne : s ≠ heap.storageCount := by
      intro heq
      rw [heq, r.newStorage _ le_rfl] at hs
      cases hs
    simp only [Heap.setStorage, Function.update_of_ne hne]
    exact hs
  made := by
    change heap.storageCount + 1 = holdings.made + 1
    rw [r.made]
  newStorage := by
    intro s hs
    change heap.storageCount + 1 ≤ s at hs
    have hne : s ≠ heap.storageCount := by omega
    simp only [Heap.setStorage, Function.update_of_ne hne]
    exact r.newStorage s (by omega)
  newArray := r.newArray
  freedOnce := r.freedOnce
  freed := by
    intro s
    change s ∈ heap.freed ↔ _
    rw [r.freed s]
    simp only [Heap.setStorage, Function.update_apply]
    split
    · rename_i heq
      simp [heq]
    · rename_i hne
      constructor
      · rintro ⟨hlt, hnone⟩
        exact ⟨by omega, hnone⟩
      · rintro ⟨hlt, hnone⟩
        exact ⟨by omega, hnone⟩
  held := by
    intro h' s hs
    have hlt := r.held h' s hs
    change s < holdings.made + 1
    omega
  counters := r.counters

theorem Refines.ensure (r : Refines heap holdings) (h : ℕ) (memory : Bool) :
    Refines (heap.ensure h memory).1 (holdings.ensure h memory) ∧
      (heap.ensure h memory).2 = ((holdings.ensure h memory).holds h).isSome := by
  unfold Heap.ensure Holdings.ensure
  cases hholds : holdings.holds h with
  | some s =>
    have hstorage : (heap.handles h).storage = some s := by rw [r.storage, hholds]
    simp only [hstorage, Option.isSome_some, if_true, Option.isNone_some, Bool.false_eq_true,
      false_and, if_false, hholds]
    exact ⟨r, trivial⟩
  | none =>
    have hzero := r.detached h hholds
    cases memory with
    | false =>
      simp only [hzero, Handle.zero, Option.isSome_none, Bool.false_eq_true, if_false,
        Bool.not_false, if_true, and_false, hholds]
      exact ⟨r, trivial⟩
    | true =>
      simp only [hzero, Handle.zero, Option.isSome_none, Bool.false_eq_true, if_false,
        Bool.not_true, Option.isNone_none, and_self, if_true]
      have hset := (r.newBlock h).setHandle h { Handle.zero with storage := some heap.storageCount }
        (fun hnone => by cases hnone)
        (fun s hs => by
          cases hs
          change heap.storageCount < holdings.made + 1
          rw [r.made]
          omega)
      constructor
      · rw [r.made] at hset ⊢
        exact hset
      · simp [Holdings.hold, Holdings.put]

theorem Describes.freeArray {block : StorageBlock} {store : OwnedStore}
    (h : Describes heap block store) :
    ∃ arrays, heap.freeArray block.items = some { heap with arrays } ∧
      ∀ a, arrays a = if block.items = some a then none else heap.arrays a := by
  cases hitems : block.items with
  | none => exact ⟨heap.arrays, rfl, fun a => by simp⟩
  | some old =>
    have harray := (h.someItems old hitems).1
    refine ⟨Function.update heap.arrays old none, ?_, ?_⟩
    · simp [Heap.freeArray, harray]
    · intro a
      simp only [Function.update_apply, Option.some.injEq]
      split <;> split <;> first | rfl | omega

/-- The array and the block of a store are freed together. -/
theorem Refines.free (r : Refines heap holdings) {s : ℕ} {block : StorageBlock}
    (hs : heap.storages s = some block) :
    ∃ heap', (heap.freeArray block.items).bind (fun heap => heap.freeStorage s) = some heap' ∧
      heap'.freed = heap.freed ++ [s] ∧ heap'.storages = Function.update heap.storages s none ∧
      Refines heap' { holdings with live := Function.update holdings.live s none } := by
  obtain ⟨store, -, hdesc⟩ := r.block hs
  obtain ⟨arrays, hfree, harrays⟩ := hdesc.freeArray
  -- no other block has the array that goes
  have hkept : ∀ s' block', s' ≠ s → heap.storages s' = some block' →
      ∀ a, block'.items = some a → arrays a = heap.arrays a := by
    intro s' block' hne hs' a ha
    rw [harrays a, if_neg]
    intro hitems
    exact hne (r.distinct s' s block' block a hs' hs ha hitems)
  refine ⟨{ heap with
      arrays, storages := Function.update heap.storages s none, freed := heap.freed ++ [s] },
    ?_, rfl, rfl, ?_⟩
  · rw [hfree]
    simp [Heap.freeStorage, hs]
  · constructor
    · exact r.storage
    · exact r.detached
    · intro s'
      simp only [Function.update_apply]
      split
      · exact .none
      · rename_i hne
        exact describes_rel (r.blocks s') (fun b hb => hkept s' b hne hb)
    · intro s1 s2 b1 b2 a h1 h2 ha1 ha2
      simp only [Function.update_apply] at h1 h2
      split at h1
      · cases h1
      · split at h2
        · cases h2
        · exact r.distinct s1 s2 b1 b2 a h1 h2 ha1 ha2
    · intro a ha
      change arrays a ≠ none at ha
      rw [harrays a] at ha
      split at ha
      · exact absurd rfl ha
      · rename_i hitems
        obtain ⟨s', block', hs', ha'⟩ := r.reachable a ha
        have hne : s' ≠ s := by
          intro heq
          rw [heq, hs] at hs'
          cases hs'
          exact hitems ha'
        refine ⟨s', block', ?_, ha'⟩
        simp only [Function.update_of_ne hne]
        exact hs'
    · exact r.made
    · intro s' hs'
      simp only [Function.update_apply]
      split
      · rfl
      · exact r.newStorage s' hs'
    · intro a ha
      change arrays a = none
      rw [harrays a, r.newArray a ha, ite_self]
    · have hnot : s ∉ heap.freed := by
        rw [r.freed s, hs]
        simp
      exact List.nodup_append.mpr
        ⟨r.freedOnce, List.nodup_singleton s, fun x hx y hy => by
          rw [List.mem_singleton.mp hy]
          intro heq
          exact hnot (heq ▸ hx)⟩
    · intro s'
      have hlt : s < heap.storageCount := by
        by_contra hge
        rw [r.newStorage s (by omega)] at hs
        cases hs
      simp only [List.mem_append, List.mem_singleton, r.freed s', Function.update_apply]
      split
      · rename_i heq
        simp [heq, hlt]
      · rename_i hne
        simp [hne]
    · exact r.held
    · exact r.counters

theorem Heap.free_detach {heap heap' : Heap} {items : Option ℕ} {s : ℕ}
    (hfree : (heap.freeArray items).bind (fun heap => heap.freeStorage s) = some heap') (h : ℕ) :
    ((heap.freeArray items).bind fun heap => (heap.freeStorage s).map (·.detach h)) =
      some (heap'.detach h) := by
  have hmap := congrArg (Option.map (·.detach h)) hfree
  rw [Option.map_bind] at hmap
  exact hmap

theorem Refines.release (r : Refines heap holdings) (h : ℕ) :
    Option.Rel Refines (heap.release h) (holdings.release h) := by
  unfold Heap.release Holdings.release
  rw [r.storage h]
  cases hholds : holdings.holds h with
  | none =>
    have hzero := r.detached h hholds
    have hdetach := r.detach h
    have hhold : holdings.hold h none = holdings := by
      simp [Holdings.hold, ← hholds]
    rw [hhold] at hdetach
    simp only [hzero, Handle.zero, Heap.freeArray, Option.map_some]
    exact .some hdetach
  | some s =>
    cases hs : heap.storages s with
    | none =>
      simp only [hs, r.released.mp hs, Option.bind_none, Option.map_none]
      exact .none
    | some block =>
      obtain ⟨store, hlive, hdesc⟩ := r.block hs
      simp only [hs, hlive, Option.bind_some, Option.map_some, hdesc.owner]
      by_cases howner : store.owner = h
      · obtain ⟨heap', hfree, -, -, r'⟩ := r.free hs
        rw [if_pos howner, if_pos howner, Heap.free_detach hfree h]
        exact .some (r'.detach h)
      · rw [if_neg howner, if_neg howner]
        exact .some (r.detach h)

theorem Refines.items_lt (r : Refines heap holdings) {s a : ℕ} {block : StorageBlock}
    (hs : heap.storages s = some block) (ha : block.items = some a) : a < heap.arrayCount := by
  obtain ⟨store, -, hdesc⟩ := r.block hs
  have harray := (hdesc.someItems a ha).1
  by_contra hge
  rw [r.newArray a (by omega)] at harray
  cases harray

theorem Refines.storage_lt (r : Refines heap holdings) {s : ℕ} {block : StorageBlock}
    (hs : heap.storages s = some block) : s < heap.storageCount := by
  by_contra hge
  rw [r.newStorage s (by omega)] at hs
  cases hs

/-- One block and its array change; an array the block does not keep is gone. -/
theorem Refines.put (r : Refines heap holdings) {s : ℕ} {block : StorageBlock}
    (hs : heap.storages s = some block) (block' : StorageBlock) (store' : OwnedStore)
    (arrays : ℕ → Option (List GkAnalysis)) (arrayCount errors analyses lemmas : ℕ)
    (hcount : heap.arrayCount ≤ arrayCount)
    (hitems : ∀ a, block'.items = some a →
      block.items = some a ∨ heap.arrayCount ≤ a ∧ a < arrayCount)
    (hother : ∀ a, block'.items ≠ some a →
      arrays a = if block.items = some a then none else heap.arrays a)
    (hdesc : Describes { heap with arrays } block' store') :
    Refines
      { heap with
        storages := Function.update heap.storages s (some block')
        arrays, arrayCount
        storageError := errors, totalAnalyses := analyses, totalLemmas := lemmas }
      { holdings.put s store' with
        storageError := errors, totalAnalyses := analyses, totalLemmas := lemmas } := by
  -- the arrays of the other blocks are neither the old nor the new one of this block
  have hapart : ∀ s' b, s' ≠ s → heap.storages s' = some b → ∀ a, b.items = some a →
      block.items ≠ some a ∧ block'.items ≠ some a := by
    intro s' b hne hb a ha
    have hnot : block.items ≠ some a := fun h => hne (r.distinct s' s b block a hb hs ha h)
    refine ⟨hnot, ?_⟩
    intro ha'
    have hlt := r.items_lt hb ha
    rcases hitems a ha' with h | ⟨hge, -⟩
    · exact hnot h
    · omega
  constructor
  · exact r.storage
  · exact r.detached
  · intro s'
    simp only [Holdings.put, Function.update_apply]
    split
    · exact .some (hdesc.of_array (fun _ _ => rfl))
    · rename_i hne
      apply describes_rel (r.blocks s')
      intro b hb a ha
      obtain ⟨hnot, hnot'⟩ := hapart s' b hne hb a ha
      change arrays a = heap.arrays a
      rw [hother a hnot', if_neg hnot]
  · intro s1 s2 b1 b2 a h1 h2 ha1 ha2
    simp only [Function.update_apply] at h1 h2
    split at h1 <;> rename_i hs1 <;> split at h2 <;> rename_i hs2
    · rw [hs1, hs2]
    · cases h1
      exact absurd ha1 (hapart s2 b2 hs2 h2 a ha2).2
    · cases h2
      exact absurd ha2 (hapart s1 b1 hs1 h1 a ha1).2
    · exact r.distinct s1 s2 b1 b2 a h1 h2 ha1 ha2
  · intro a ha
    change arrays a ≠ none at ha
    by_cases hnew : block'.items = some a
    · exact ⟨s, block', by simp, hnew⟩
    · rw [hother a hnew] at ha
      split at ha
      · exact absurd rfl ha
      · rename_i hold
        obtain ⟨s', b, hb, hba⟩ := r.reachable a ha
        have hne : s' ≠ s := by
          intro heq
          rw [heq, hs] at hb
          cases hb
          exact hold hba
        refine ⟨s', b, ?_, hba⟩
        simp only [Function.update_of_ne hne]
        exact hb
  · exact r.made
  · intro s' hs'
    have hlt := r.storage_lt hs
    have hne : s' ≠ s := by
      change heap.storageCount ≤ s' at hs'
      omega
    simp only [Function.update_of_ne hne]
    exact r.newStorage s' hs'
  · intro a ha
    change arrayCount ≤ a at ha
    have hnot : block'.items ≠ some a := by
      intro h
      rcases hitems a h with hold | ⟨-, hlt⟩
      · have hlt := r.items_lt hs hold
        omega
      · omega
    change arrays a = none
    rw [hother a hnot, r.newArray a (by omega), ite_self]
  · exact r.freedOnce
  · intro s'
    change s' ∈ heap.freed ↔ _
    rw [r.freed s']
    simp only [Function.update_apply]
    split
    · rename_i heq
      simp [heq, hs]
    · rfl
  · exact r.held
  · exact ⟨rfl, rfl, rfl⟩

/-- One block changes and the counters stay. -/
theorem Refines.putBlock (r : Refines heap holdings) {s : ℕ} {block : StorageBlock}
    (hs : heap.storages s = some block) (block' : StorageBlock) (store' : OwnedStore)
    (arrays : ℕ → Option (List GkAnalysis)) (arrayCount : ℕ)
    (hcount : heap.arrayCount ≤ arrayCount)
    (hitems : ∀ a, block'.items = some a →
      block.items = some a ∨ heap.arrayCount ≤ a ∧ a < arrayCount)
    (hother : ∀ a, block'.items ≠ some a →
      arrays a = if block.items = some a then none else heap.arrays a)
    (hdesc : Describes { heap with arrays } block' store') :
    Refines
      { heap with
        storages := Function.update heap.storages s (some block')
        arrays, arrayCount }
      (holdings.put s store') := by
  obtain ⟨herrors, hanalyses, hlemmas⟩ := r.counters
  have hput := r.put hs block' store' arrays arrayCount heap.storageError heap.totalAnalyses
    heap.totalLemmas hcount hitems hother hdesc
  have hsame : { holdings.put s store' with
      storageError := heap.storageError
      totalAnalyses := heap.totalAnalyses
      totalLemmas := heap.totalLemmas } = holdings.put s store' := by
    rw [herrors, hanalyses, hlemmas]
    rfl
  rw [hsame] at hput
  exact hput

theorem Holdings.hold_self {h : ℕ} {s : Option ℕ} (hs : holdings.holds h = s) :
    holdings.hold h s = holdings := by
  unfold Holdings.hold
  rw [← hs, Function.update_eq_self]

theorem Refines.take (r : Refines heap holdings) (h1 h2 : ℕ)
    (hzero : heap.handles h1 = .zero) :
    Option.Rel Refines (heap.takeStorage h1 h2) (holdings.take h1 h2) := by
  have hset := r.setHandle h1
    { heap.handles h1 with storage := (heap.handles h2).storage }
    (fun hnone => by
      dsimp only at hnone
      rw [hzero, hnone]
      rfl)
    (fun s hs => r.held h2 s (by rw [← r.storage]; exact hs))
  unfold Heap.takeStorage Holdings.take
  dsimp only at hset ⊢
  rw [r.storage h2] at hset ⊢
  cases hholds : holdings.holds h2 with
  | none =>
    rw [hholds] at hset
    exact .some hset
  | some s =>
    rw [hholds] at hset
    dsimp only
    cases hs : heap.storages s with
    | none =>
      rw [r.released.mp hs]
      change Option.Rel Refines ((heap.storages s).map _) _
      rw [hs]
      exact .none
    | some block =>
      obtain ⟨store, hlive, hdesc⟩ := r.block hs
      rw [hlive]
      change Option.Rel Refines ((heap.storages s).map _) _
      rw [hs]
      apply Option.Rel.some
      dsimp only
      rw [hdesc.owner]
      by_cases howner : store.owner = h2
      · rw [if_pos howner, if_pos howner]
        exact hset.putBlock hs { block with owner := h1 } { store with owner := h1 }
          heap.arrays heap.arrayCount le_rfl (fun a ha => Or.inl ha) (fun a ha => (if_neg ha).symm)
          ⟨rfl, hdesc.count, hdesc.capacity, hdesc.noItems, hdesc.someItems⟩
      · rw [if_neg howner, if_neg howner]
        exact hset

theorem Refines.cacheFields (r : Refines heap holdings) {h1 h2 : ℕ}
    (hsame : holdings.holds h1 = holdings.holds h2) :
    Option.Rel Refines (heap.cacheFields h1 h2)
      (if holdings.usable h2 then some holdings else none) := by
  unfold Heap.cacheFields Heap.totanalOf Heap.analCapacityOf Heap.analysisOf Holdings.usable
  rw [r.storage h2]
  cases hholds : holdings.holds h2 with
  | none =>
    rw [hholds] at hsame
    have hset := r.detach h1
    rw [Holdings.hold_self hsame] at hset
    simp only [r.detached h1 hsame, r.detached h2 hholds]
    exact .some hset
  | some s =>
    rw [hholds] at hsame
    cases hs : heap.storages s with
    | none =>
      simp only [hs, r.released.mp hs, Option.map_none, Option.bind_none, Option.isSome_none,
        Bool.false_eq_true, if_false]
      exact .none
    | some block =>
      obtain ⟨store, hlive, -⟩ := r.block hs
      have hstorage : (heap.handles h1).storage = some s := by rw [r.storage, hsame]
      have hset := r.setHandle h1
        { heap.handles h1 with
          totanal := block.count, capacity := block.capacity, analysis := block.items }
        (fun hnone => by
          dsimp only at hnone
          rw [hstorage] at hnone
          cases hnone)
        (fun s' hs' => r.held h1 s' (by rw [← r.storage]; exact hs'))
      dsimp only at hset
      rw [hstorage, Holdings.hold_self hsame] at hset
      simp only [hs, hlive, hstorage, Option.map_some, Option.bind_some, Option.isSome_some, if_true]
      exact .some hset

theorem Holdings.release_holds {h : ℕ} {holdings' : Holdings}
    (hrelease : holdings.release h = some holdings') :
    holdings'.holds = Function.update holdings.holds h none := by
  unfold Holdings.release at hrelease
  cases hholds : holdings.holds h with
  | none =>
    rw [hholds] at hrelease
    cases hrelease
    rw [← hholds, Function.update_eq_self]
  | some s =>
    rw [hholds] at hrelease
    dsimp only at hrelease
    cases hlive : holdings.live s with
    | none =>
      rw [hlive] at hrelease
      cases hrelease
    | some store =>
      rw [hlive] at hrelease
      cases hrelease
      dsimp only
      split <;> rfl

theorem Holdings.take_holds {h1 h2 : ℕ} {holdings' : Holdings} (hne : h1 ≠ h2)
    (htake : holdings.take h1 h2 = some holdings') :
    holdings'.holds = Function.update holdings.holds h1 (holdings.holds h2) ∧
      holdings'.usable h2 = true := by
  unfold Holdings.take at htake
  cases hholds : holdings.holds h2 with
  | none =>
    rw [hholds] at htake
    cases htake
    refine ⟨rfl, ?_⟩
    simp [Holdings.usable, Holdings.hold, Function.update_of_ne hne.symm, hholds]
  | some s =>
    rw [hholds] at htake
    dsimp only at htake
    cases hlive : holdings.live s with
    | none =>
      rw [hlive] at htake
      cases htake
    | some store =>
      rw [hlive] at htake
      cases htake
      dsimp only
      split
      · refine ⟨rfl, ?_⟩
        simp [Holdings.usable, Holdings.hold, Holdings.put, Function.update_of_ne hne.symm,
          hholds]
      · refine ⟨rfl, ?_⟩
        simp [Holdings.usable, Holdings.hold, Function.update_of_ne hne.symm, hholds, hlive]

/-- Related steps in sequence. -/
theorem optionRel_bind {α β γ δ : Type} {R : α → β → Prop} {S : γ → δ → Prop} {x : Option α}
    {y : Option β} {f : α → Option γ} {g : β → Option δ} (h : Option.Rel R x y)
    (hf : ∀ a b, x = some a → y = some b → R a b → Option.Rel S (f a) (g b)) :
    Option.Rel S (x.bind f) (y.bind g) := by
  cases h with
  | none => exact .none
  | some hab => exact hf _ _ rfl rfl hab

/-- What `CpGkAnal` does once `h1` was cleared. -/
theorem Refines.assign (r : Refines heap holdings) {h1 h2 : ℕ} (hne : h1 ≠ h2)
    (hholds : holdings.holds h1 = none) :
    Option.Rel Refines
      ((heap.takeStorage h1 h2).bind fun heap => heap.cacheFields h1 h2)
      (holdings.take h1 h2) := by
  rw [← Option.bind_fun_some (holdings.take h1 h2)]
  apply optionRel_bind (r.take h1 h2 (r.detached h1 hholds))
  intro heap' holdings' _ hlive r'
  obtain ⟨hh, husable⟩ := Holdings.take_holds hne hlive
  have hsame : holdings'.holds h1 = holdings'.holds h2 := by
    rw [hh, Function.update_self, Function.update_of_ne hne.symm]
  have hcache := r'.cacheFields hsame
  rw [husable, if_pos rfl] at hcache
  exact hcache

theorem Refines.cp (r : Refines heap holdings) (h1 h2 : ℕ) :
    Option.Rel Refines (heap.cpGkAnal h1 h2) (holdings.cp h1 h2) := by
  unfold Heap.cpGkAnal Holdings.cp
  rw [r.storage h1, r.storage h2]
  by_cases hsame : holdings.holds h1 = holdings.holds h2
  · rw [if_neg (not_not.mpr hsame), if_neg (not_not.mpr hsame)]
    exact r.cacheFields hsame
  have hne : h1 ≠ h2 := fun h => hsame (congrArg holdings.holds h)
  rw [if_pos hsame, if_pos hsame]
  cases hholds : holdings.holds h1 with
  | some s =>
    simp only [Option.isSome_some, if_true]
    apply optionRel_bind (r.release h1)
    intro heap' holdings' _ hlive r'
    apply r'.assign hne
    rw [Holdings.release_holds hlive, Function.update_self]
  | none =>
    -- there is nothing to free, but the items of `h2` are read for the comparison
    have hzero := r.detached h1 hholds
    have hreleased : heap.release h1 = some (heap.detach h1) := by
      simp [Heap.release, hzero, Handle.zero, Heap.freeArray]
    have hkept : holdings.release h1 = some holdings := by
      simp [Holdings.release, hholds]
    have hassign := (r.detach h1).assign hne (by simp [Holdings.hold])
    rw [Holdings.hold_self hholds] at hassign
    simp only [Option.isSome_none, Bool.false_eq_true, if_false, hreleased, ite_self, hkept,
      Option.bind_some]
    cases hitems : heap.analysisOf h2 with
    | some analysis => exact hassign
    | none =>
      have hlost : holdings.take h1 h2 = none := by
        unfold Heap.analysisOf at hitems
        rw [r.storage h2] at hitems
        unfold Holdings.take
        cases hholds2 : holdings.holds h2 with
        | none => rw [hholds2] at hitems; cases hitems
        | some s =>
          rw [hholds2] at hitems
          have hs : heap.storages s = none := Option.map_eq_none_iff.mp hitems
          simp [r.released.mp hs]
      rw [hlost]
      exact .none

theorem Holdings.put_self {s : ℕ} {store : OwnedStore} (hlive : holdings.live s = some store) :
    holdings.put s store = holdings := by
  unfold Holdings.put
  rw [← hlive, Function.update_eq_self]

theorem Refines.storageError (r : Refines heap holdings) :
    Refines { heap with storageError := heap.storageError + 1 }
      { holdings with storageError := holdings.storageError + 1 } where
  storage := r.storage
  detached := r.detached
  blocks := fun s => describes_rel (r.blocks s) (fun _ _ _ _ => rfl)
  distinct := r.distinct
  reachable := r.reachable
  made := r.made
  newStorage := r.newStorage
  newArray := r.newArray
  freedOnce := r.freedOnce
  freed := r.freed
  held := r.held
  counters := by
    obtain ⟨herrors, hanalyses, hlemmas⟩ := r.counters
    exact ⟨congrArg (· + 1) herrors, hanalyses, hlemmas⟩

/-- Making room in a block makes room in its store, and `AddAnalysis` goes on in it. -/
theorem Refines.reserve (r : Refines heap holdings) (env : WordEnv) {s : ℕ}
    {block : StorageBlock} {store : OwnedStore} (hs : heap.storages s = some block)
    (hlive : holdings.live s = some store) (hdesc : Describes heap block store) (offer : Offer) :
    ∃ heap', Refines heap'
        (holdings.write s store ((holdings.analysisStore store).reserve offer).1) ∧
      heap.addToBlock env s offer =
        if ((holdings.analysisStore store).reserve offer).2 then
          (heap'.storages s).bind fun block => heap'.fillItems env s offer block
        else some (heap', false) := by
  have hself : holdings.write s store (holdings.analysisStore store) = holdings :=
    Holdings.put_self hlive
  have hcount := hdesc.count
  have hcapacity := hdesc.capacity
  rw [List.length_append] at hcapacity
  unfold Heap.addToBlock AnalysisStore.reserve Holdings.analysisStore
  rw [hs]
  dsimp only [Option.bind_some]
  by_cases hnone : store.stored = [] ∧ store.free = []
  · -- no items yet
    rw [if_pos hnone]
    have hitems : block.items = none := by
      cases hitems : block.items with
      | none => rfl
      | some a =>
        have hne := (hdesc.someItems a hitems).2
        rw [hnone.1, hnone.2] at hne
        exact absurd rfl hne
    cases hcreated : offer.created with
    | false =>
      refine ⟨{ heap with storageError := heap.storageError + 1 }, ?_, ?_⟩
      · have herror := r.storageError
        rw [← Holdings.put_self hlive] at herror
        exact herror
      · simp [Heap.createItems, hitems]
    | true =>
      have hzero : block.count = 0 := by rw [hcount, hnone.1]; rfl
      have hput := r.putBlock hs { block with items := some heap.arrayCount, capacity := 4 }
        { store with free := List.replicate 4 .zero }
        (Function.update heap.arrays heap.arrayCount (some (List.replicate 4 .zero)))
        (heap.arrayCount + 1) (Nat.le_succ heap.arrayCount)
        (fun a ha => by
          cases ha
          exact Or.inr ⟨le_rfl, Nat.lt_succ_self _⟩)
        (fun a ha => by
          have hne : a ≠ heap.arrayCount := fun h => ha (by rw [h])
          rw [Function.update_of_ne hne, hitems, if_neg (by simp)])
        ⟨hdesc.owner, hcount, by simp [hnone.1], (by intro h; cases h), by
          intro a ha
          cases ha
          simp [hnone.1]⟩
      refine ⟨_, hput, ?_⟩
      simp [Heap.createItems, Heap.growItems, Heap.setStorage, Heap.setArray, hitems, hzero]
  · rw [if_neg hnone]
    obtain ⟨a, hitems⟩ : ∃ a, block.items = some a := by
      cases hitems : block.items with
      | some a => exact ⟨a, rfl⟩
      | none =>
        have hnil := List.append_eq_nil_iff.mp (hdesc.noItems hitems)
        exact absurd hnil hnone
    obtain ⟨harray, -⟩ := hdesc.someItems a hitems
    have hcreate : heap.createItems s offer.created block = (heap, true) := by
      simp [Heap.createItems, hitems]
    rw [hcreate]
    simp only [Bool.not_true, Bool.false_eq_true, if_false, hs, Option.bind_some]
    by_cases hfull : store.free = []
    · -- `realloc`
      have hstored : store.stored ≠ [] := fun h => hnone ⟨h, hfull⟩
      have hpos := List.length_pos_iff.mpr hstored
      rw [hfull, List.length_nil, Nat.add_zero] at hcapacity
      have hge : block.count ≥ block.capacity := by omega
      have hcap : block.capacity ≠ 0 := by omega
      rw [if_pos hfull]
      by_cases hmemory : block.capacity > intMax / 2 ∨ !offer.grown
      · have hmemory' : store.stored.length > intMax / 2 ∨ !offer.grown := by
          rw [← hcapacity]
          exact hmemory
        rw [if_pos hmemory']
        refine ⟨heap, ?_, ?_⟩
        · rw [← hself] at r
          exact r
        · simp only [Heap.growItems, if_pos hge, hcap, false_or, if_pos hmemory]
          rfl
      · have hmemory' : ¬ (store.stored.length > intMax / 2 ∨ !offer.grown) := by
          rw [← hcapacity]
          exact hmemory
        have hput := r.putBlock hs
          { block with items := some heap.arrayCount, capacity := block.capacity * 2 }
          { store with free := List.replicate block.capacity .zero }
          (Function.update (Function.update heap.arrays a none) heap.arrayCount
            (some (store.stored ++ store.free ++ List.replicate block.capacity .zero)))
          (heap.arrayCount + 1) (Nat.le_succ heap.arrayCount)
          (fun b hb => by
            cases hb
            exact Or.inr ⟨le_rfl, Nat.lt_succ_self _⟩)
          (fun b hb => by
            have hne : b ≠ heap.arrayCount := fun h => hb (by rw [h])
            simp only [Function.update_apply, if_neg hne, hitems, Option.some.injEq]
            split <;> split <;> first | rfl | omega)
          ⟨hdesc.owner, hcount, by simp [hcapacity]; omega, (by intro h; cases h), by
            intro b hb
            cases hb
            simp [hfull, hstored]⟩
        rw [if_neg hmemory']
        rw [hcapacity] at hput
        refine ⟨_, hput, ?_⟩
        simp only [Heap.growItems, if_pos hge, hcap, false_or, if_neg hmemory, hitems, harray,
          Option.map_some, Option.bind_some]
        rw [hcapacity]
        rfl
    · have hroom : ¬ block.count ≥ block.capacity := by
        have hpos := List.length_pos_iff.mpr hfull
        omega
      rw [if_neg hfull]
      refine ⟨heap, ?_, ?_⟩
      · rw [← hself] at r
        exact r
      · simp [Heap.growItems, hroom, hs]

theorem AnalysisStore.reserve_free {store : AnalysisStore} {offer : Offer}
    (h : (store.reserve offer).2 = true) : (store.reserve offer).1.free ≠ [] := by
  unfold AnalysisStore.reserve at h ⊢
  by_cases hnone : store.stored = [] ∧ store.free = []
  · rw [if_pos hnone] at h ⊢
    split at h
    · simp_all
    · cases h
  · rw [if_neg hnone] at h ⊢
    by_cases hfull : store.free = []
    · have hstored : store.stored ≠ [] := fun h' => hnone ⟨h', hfull⟩
      rw [if_pos hfull] at h ⊢
      dsimp only at h ⊢
      split at h
      · cases h
      · rename_i hmemory
        rw [if_neg hmemory]
        simpa using hstored
    · rw [if_neg hfull]
      exact hfull

/-- A candidate only moves the line between the stored and the free slots. -/
theorem storeCandidate_length (env : WordEnv) {store : AnalysisStore} (offer : Offer)
    (hfree : store.free ≠ []) :
    ((storeCandidate env store offer).1.stored ++
      (storeCandidate env store offer).1.free).length = (store.stored ++ store.free).length ∧
      (storeCandidate env store offer).1.storageError = store.storageError := by
  have hpos := List.length_pos_iff.mpr hfree
  simp only [List.length_append]
  unfold storeCandidate
  dsimp only
  split
  · simp only [List.length_cons, List.length_tail]
    exact ⟨by omega, trivial⟩
  · split
    · rename_i stored hmerge
      have hlength : stored.length = store.stored.length := by
        have hmap := congrArg List.length (mergeInto_some hmerge).2
        simpa using hmap
      simp only [List.length_cons, List.length_tail, hlength]
      exact ⟨by omega, trivial⟩
    · simp only [List.length_append, List.length_cons, List.length_nil, List.length_tail]
      exact ⟨by omega, trivial⟩

/-- Filling a slot of a block fills it in its store. -/
theorem Refines.fillItems (r : Refines heap holdings) (env : WordEnv) {s : ℕ}
    {block : StorageBlock} {store : OwnedStore} (hs : heap.storages s = some block)
    (hdesc : Describes heap block store) (offer : Offer) (hfree : store.free ≠ []) :
    ∃ heap', heap.fillItems env s offer block =
        some (heap', (storeCandidate env (holdings.analysisStore store) offer).2) ∧
      Refines heap'
        (holdings.write s store (storeCandidate env (holdings.analysisStore store) offer).1) := by
  obtain ⟨herrors, hanalyses, hlemmas⟩ := r.counters
  obtain ⟨a, hitems⟩ : ∃ a, block.items = some a := by
    cases hitems : block.items with
    | some a => exact ⟨a, rfl⟩
    | none => exact absurd (List.append_eq_nil_iff.mp (hdesc.noItems hitems)).2 hfree
  obtain ⟨harray, -⟩ := hdesc.someItems a hitems
  have hstore : (⟨(store.stored ++ store.free).take block.count,
      (store.stored ++ store.free).drop block.count, heap.storageError, heap.totalAnalyses,
      heap.totalLemmas⟩ : AnalysisStore) = holdings.analysisStore store := by
    rw [hdesc.count, List.take_left, List.drop_left, herrors, hanalyses, hlemmas]
    rfl
  have hkeep := storeCandidate_length env offer
    (show (holdings.analysisStore store).free ≠ [] from hfree)
  simp only [Heap.fillItems, hitems, harray, Option.map_some, hstore]
  generalize storeCandidate env (holdings.analysisStore store) offer = result at hkeep ⊢
  obtain ⟨hlength, herror⟩ := hkeep
  have hput := r.put hs { block with count := result.1.stored.length }
    { store with stored := result.1.stored, free := result.1.free }
    (Function.update heap.arrays a (some (result.1.stored ++ result.1.free)))
    heap.arrayCount heap.storageError result.1.totalAnalyses result.1.totalLemmas le_rfl
    (fun b hb => Or.inl hb)
    (fun b hb => by
      have hne : b ≠ a := fun h => hb (by rw [h]; exact hitems)
      rw [Function.update_of_ne hne, if_neg hb])
    ⟨hdesc.owner, rfl, hdesc.capacity.trans hlength.symm,
      (fun hnone => by
        dsimp only at hnone
        rw [hnone] at hitems
        cases hitems),
      fun b hb => by
        dsimp only at hb
        rw [hitems] at hb
        cases hb
        refine ⟨Function.update_self _ _ _, ?_⟩
        intro hnil
        rw [hnil] at hlength
        have hpos := List.length_pos_iff.mpr hfree
        simp only [Holdings.analysisStore, List.length_append, List.length_nil] at hlength
        omega⟩
  refine ⟨_, rfl, ?_⟩
  unfold Holdings.write
  rw [herror, show (holdings.analysisStore store).storageError = heap.storageError from
    herrors.symm]
  rw [hitems] at hput
  exact hput

/-- `AddAnalysis` on a block is `addAnalysis` on its store. -/
theorem Refines.addToBlock (r : Refines heap holdings) (env : WordEnv) {s : ℕ}
    {store : OwnedStore} (hlive : holdings.live s = some store)
    (hworks : holdings.storageError = 0) (offer : Offer) :
    ∃ heap', heap.addToBlock env s offer =
        some (heap', (holdings.addTo env s store offer).2) ∧
      Refines heap' (holdings.addTo env s store offer).1 := by
  obtain ⟨block, hs, hdesc⟩ := r.store hlive
  obtain ⟨heap', r', hadd⟩ := r.reserve env hs hlive hdesc offer
  have hsame : (holdings.analysisStore store).reserve { offer with ensured := true } =
      (holdings.analysisStore store).reserve offer := rfl
  have hfill : ∀ room, storeCandidate env room { offer with ensured := true } =
      storeCandidate env room offer := fun _ => rfl
  have hzero : ¬ (holdings.analysisStore store).storageError ≠ 0 := by
    rw [not_not]
    exact hworks
  rw [hadd]
  unfold Holdings.addTo addAnalysis
  rw [if_neg hzero, hsame]
  simp only [Bool.not_true, Bool.false_eq_true, if_false, hfill]
  cases hroom : ((holdings.analysisStore store).reserve offer).2 with
  | false =>
    simp only [Bool.not_false, if_true, Bool.false_eq_true, if_false]
    exact ⟨heap', rfl, r'⟩
  | true =>
    simp only [Bool.not_true, Bool.false_eq_true, if_false, if_true]
    have hlive' : (holdings.write s store ((holdings.analysisStore store).reserve offer).1).live s =
        some { store with
          stored := ((holdings.analysisStore store).reserve offer).1.stored
          free := ((holdings.analysisStore store).reserve offer).1.free } := by
      simp [Holdings.write, Holdings.put]
    obtain ⟨block', hs', hdesc'⟩ := r'.store hlive'
    obtain ⟨heap'', hfilled, r''⟩ := r'.fillItems env hs' hdesc' offer
      (AnalysisStore.reserve_free hroom)
    refine ⟨heap'', ?_, ?_⟩
    · rw [hs']
      exact hfilled
    · have hwrite : ∀ result, (holdings.write s store
          ((holdings.analysisStore store).reserve offer).1).write s
          { store with
            stored := ((holdings.analysisStore store).reserve offer).1.stored
            free := ((holdings.analysisStore store).reserve offer).1.free } result =
          holdings.write s store result := by
        intro result
        simp [Holdings.write, Holdings.put]
      rw [hwrite] at r''
      exact r''

/-- A word whose store was released shows nothing; any other is consistent. -/
theorem Refines.shows (r : Refines heap holdings) (h : ℕ) :
    (heap.analysisOf h = none ∧
      ∃ s, holdings.holds h = some s ∧ holdings.live s = none) ∨
    ∃ analysis totanal, heap.analysisOf h = some analysis ∧ heap.totanalOf h = some totanal ∧
      ¬ (analysis.isNone ∧ totanal ≠ 0) := by
  unfold Heap.analysisOf Heap.totanalOf
  rw [r.storage h]
  cases hholds : holdings.holds h with
  | none =>
    refine Or.inr ⟨_, _, rfl, rfl, ?_⟩
    simp [r.detached h hholds, Handle.zero]
  | some s =>
    cases hs : heap.storages s with
    | none => exact Or.inl ⟨by simp [hs], s, rfl, r.released.mp hs⟩
    | some block =>
      obtain ⟨store, -, hdesc⟩ := r.block hs
      refine Or.inr ⟨block.items, block.count, by simp [hs], by simp [hs], ?_⟩
      rintro ⟨hnone, hcount⟩
      have hnil := hdesc.noItems (Option.isNone_iff_eq_none.mp hnone)
      rw [hdesc.count, (List.append_eq_nil_iff.mp hnil).1] at hcount
      exact hcount rfl

theorem Refines.add (r : Refines heap holdings) (env : WordEnv) (h : ℕ) (offer : Offer) :
    Option.Rel (fun x y => Refines x.1 y.1 ∧ x.2 = y.2) (heap.add env h offer)
      (holdings.add env h offer) := by
  unfold Heap.add Holdings.add
  rw [r.counters.1]
  by_cases herror : holdings.storageError ≠ 0
  · rw [if_pos herror, if_pos herror]
    exact .some ⟨r, rfl⟩
  rw [if_neg herror, if_neg herror]
  obtain ⟨r', hflag⟩ := r.ensure h offer.ensured
  rcases r.shows h with ⟨hnone, s, hholds, hlive⟩ | ⟨analysis, totanal, hanalysis, htotanal, hok⟩
  · have hsame : holdings.ensure h offer.ensured = holdings := by
      simp [Holdings.ensure, hholds]
    simp only [hnone, hsame, hholds, hlive]
    exact .none
  · simp only [hanalysis, htotanal, Option.bind_some, if_neg hok, hflag]
    have hworks : (holdings.ensure h offer.ensured).storageError = 0 := by
      rw [not_not] at herror
      unfold Holdings.ensure
      split <;> exact herror
    generalize heap.ensure h offer.ensured = ensured at r' hflag ⊢
    generalize holdings.ensure h offer.ensured = holdings' at r' hflag hworks ⊢
    rw [r'.storage h]
    cases hholds : holdings'.holds h with
    | none =>
      rw [hholds] at hflag
      simp only [Option.isSome_none, Bool.not_false, if_true]
      exact .some ⟨r', hflag⟩
    | some s =>
      simp only [Option.isSome_some, Bool.not_true, Bool.false_eq_true, if_false]
      cases hlive : holdings'.live s with
      | none =>
        have hs := r'.released.mpr hlive
        simp only [Heap.addToBlock, hs, Option.bind_none, Option.map_none]
        exact .none
      | some store =>
        obtain ⟨heap', hadd, hrefines⟩ := r'.addToBlock env hlive hworks offer
        rw [hadd]
        exact .some ⟨hrefines, rfl⟩

/-- Every operation does the same on the heap and on the holdings, and touches freed memory
exactly when a word is used that holds a released store. -/
theorem Refines.step (r : Refines heap holdings) (env : WordEnv) (op : HandleOp) :
    Option.Rel Refines (heap.step env op) (holdings.step env op) := by
  cases op with
  | ensure h memory => exact .some (r.ensure h memory).1
  | copy h1 h2 => exact .some (r.copy h1 h2)
  | add h offer =>
    have hadd := r.add env h offer
    change Option.Rel Refines ((heap.add env h offer).map (·.1))
      ((holdings.add env h offer).map (·.1))
    cases hheap : heap.add env h offer <;> cases hholdings : holdings.add env h offer <;>
      rw [hheap, hholdings] at hadd <;> cases hadd
    · exact .none
    · rename_i hrel
      exact .some hrel.1
  | cp h1 h2 => exact r.cp h1 h2
  | release h => exact r.release h

theorem refines_empty : Refines .empty .empty where
  storage := fun _ => rfl
  detached := fun _ _ => rfl
  blocks := fun _ => .none
  distinct := fun _ _ _ _ _ hs => by cases hs
  reachable := fun _ ha => absurd rfl ha
  made := rfl
  newStorage := fun _ _ => rfl
  newArray := fun _ _ => rfl
  freedOnce := List.nodup_nil
  freed := fun s => by simp [Heap.empty]
  held := fun _ _ hs => by cases hs
  counters := ⟨rfl, rfl, rfl⟩

theorem Refines.run (r : Refines heap holdings) (env : WordEnv) (ops : List HandleOp) :
    Option.Rel Refines (ops.foldlM (Heap.step env) heap)
      (ops.foldlM (Holdings.step env) holdings) := by
  induction ops generalizing heap holdings with
  | nil => exact .some r
  | cons op ops ih =>
    rw [List.foldlM_cons, List.foldlM_cons]
    exact optionRel_bind (r.step env op) fun _ _ _ _ r' => ih r'

/-- A run touches freed memory exactly when a word is used whose store was released. -/
theorem heapRun_isSome_iff (env : WordEnv) (ops : List HandleOp) :
    (heapRun env ops).isSome = true ↔ (holdingsRun env ops).isSome = true := by
  have hrel := refines_empty.run env ops
  unfold heapRun holdingsRun
  cases hheap : ops.foldlM (Heap.step env) .empty <;>
    cases hholdings : ops.foldlM (Holdings.step env) .empty <;>
    rw [hheap, hholdings] at hrel <;> cases hrel <;> simp

theorem Refines.analysesOf (r : Refines heap holdings) {h s : ℕ} {store : OwnedStore}
    (hholds : holdings.holds h = some s) (hlive : holdings.live s = some store) :
    heap.totanalOf h = some store.stored.length ∧ heap.analysesOf h = some store.stored := by
  obtain ⟨block, hs, hdesc⟩ := r.store hlive
  have hstorage : (heap.handles h).storage = some s := by rw [r.storage, hholds]
  have htotanal : heap.totanalOf h = some store.stored.length := by
    simp [Heap.totanalOf, hstorage, hs, hdesc.count]
  have hanalysis : heap.analysisOf h = some block.items := by
    simp [Heap.analysisOf, hstorage, hs]
  refine ⟨htotanal, ?_⟩
  unfold Heap.analysesOf
  rw [htotanal, hanalysis]
  dsimp only [Option.bind_some]
  cases hitems : block.items with
  | none =>
    have hnil := List.append_eq_nil_iff.mp (hdesc.noItems hitems)
    rw [hnil.1]
  | some a =>
    dsimp only
    rw [(hdesc.someItems a hitems).1, Option.map_some, List.take_left]

/-- The owner frees the block; any other word frees nothing. -/
theorem Refines.release_frees (r : Refines heap holdings) {h s : ℕ} {store : OwnedStore}
    (hholds : holdings.holds h = some s) (hlive : holdings.live s = some store) :
    ∃ heap', heap.release h = some heap' ∧
      (store.owner = h → heap'.freed = heap.freed ++ [s] ∧
        heap'.storages = Function.update heap.storages s none) ∧
      (store.owner ≠ h → heap'.freed = heap.freed ∧ heap'.storages = heap.storages ∧
        heap'.arrays = heap.arrays) := by
  obtain ⟨block, hs, hdesc⟩ := r.store hlive
  have hstorage : (heap.handles h).storage = some s := by rw [r.storage, hholds]
  unfold Heap.release
  rw [hstorage]
  dsimp only
  rw [hs]
  dsimp only [Option.bind_some]
  rw [hdesc.owner]
  by_cases howner : store.owner = h
  · obtain ⟨heap', hfree, hfreed, hstorages, -⟩ := r.free hs
    rw [if_pos howner, Heap.free_detach hfree h]
    exact ⟨_, rfl, fun _ => ⟨hfreed, hstorages⟩, fun hne => absurd howner hne⟩
  · rw [if_neg howner]
    exact ⟨_, rfl, fun heq => absurd heq howner, fun _ => ⟨rfl, rfl, rfl⟩⟩

/-! ### Owners that are not overwritten -/

namespace Holdings

/-- The live store that a word owns. -/
def owned (holdings : Holdings) (h : ℕ) : Option ℕ :=
  (holdings.holds h).filter fun s => (holdings.live s).any fun store => store.owner = h

/-- An assignment after which no word owns the store that `h1` owned. -/
def overwrites (holdings : Holdings) : HandleOp → Bool
  | .copy h1 h2 => (holdings.owned h1).any fun s => holdings.holds h2 ≠ some s
  | _ => false

/-- No assignment of a run overwrites the owner of a live store. -/
def keepsOwners (env : WordEnv) : Holdings → List HandleOp → Bool
  | _, [] => true
  | holdings, op :: ops =>
    !holdings.overwrites op && (holdings.step env op).all fun next => keepsOwners env next ops

/-- Every live store is held by its owner. -/
def OwnersHold (holdings : Holdings) : Prop :=
  ∀ s store, holdings.live s = some store → holdings.holds store.owner = some s

theorem owned_eq_some {h s : ℕ} : holdings.owned h = some s ↔
    holdings.holds h = some s ∧ ∃ store, holdings.live s = some store ∧ store.owner = h := by
  simp [owned, Option.filter_eq_some_iff, Option.any_eq_true]

theorem OwnersHold.ensure (ho : holdings.OwnersHold) (h : ℕ) (memory : Bool) :
    (holdings.ensure h memory).OwnersHold := by
  unfold Holdings.ensure
  split
  case isFalse => exact ho
  rename_i hnew
  have hnone : holdings.holds h = none := Option.isNone_iff_eq_none.mp hnew.1
  intro s store hlive
  by_cases hs : s = holdings.made
  · subst hs
    simp only [put, hold, Function.update_self, Option.some.injEq] at hlive
    simp [put, hold, ← hlive]
  · have hlive' : holdings.live s = some store := by simpa [put, hold, hs] using hlive
    have hheld := ho s store hlive'
    have hother : store.owner ≠ h := fun heq => by simp [heq, hnone] at hheld
    simpa [put, hold, hother] using hheld

theorem OwnersHold.copy (ho : holdings.OwnersHold) {h1 h2 : ℕ}
    (hkeep : holdings.overwrites (.copy h1 h2) = false) :
    (holdings.hold h1 (holdings.holds h2)).OwnersHold := by
  intro s store hlive
  have hheld := ho s store hlive
  by_cases howner : store.owner = h1
  · have howned : holdings.owned h1 = some s :=
      owned_eq_some.mpr ⟨by rw [← howner, hheld], store, hlive, howner⟩
    have hsame : holdings.holds h2 = some s := by
      rw [overwrites, howned] at hkeep
      simpa using hkeep
    simp [Holdings.hold, howner, hsame]
  · simpa [Holdings.hold, howner] using hheld

/-- A word that is released owns nothing any more. -/
theorem OwnersHold.release (ho : holdings.OwnersHold) {h : ℕ} {next : Holdings}
    (hrel : holdings.release h = some next) : next.OwnersHold := by
  unfold Holdings.release at hrel
  cases hholds : holdings.holds h with
  | none =>
    rw [hholds] at hrel
    exact Option.some.inj hrel ▸ ho
  | some s =>
    rw [hholds] at hrel
    obtain ⟨freed, hfreed, rfl⟩ := Option.map_eq_some_iff.mp hrel
    have hkept : ∀ s' store, s' ≠ s ∨ freed.owner ≠ h → holdings.live s' = some store →
        Function.update holdings.holds h none store.owner = some s' := by
      intro s' store hs' hlive
      have hheld := ho s' store hlive
      have hother : store.owner ≠ h := by
        rintro heq
        obtain rfl := Option.some.inj (hholds.symm.trans (heq ▸ hheld))
        obtain rfl := Option.some.inj (hfreed.symm.trans hlive)
        exact hs'.elim (fun hne => hne rfl) fun hne => hne heq
      rwa [Function.update_of_ne hother]
    dsimp only
    split
    · intro s' store hlive
      by_cases hs : s' = s
      · simp [hs] at hlive
      · exact hkept s' store (.inl hs) (by simpa [Holdings.hold, hs] using hlive)
    · rename_i hforeign
      exact fun s' store hlive => hkept s' store (.inr hforeign) hlive

theorem OwnersHold.take (ho : holdings.OwnersHold) {h1 h2 : ℕ} {next : Holdings}
    (hfree : holdings.holds h1 = none) (htake : holdings.take h1 h2 = some next) :
    next.OwnersHold := by
  have hother : ∀ s store, holdings.live s = some store → store.owner ≠ h1 := by
    intro s store hlive heq
    have hheld := ho s store hlive
    simp [heq, hfree] at hheld
  have hmoved : ∀ (value : Option ℕ) s store, holdings.live s = some store →
      (holdings.hold h1 value).holds store.owner = some s := by
    intro value s store hlive
    exact (Function.update_of_ne (hother s store hlive) ..).trans (ho s store hlive)
  unfold Holdings.take at htake
  cases hholds : holdings.holds h2 with
  | none =>
    rw [hholds] at htake
    exact Option.some.inj htake ▸ hmoved none
  | some t =>
    rw [hholds] at htake
    obtain ⟨shared, -, rfl⟩ := Option.map_eq_some_iff.mp htake
    dsimp only
    split
    · intro s store hlive
      by_cases hs : s = t
      · subst hs
        simp only [put, Function.update_self, Option.some.injEq] at hlive
        simp [put, hold, ← hlive]
      · exact hmoved _ s store (by simpa [put, hold, hs] using hlive)
    · exact hmoved _

theorem OwnersHold.cp (ho : holdings.OwnersHold) {h1 h2 : ℕ} {next : Holdings}
    (hcp : holdings.cp h1 h2 = some next) : next.OwnersHold := by
  unfold Holdings.cp at hcp
  split at hcp
  · obtain ⟨released, hrel, htake⟩ := Option.bind_eq_some_iff.mp hcp
    have hfree : released.holds h1 = none := by simp [release_holds hrel]
    exact (ho.release hrel).take hfree htake
  · split at hcp
    · exact Option.some.inj hcp ▸ ho
    · cases hcp

theorem OwnersHold.write (ho : holdings.OwnersHold) {s : ℕ} {store : OwnedStore}
    (hlive : holdings.live s = some store) (result : AnalysisStore) :
    (holdings.write s store result).OwnersHold := by
  intro s' store' hlive'
  by_cases hs : s' = s
  · subst hs
    simp only [Holdings.write, put, Function.update_self, Option.some.injEq] at hlive'
    subst hlive'
    exact ho s' store hlive
  · exact ho s' store' (by simpa [Holdings.write, put, hs] using hlive')

theorem OwnersHold.add (ho : holdings.OwnersHold) {env : WordEnv} {h : ℕ} {offer : Offer}
    {result : Holdings × Bool} (hadd : holdings.add env h offer = some result) :
    result.1.OwnersHold := by
  unfold Holdings.add at hadd
  split at hadd
  · exact Option.some.inj hadd ▸ ho
  have hensured := ho.ensure h offer.ensured
  dsimp only at hadd
  split at hadd
  · exact Option.some.inj hadd ▸ hensured
  · obtain ⟨store, hlive, rfl⟩ := Option.map_eq_some_iff.mp hadd
    exact hensured.write hlive _

theorem OwnersHold.step (ho : holdings.OwnersHold) {env : WordEnv} {op : HandleOp}
    {next : Holdings} (hkeep : holdings.overwrites op = false)
    (hstep : holdings.step env op = some next) : next.OwnersHold := by
  cases op with
  | ensure h memory => exact Option.some.inj hstep ▸ ho.ensure h memory
  | copy h1 h2 => exact Option.some.inj hstep ▸ ho.copy hkeep
  | add h offer =>
    obtain ⟨result, hadd, rfl⟩ := Option.map_eq_some_iff.mp hstep
    exact ho.add hadd
  | cp h1 h2 => exact ho.cp hstep
  | release h => exact ho.release hstep

theorem OwnersHold.run {env : WordEnv} {ops : List HandleOp} {final : Holdings}
    (ho : holdings.OwnersHold) (hkeep : keepsOwners env holdings ops = true)
    (hrun : ops.foldlM (Holdings.step env) holdings = some final) : final.OwnersHold := by
  induction ops generalizing holdings with
  | nil => exact Option.some.inj hrun ▸ ho
  | cons op ops ih =>
    rw [List.foldlM_cons] at hrun
    obtain ⟨next, hstep, hrest⟩ := Option.bind_eq_some_iff.mp hrun
    rw [keepsOwners, Bool.and_eq_true, Bool.not_eq_true', hstep] at hkeep
    exact ih (ho.step hkeep.1 hstep) hkeep.2 hrest

end Holdings

/-- Words share their analyses as long as none is used after the owner of its store was
released: no freed memory is touched, every word that holds a store shows the analyses of
that store, a block is freed at most once and only with its owner, and a word that is not
the owner frees nothing. If no assignment overwrites the owner of a live store, every block
that was not freed is held by its owner, whose release frees it. -/
theorem sharedAnalyses_run (env : WordEnv) (ops : List HandleOp) {holdings : Holdings}
    (hrun : holdingsRun env ops = some holdings) :
    ∃ heap, heapRun env ops = some heap ∧
      (∀ h s store, holdings.holds h = some s → holdings.live s = some store →
        (heap.handles h).storage = some s ∧
        (∃ block, heap.storages s = some block ∧ block.owner = store.owner) ∧
        heap.totanalOf h = some store.stored.length ∧
        heap.analysesOf h = some store.stored) ∧
      heap.freed.Nodup ∧
      (∀ s, s ∈ heap.freed ↔ s < heap.storageCount ∧ holdings.live s = none) ∧
      (∀ h s store, holdings.holds h = some s → holdings.live s = some store →
        ∃ heap', heap.release h = some heap' ∧
          (store.owner = h → heap'.freed = heap.freed ++ [s] ∧
            heap'.storages = Function.update heap.storages s none) ∧
          (store.owner ≠ h → heap'.freed = heap.freed ∧ heap'.storages = heap.storages ∧
            heap'.arrays = heap.arrays)) ∧
      (Holdings.keepsOwners env .empty ops = true →
        ∀ s block, heap.storages s = some block →
          (heap.handles block.owner).storage = some s ∧
          ∃ heap', heap.release block.owner = some heap' ∧ heap'.freed = heap.freed ++ [s]) := by
  have hrel := refines_empty.run env ops
  rw [show ops.foldlM (Holdings.step env) Holdings.empty = some holdings from hrun] at hrel
  cases hheap : ops.foldlM (Heap.step env) .empty with
  | none => rw [hheap] at hrel; cases hrel
  | some heap =>
    rw [hheap] at hrel
    cases hrel with
    | some r =>
      refine ⟨heap, hheap, ?_, r.freedOnce, ?_, ?_, ?_⟩
      · intro h s store hholds hlive
        obtain ⟨block, hs, hdesc⟩ := r.store hlive
        obtain ⟨htotanal, hanalyses⟩ := r.analysesOf hholds hlive
        exact ⟨by rw [r.storage, hholds], ⟨block, hs, hdesc.owner⟩, htotanal, hanalyses⟩
      · intro s
        rw [r.freed s, r.released]
      · intro h s store hholds hlive
        exact r.release_frees hholds hlive
      · intro hkeep s block hs
        have hempty : Holdings.OwnersHold .empty := fun _ _ hlive => by cases hlive
        obtain ⟨store, hlive, hdesc⟩ := r.block hs
        have hholds := hempty.run hkeep hrun s store hlive
        obtain ⟨heap', hrelease, hfrees, -⟩ := r.release_frees hholds hlive
        rw [hdesc.owner]
        exact ⟨by rw [r.storage, hholds], heap', hrelease, (hfrees rfl).1⟩

/-- A copy is released after the owner: the released block is read. -/
theorem sharedAnalyses_dangling :
    ∃ heap, heapRun ⟨0, 0⟩ [.ensure 0 true, .copy 1 0, .release 0] = some heap ∧
      0 ∈ heap.freed ∧ (heap.handles 1).storage = some 0 ∧
      heap.step ⟨0, 0⟩ (.release 1) = none :=
  ⟨_, rfl, List.mem_singleton.mpr rfl, rfl, rfl⟩

/-- A copy overwrites the owner of the first block, which nothing frees any more. -/
example :
    Holdings.keepsOwners ⟨0, 0⟩ .empty
        [.ensure 0 true, .ensure 1 true, .copy 0 1, .release 0, .release 1] = false ∧
      ∃ heap, heapRun ⟨0, 0⟩ [.ensure 0 true, .ensure 1 true, .copy 0 1, .release 0, .release 1] =
          some heap ∧
        heap.freed = [1] ∧ (heap.storages 0).isSome = true :=
  ⟨by decide, _, rfl, rfl, rfl⟩

/-- An analysis is added through a copy, and the copy is released. -/
def sharedOps : List HandleOp :=
  [.ensure 0 true, .copy 1 0, .add 1 (.plain plainForm), .cp 2 0, .release 1]

theorem sharedAnalyses_twoWords :
    ∃ heap, heapRun ⟨0, 0⟩ sharedOps = some heap ∧ heap.totanalOf 0 = some 1 ∧
      heap.totanalOf 2 = some 1 ∧ heap.freed.Nodup ∧
      ∃ block heap', heap.storages 0 = some block ∧
        (heap.handles block.owner).storage = some 0 ∧
        heap.release block.owner = some heap' ∧ heap'.freed = heap.freed ++ [0] := by
  have hrun : (holdingsRun ⟨0, 0⟩ sharedOps).isSome = true := by decide +kernel
  have hholds : ((holdingsRun ⟨0, 0⟩ sharedOps).get hrun).holds 0 = some 0 ∧
      ((holdingsRun ⟨0, 0⟩ sharedOps).get hrun).holds 2 = some 0 := by
    decide +revert +kernel
  have hlive : (((holdingsRun ⟨0, 0⟩ sharedOps).get hrun).live 0).isSome = true := by
    decide +revert +kernel
  have hone : ((((holdingsRun ⟨0, 0⟩ sharedOps).get hrun).live 0).get hlive).stored.length = 1 := by
    decide +revert +kernel
  obtain ⟨heap, hheap, hshow, honce, -, -, howners⟩ :=
    sharedAnalyses_run ⟨0, 0⟩ sharedOps (Option.some_get hrun).symm
  have hzero := hshow 0 0 _ hholds.1 (Option.some_get hlive).symm
  have htwo := hshow 2 0 _ hholds.2 (Option.some_get hlive).symm
  rw [hone] at hzero htwo
  obtain ⟨block, hblock, -⟩ := hzero.2.1
  obtain ⟨hpoints, heap', hrelease, hfreed⟩ := howners (by decide +kernel) 0 block hblock
  exact ⟨heap, hheap, hzero.2.2.1, htwo.2.2.1, honce, block, heap', hblock, hpoints, hrelease,
    hfreed⟩

end Morpheus
