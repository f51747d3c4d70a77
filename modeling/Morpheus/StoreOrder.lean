import Morpheus.StoreInvariant

/-!
# The order of merging

The first of several equivalent candidates is stored, and the others are merged into it. A stored
analysis that is not marked for a dialect is not restricted by later ones, but a marked one keeps
its dialects when an unmarked one comes.
-/
namespace Morpheus

/-- The dialect of the candidate of a call. -/
def candidateDialect (call : WordEnv × Offer) : UInt16 :=
  ((call.2.own call.1).map fun a => a.dialect).getD 0

/-- Calls with equivalent candidates, for a store that has no equivalent of them and room for one
more analysis, with the memory they need. -/
structure EquivalentCalls (store : AnalysisStore) (calls : List (WordEnv × Offer)) : Prop where
  blank : store.FreeBlank
  working : store.storageError = 0
  room : 2 * (store.stored.length + 1) ≤ intMax
  memory : ∀ call ∈ calls,
    call.2.ensured = true ∧ call.2.created = true ∧ call.2.grown = true
  accepted : ∀ call ∈ calls, ∃ a, call.2.own call.1 = some a
  equivalent : ∀ call ∈ calls, ∀ other ∈ calls, ∀ a b, call.2.own call.1 = some a →
    other.2.own other.1 = some b → equivAnal a b = true
  fresh : ∀ call ∈ calls, ∀ a, call.2.own call.1 = some a →
    ∀ b ∈ store.stored, equivAnal a b = false

/-- All candidates are marked for a dialect, or none is. -/
def Unmixed (calls : List (WordEnv × Offer)) : Prop :=
  (∀ call ∈ calls, candidateDialect call ≠ 0) ∨ ∀ call ∈ calls, candidateDialect call = 0

section Dialects
variable {d : UInt16} {ds ds' : List UInt16}

theorem or_ne_zero {d e : UInt16} (h : d ≠ 0) : d ||| e ≠ 0 := by
  intro hzero
  exact h (UInt16.or_eq_zero_iff.mp hzero).1

theorem foldl_or_ne_zero (ds : List UInt16) (h : d ≠ 0) : ds.foldl (· ||| ·) d ≠ 0 := by
  induction ds generalizing d with
  | nil => exact h
  | cons e ds ih => exact ih (or_ne_zero h)

theorem foldl_merge_unmarked (ds : List UInt16) : ds.foldl mergeDialect 0 = 0 := by
  induction ds with
  | nil => rfl
  | cons e ds ih => exact ih

theorem foldl_merge_marked (ds : List UInt16) (h : d ≠ 0) :
    ds.foldl mergeDialect d = ds.foldl (· ||| ·) d := by
  induction ds generalizing d with
  | nil => rfl
  | cons e ds ih =>
    have hmerge : mergeDialect d e = d ||| e := if_pos h
    rw [List.foldl_cons, List.foldl_cons, hmerge]
    exact ih (or_ne_zero h)

/-- The dialects of a list joined, from the first on. -/
def joinFirst : List UInt16 → UInt16
  | [] => 0
  | d :: ds => ds.foldl mergeDialect d

theorem joinFirst_unmarked (h : ∀ d ∈ ds, d = 0) : joinFirst ds = 0 := by
  cases ds with
  | nil => rfl
  | cons d ds =>
    rw [joinFirst, h d List.mem_cons_self]
    exact foldl_merge_unmarked ds

theorem joinFirst_marked (h : ∀ d ∈ ds, d ≠ 0) : joinFirst ds = ds.foldl (· ||| ·) 0 := by
  cases ds with
  | nil => rfl
  | cons d ds =>
    rw [joinFirst, foldl_merge_marked ds (h d List.mem_cons_self), List.foldl_cons, UInt16.zero_or]

theorem joinFirst_perm (hds : (∀ d ∈ ds, d ≠ 0) ∨ ∀ d ∈ ds, d = 0) (h : ds'.Perm ds) :
    joinFirst ds' = joinFirst ds := by
  rcases hds with hmarked | hunmarked
  · rw [joinFirst_marked hmarked, joinFirst_marked fun d hd => hmarked d (h.mem_iff.mp hd)]
    apply h.foldl_eq'
    intro x _ y _ z
    rw [UInt16.or_assoc, UInt16.or_comm x, ← UInt16.or_assoc]
  · rw [joinFirst_unmarked hunmarked, joinFirst_unmarked fun d hd => hunmarked d (h.mem_iff.mp hd)]

end Dialects

section Runs
variable {store : AnalysisStore} {calls calls' : List (WordEnv × Offer)}

theorem reserve_succeeds {offer : Offer} (hcreated : offer.created = true) (hgrown : offer.grown = true)
    (hroom : store.stored.length ≤ intMax / 2) : (store.reserve offer).2 = true := by
  have hfits : ¬ (store.stored.length > intMax / 2 ∨ (!offer.grown) = true) := by
    rw [hgrown]
    simpa using hroom
  unfold AnalysisStore.reserve
  dsimp only
  rw [if_pos hcreated, if_neg hfits]
  split_ifs <;> rfl

theorem addAnalysis_working {env : WordEnv} {offer : Offer} (hworking : store.storageError = 0)
    (hcreated : offer.created = true) : (addAnalysis env store offer).1.storageError = 0 := by
  have hreserve : (store.reserve offer).1.storageError = store.storageError := by
    unfold AnalysisStore.reserve
    dsimp only
    rw [if_pos hcreated]
    split_ifs <;> rfl
  have hkept : ∀ room : AnalysisStore, (storeCandidate env room offer).1.storageError =
      room.storageError := by
    intro room
    unfold storeCandidate
    dsimp only
    split
    · rfl
    · split <;> rfl
  unfold addAnalysis
  dsimp only
  split_ifs
  · exact hworking
  · exact hworking
  · exact hreserve.trans hworking
  · exact (hkept _).trans (hreserve.trans hworking)

/-- The first candidate is stored, as there is no equivalent one. -/
theorem addAnalysis_fresh {env : WordEnv} {offer : Offer} {a : GkAnalysis} (hblank : store.FreeBlank)
    (hworking : store.storageError = 0) (hensured : offer.ensured = true)
    (hreserved : (store.reserve offer).2 = true) (hown : offer.own env = some a)
    (hfresh : ∀ b ∈ store.stored, equivAnal a b = false) :
    ∃ crasis, (addAnalysis env store offer).1.stored = store.stored ++ [{ a with crasis }] := by
  have htakes : takesSlot env store offer = true := by
    unfold takesSlot
    have hnone : store.stored.any (equivAnal a) = false := by
      rw [List.any_eq_false]
      intro b hb
      rw [hfresh b hb]
      exact Bool.false_ne_true
    rw [hown]
    simp [hworking, hensured, hnone]
  obtain ⟨-, houtcome⟩ := addAnalysis_outcome env hblank offer
  generalize addAnalysis env store offer = result at houtcome ⊢
  cases houtcome with
  | refused same why =>
    have hfailed := why htakes
    rw [hreserved] at hfailed
    cases hfailed
  | @merged after b crasis own merge =>
    obtain ⟨front, old, back, hsplit, hequiv, -⟩ := mergeInto_split merge
    rw [hown] at own
    have hnone := hfresh old (by rw [hsplit]; simp)
    rw [equivAnal_false_iff, Option.some.inj own, ← equivKey_crasis b crasis] at hnone
    exact absurd ((equivAnal_iff _ _).mp hequiv) hnone
  | @kept after b own takes one =>
    rw [hown] at own
    rw [Option.some.inj own]
    exact ⟨_, one⟩

theorem mergeInto_last {a kept : GkAnalysis} {front : List GkAnalysis}
    (hequiv : equivAnal a kept = true) (hfresh : ∀ b ∈ front, equivAnal a b = false) :
    mergeInto a (front ++ [kept]) =
      some (front ++ [{ kept with dialect := mergeDialect kept.dialect a.dialect }]) := by
  induction front with
  | nil =>
    rw [List.nil_append, mergeInto, if_pos hequiv]
    rfl
  | cons b front ih =>
    have hb : ¬ equivAnal a b = true := by
      rw [hfresh b List.mem_cons_self]
      exact Bool.false_ne_true
    rw [List.cons_append, mergeInto, if_neg hb, ih fun c hc => hfresh c (List.mem_cons_of_mem _ hc)]
    rfl

/-- A later candidate is merged into the first one. -/
theorem addAnalysis_merges {env : WordEnv} {offer : Offer} {a kept : GkAnalysis}
    {front : List GkAnalysis} (hblank : store.FreeBlank) (hworking : store.storageError = 0)
    (hensured : offer.ensured = true) (hreserved : (store.reserve offer).2 = true)
    (hown : offer.own env = some a) (hstored : store.stored = front ++ [kept])
    (hequiv : equivAnal a kept = true) (hfresh : ∀ b ∈ front, equivAnal a b = false) :
    (addAnalysis env store offer).1.stored =
      front ++ [{ kept with dialect := mergeDialect kept.dialect a.dialect }] := by
  obtain ⟨hroom, hfree, -⟩ := AnalysisStore.reserve_spec hblank offer
  have hfill := fillAnalysis_own hfree.nextSlot hown
  have hsame : mergeInto
      { a with crasis := (copyCrasis offer.gkform (store.reserve offer).1.nextSlot).crasis }
      (store.reserve offer).1.stored =
        some (front ++ [{ kept with dialect := mergeDialect kept.dialect a.dialect }]) := by
    rw [hroom, hstored]
    apply mergeInto_last
    · rw [equivAnal_iff, equivKey_crasis]
      exact (equivAnal_iff a kept).mp hequiv
    · intro b hb
      rw [equivAnal_false_iff, equivKey_crasis]
      exact (equivAnal_false_iff a b).mp (hfresh b hb)
  unfold addAnalysis storeCandidate
  simp only [hworking, hensured, hreserved, hfill, hsame, ne_eq, not_true_eq_false, if_false,
    Bool.not_true, Bool.false_eq_true]

/-- The later calls widen the dialect of the analysis that the first one has stored. -/
theorem runCalls_merge {key : GkAnalysis} {front : List GkAnalysis} (hblank : store.FreeBlank)
    (hworking : store.storageError = 0) (hroom : store.stored.length ≤ intMax / 2)
    (hmemory : ∀ call ∈ calls,
      call.2.ensured = true ∧ call.2.created = true ∧ call.2.grown = true)
    (haccepted : ∀ call ∈ calls, ∃ a, call.2.own call.1 = some a ∧ equivAnal a key = true ∧
      ∀ b ∈ front, equivAnal a b = false) {kept : GkAnalysis}
    (hstored : store.stored = front ++ [kept]) (hkey : equivKey kept = equivKey key) :
    ∃ a, (runCalls store calls).stored = front ++ [a] ∧
      a.dialect = (calls.map candidateDialect).foldl mergeDialect kept.dialect := by
  induction calls generalizing store kept with
  | nil => exact ⟨kept, hstored, rfl⟩
  | cons call calls ih =>
    obtain ⟨hensured, hcreated, hgrown⟩ := hmemory call List.mem_cons_self
    obtain ⟨a, hown, hequiv, hfresh⟩ := haccepted call List.mem_cons_self
    have hkept : equivAnal a kept = true := by
      rw [equivAnal_iff, hkey]
      exact (equivAnal_iff a key).mp hequiv
    have hmerged := addAnalysis_merges hblank hworking hensured
      (reserve_succeeds hcreated hgrown hroom) hown hstored hkept hfresh
    have hsame : (addAnalysis call.1 store call.2).1.stored.length = store.stored.length := by
      rw [hmerged, hstored, List.length_append, List.length_append]
      rfl
    have hdialect : candidateDialect call = a.dialect := by
      unfold candidateDialect
      rw [hown]
      rfl
    rw [List.map_cons, List.foldl_cons, hdialect]
    exact ih (addAnalysis_outcome call.1 hblank call.2).1 (addAnalysis_working hworking hcreated)
      (by rw [hsame]; exact hroom) (fun c hc => hmemory c (List.mem_cons_of_mem _ hc))
      (fun c hc => haccepted c (List.mem_cons_of_mem _ hc)) hmerged hkey

/-- Equivalent candidates leave one analysis, with their dialects joined from the first on. -/
theorem runCalls_equivalent (h : EquivalentCalls store calls) (hne : calls ≠ []) :
    ∃ a, (runCalls store calls).stored = store.stored ++ [a] ∧
      a.dialect = joinFirst (calls.map candidateDialect) := by
  cases calls with
  | nil => exact absurd rfl hne
  | cons call calls =>
    obtain ⟨hensured, hcreated, hgrown⟩ := h.memory call List.mem_cons_self
    obtain ⟨a, hown⟩ := h.accepted call List.mem_cons_self
    have hroom := h.room
    obtain ⟨crasis, hstored⟩ := addAnalysis_fresh h.blank h.working hensured
      (reserve_succeeds hcreated hgrown (by omega)) hown (h.fresh call List.mem_cons_self a hown)
    have hdialect : candidateDialect call = a.dialect := by
      unfold candidateDialect
      rw [hown]
      rfl
    rw [List.map_cons, joinFirst, hdialect]
    apply runCalls_merge (addAnalysis_outcome call.1 h.blank call.2).1
      (addAnalysis_working h.working hcreated) _
      (fun c hc => h.memory c (List.mem_cons_of_mem _ hc)) _ hstored (equivKey_crasis a crasis)
    · rw [hstored, List.length_append, List.length_singleton]
      omega
    · intro other hother
      have hmem := List.mem_cons_of_mem call hother
      obtain ⟨b, hb⟩ := h.accepted other hmem
      exact ⟨b, hb, h.equivalent other hmem call List.mem_cons_self b a hb hown, h.fresh other hmem b hb⟩

theorem EquivalentCalls.perm (h : EquivalentCalls store calls) (hperm : calls'.Perm calls) :
    EquivalentCalls store calls' where
  blank := h.blank
  working := h.working
  room := h.room
  memory := fun call hcall => h.memory call (hperm.mem_iff.mp hcall)
  accepted := fun call hcall => h.accepted call (hperm.mem_iff.mp hcall)
  equivalent := fun call hcall other hother =>
    h.equivalent call (hperm.mem_iff.mp hcall) other (hperm.mem_iff.mp hother)
  fresh := fun call hcall => h.fresh call (hperm.mem_iff.mp hcall)

end Runs

/-- Equivalent candidates leave an analysis with the same dialect in every order exactly when all
of them are marked for a dialect or none is. -/
theorem merge_order_iff (store : AnalysisStore) (calls : List (WordEnv × Offer)) (hne : calls ≠ [])
    (h : EquivalentCalls store calls) :
    (∃ dialect, ∀ calls' : List (WordEnv × Offer), calls'.Perm calls →
      ∃ a, (runCalls store calls').stored = store.stored ++ [a] ∧ a.dialect = dialect) ↔
      Unmixed calls := by
  have hrun : ∀ calls' : List (WordEnv × Offer), calls'.Perm calls →
      ∃ a, (runCalls store calls').stored = store.stored ++ [a] ∧
        a.dialect = joinFirst (calls'.map candidateDialect) := by
    intro calls' hperm
    apply runCalls_equivalent (h.perm hperm)
    intro hempty
    rw [hempty] at hperm
    exact hne hperm.symm.eq_nil
  constructor
  · intro ⟨dialect, hall⟩
    have hjoin : ∀ calls' : List (WordEnv × Offer), calls'.Perm calls →
        joinFirst (calls'.map candidateDialect) = dialect := by
      intro calls' hperm
      obtain ⟨a, hstored, hdialect⟩ := hall calls' hperm
      obtain ⟨b, hstored', hdialect'⟩ := hrun calls' hperm
      rw [hstored] at hstored'
      have hsame := List.append_cancel_left hstored'
      rw [← hdialect', ← (List.cons.inj hsame).1, hdialect]
    have hfirst : ∀ call ∈ calls, ∃ rest : List UInt16,
        dialect = rest.foldl mergeDialect (candidateDialect call) := by
      intro call hcall
      obtain ⟨front, back, hsplit⟩ := List.append_of_mem hcall
      refine ⟨(front ++ back).map candidateDialect, ?_⟩
      rw [← hjoin (call :: (front ++ back)) (by rw [hsplit]; exact List.perm_middle.symm)]
      rfl
    by_cases hzero : dialect = 0
    · right
      intro call hcall
      obtain ⟨rest, hrest⟩ := hfirst call hcall
      by_contra hne
      rw [foldl_merge_marked rest hne] at hrest
      exact foldl_or_ne_zero rest hne (hrest.symm.trans hzero)
    · left
      intro call hcall hunmarked
      obtain ⟨rest, hrest⟩ := hfirst call hcall
      rw [hunmarked, foldl_merge_unmarked] at hrest
      exact hzero hrest
  · intro hunmixed
    refine ⟨joinFirst (calls.map candidateDialect), fun calls' hperm => ?_⟩
    obtain ⟨a, hstored, hdialect⟩ := hrun calls' hperm
    refine ⟨a, hstored, hdialect.trans (joinFirst_perm ?_ (hperm.map _))⟩
    simp only [List.forall_mem_map]
    exact hunmixed

/-- The noun form with an Ionic stem. -/
def ionicForm : GkWord := { plainForm with stem := { GkString.zero with dialect := ionic } }

/-- An Ionic candidate, and one that is not marked. -/
def mixedCalls : List (WordEnv × Offer) := [(⟨0, 0⟩, .plain ionicForm), (⟨0, 0⟩, .plain plainForm)]

theorem mixedCalls_equivalent : EquivalentCalls .empty mixedCalls where
  blank := freeBlank_empty
  working := rfl
  room := by decide
  memory := by
    intro call hcall
    simp only [mixedCalls, List.mem_cons, List.not_mem_nil, or_false] at hcall
    rcases hcall with rfl | rfl <;> exact ⟨rfl, rfl, rfl⟩
  accepted := by
    have hall : (mixedCalls.all fun call => (call.2.own call.1).isSome) = true := by decide +kernel
    intro call hcall
    exact Option.isSome_iff_exists.mp (List.all_eq_true.mp hall call hcall)
  equivalent := by
    have hall : (mixedCalls.all fun call => mixedCalls.all fun other =>
        (call.2.own call.1).all fun a => (other.2.own other.1).all fun b => equivAnal a b) = true := by
      decide +kernel
    intro call hcall other hother a b ha hb
    have hboth := List.all_eq_true.mp (List.all_eq_true.mp hall call hcall) other hother
    rw [ha, hb] at hboth
    exact hboth
  fresh := by
    intro call _ a _ b hb
    cases hb

theorem merge_order_mixed :
    (∃ dialect, ∀ calls' : List (WordEnv × Offer), calls'.Perm mixedCalls →
      ∃ a, (runCalls .empty calls').stored = AnalysisStore.empty.stored ++ [a] ∧ a.dialect = dialect) ↔
      Unmixed mixedCalls :=
  merge_order_iff .empty mixedCalls (List.cons_ne_nil _ _) mixedCalls_equivalent

/-- With the Ionic candidate first the analysis is Ionic, with the other one first it is not. -/
theorem merge_order_matters :
    ((runCalls .empty mixedCalls).stored.map fun a => a.dialect) = [ionic] ∧
      ((runCalls .empty mixedCalls.reverse).stored.map fun a => a.dialect) = [0] ∧
      ¬ ∃ dialect, ∀ calls' : List (WordEnv × Offer), calls'.Perm mixedCalls →
        ∃ a, (runCalls .empty calls').stored = AnalysisStore.empty.stored ++ [a] ∧
          a.dialect = dialect := by
  have hfirst : ((runCalls .empty mixedCalls).stored.map fun a => a.dialect) = [ionic] := by
    decide +kernel
  have hsecond : ((runCalls .empty mixedCalls.reverse).stored.map fun a => a.dialect) = [0] := by
    decide +kernel
  refine ⟨hfirst, hsecond, ?_⟩
  intro ⟨dialect, hall⟩
  obtain ⟨a, hstored, hdialect⟩ := hall mixedCalls (List.Perm.refl _)
  obtain ⟨b, hstored', hdialect'⟩ := hall mixedCalls.reverse (List.reverse_perm _)
  rw [hstored] at hfirst
  rw [hstored'] at hsecond
  have ha : a.dialect = ionic := by simpa [AnalysisStore.empty] using hfirst
  have hb : b.dialect = 0 := by simpa [AnalysisStore.empty] using hsecond
  have hsame : ionic = 0 := by rw [← ha, ← hb, hdialect, hdialect']
  exact absurd hsame (by decide)

end Morpheus
