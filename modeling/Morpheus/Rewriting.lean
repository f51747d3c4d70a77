import Mathlib.Logic.Relation
import Mathlib.Data.List.Basic

/-!
# Collecting normal forms

A node is visited for the nodes it is rewritten to and for what it gives by itself; some nodes cannot
be visited. The depth-first collection goes to a given depth. When it ends, it has met the nodes that
can be reached, and no others, and it ends when the rewriting does.
-/
namespace Morpheus.Rewriting

variable {α β : Type*}

/-- The results for the nodes of a list, one after the other. -/
def joinAll (f : α → Option (List β)) : List α → Option (List β)
  | [] => some []
  | a :: rest => (f a).bind fun front => (joinAll f rest).map (front ++ ·)

section
variable {f g : α → Option (List β)}

@[simp] theorem joinAll_nil : joinAll f [] = some [] := rfl

theorem joinAll_cons_eq_some {a : α} {rest : List α} {found : List β} :
    joinAll f (a :: rest) = some found ↔
      ∃ front back, f a = some front ∧ joinAll f rest = some back ∧ found = front ++ back := by
  simp only [joinAll, Option.bind_eq_some_iff, Option.map_eq_some_iff]
  constructor
  · rintro ⟨front, hfront, back, hback, rfl⟩
    exact ⟨front, back, hfront, hback, rfl⟩
  · rintro ⟨front, back, hfront, hback, rfl⟩
    exact ⟨front, hfront, back, hback, rfl⟩

theorem joinAll_append (front back : List α) :
    joinAll f (front ++ back) =
      (joinAll f front).bind fun found => (joinAll f back).map (found ++ ·) := by
  induction front with
  | nil => simp
  | cons a front ih =>
    rw [List.cons_append, joinAll, ih, joinAll]
    cases f a with
    | none => rfl
    | some first =>
      cases joinAll f front with
      | none => rfl
      | some found => simp [Function.comp_def]

theorem joinAll_isSome (nodes : List α) :
    (joinAll f nodes).isSome ↔ ∀ a ∈ nodes, (f a).isSome := by
  induction nodes with
  | nil => simp
  | cons a rest ih =>
    rw [List.forall_mem_cons, ← ih, joinAll]
    cases hfront : f a <;> simp

theorem mem_joinAll {nodes : List α} {found : List β} (h : joinAll f nodes = some found) (b : β) :
    b ∈ found ↔ ∃ a ∈ nodes, ∃ front, f a = some front ∧ b ∈ front := by
  induction nodes generalizing found with
  | nil => simp_all
  | cons a rest ih =>
    obtain ⟨front, back, hfront, hback, rfl⟩ := joinAll_cons_eq_some.mp h
    rw [List.mem_append, ih hback]
    simp [hfront]

theorem joinAll_mono {nodes : List α} {found : List β} (h : joinAll f nodes = some found)
    (hfg : ∀ a ∈ nodes, ∀ front, f a = some front → g a = some front) :
    joinAll g nodes = some found := by
  induction nodes generalizing found with
  | nil => exact h
  | cons a rest ih =>
    obtain ⟨front, back, hfront, hback, rfl⟩ := joinAll_cons_eq_some.mp h
    obtain ⟨hfirst, hrest⟩ := List.forall_mem_cons.mp hfg
    exact joinAll_cons_eq_some.mpr ⟨front, back, hfirst front hfront, ih hback hrest, rfl⟩

end

/-- What a visit of a node gives: the nodes to go on with, and its own result. -/
structure Visit (α β : Type*) where
  next : List α
  own : Option β

section
variable (visit : α → Option (Visit α β))

/-- The collection of the results below a node, down to a depth; own results come last. -/
def collect : ℕ → α → Option (List β)
  | 0, _ => none
  | depth + 1, a => (visit a).bind fun v =>
    (joinAll (collect depth) v.next).map (· ++ v.own.toList)

/-- A node is rewritten to another one. -/
def Rewrites (a b : α) : Prop := ∃ v, visit a = some v ∧ b ∈ v.next

/-- A node gives a result by itself. -/
def Gives (a : α) (b : β) : Prop := ∃ v, visit a = some v ∧ v.own = some b

/-- A node is rewritten to another one in any number of steps. -/
abbrev Reaches (a b : α) : Prop := Relation.ReflTransGen (Rewrites visit) a b

end

variable {visit : α → Option (Visit α β)}

theorem collect_succ_eq_some {depth : ℕ} {a : α} {found : List β} :
    collect visit (depth + 1) a = some found ↔
      ∃ v below, visit a = some v ∧ joinAll (collect visit depth) v.next = some below ∧
        found = below ++ v.own.toList := by
  simp only [collect, Option.bind_eq_some_iff, Option.map_eq_some_iff]
  constructor
  · rintro ⟨v, hv, below, hbelow, rfl⟩
    exact ⟨v, below, hv, hbelow, rfl⟩
  · rintro ⟨v, below, hv, hbelow, rfl⟩
    exact ⟨v, hv, below, hbelow, rfl⟩

/-- Every node that is reached can be visited. -/
theorem visited_of_collect {depth : ℕ} {a b : α} (h : (collect visit depth a).isSome)
    (hb : Reaches visit a b) : (visit b).isSome := by
  induction depth generalizing a with
  | zero => simp [collect] at h
  | succ depth ih =>
    obtain ⟨found, hfound⟩ := Option.isSome_iff_exists.mp h
    obtain ⟨v, below, hv, hbelow, -⟩ := collect_succ_eq_some.mp hfound
    rcases Relation.ReflTransGen.cases_head hb with rfl | ⟨c, ⟨w, hw, hc⟩, hcb⟩
    · rw [hv]
      rfl
    · obtain rfl := Option.some.inj (hv.symm.trans hw)
      have hsome := (joinAll_isSome v.next).mp (Option.isSome_iff_exists.mpr ⟨below, hbelow⟩)
      exact ih (hsome c hc) hcb

/-- There is no endless rewriting where the collection comes to an end. -/
theorem acc_of_collect {depth : ℕ} {a : α} (h : (collect visit depth a).isSome) :
    Acc (fun b c => Rewrites visit c b) a := by
  induction depth generalizing a with
  | zero => simp [collect] at h
  | succ depth ih =>
    obtain ⟨found, hfound⟩ := Option.isSome_iff_exists.mp h
    obtain ⟨v, below, hv, hbelow, -⟩ := collect_succ_eq_some.mp hfound
    refine ⟨a, fun b ⟨w, hw, hb⟩ => ?_⟩
    obtain rfl := Option.some.inj (hv.symm.trans hw)
    exact ih ((joinAll_isSome v.next).mp (Option.isSome_iff_exists.mpr ⟨below, hbelow⟩) b hb)

/-- The collection has the results of the nodes that are reached, and no others. -/
theorem mem_collect {depth : ℕ} {a : α} {found : List β}
    (h : collect visit depth a = some found) (b : β) :
    b ∈ found ↔ ∃ c, Reaches visit a c ∧ Gives visit c b := by
  induction depth generalizing a found with
  | zero => simp [collect] at h
  | succ depth ih =>
    obtain ⟨v, below, hv, hbelow, rfl⟩ := collect_succ_eq_some.mp h
    rw [List.mem_append, mem_joinAll hbelow, Option.mem_toList]
    constructor
    · rintro (⟨c, hc, front, hfront, hb⟩ | hown)
      · obtain ⟨d, hcd, hd⟩ := (ih hfront).mp hb
        exact ⟨d, hcd.head ⟨v, hv, hc⟩, hd⟩
      · exact ⟨a, .refl, v, hv, hown⟩
    · rintro ⟨c, hc, hgives⟩
      rcases Relation.ReflTransGen.cases_head hc with rfl | ⟨d, ⟨w, hw, hd⟩, hdc⟩
      · obtain ⟨w, hw, hown⟩ := hgives
        obtain rfl := Option.some.inj (hv.symm.trans hw)
        exact .inr hown
      · obtain rfl := Option.some.inj (hv.symm.trans hw)
        have hsome := (joinAll_isSome v.next).mp (Option.isSome_iff_exists.mpr ⟨below, hbelow⟩)
        obtain ⟨front, hfront⟩ := Option.isSome_iff_exists.mp (hsome d hd)
        exact .inl ⟨d, hd, front, hfront, (ih hfront).mpr ⟨c, hdc, hgives⟩⟩

/-- More depth makes no difference. -/
theorem collect_mono {depth depth' : ℕ} {a : α} {found : List β} (hle : depth ≤ depth')
    (h : collect visit depth a = some found) : collect visit depth' a = some found := by
  induction depth generalizing depth' a found with
  | zero => simp [collect] at h
  | succ depth ih =>
    obtain ⟨v, below, hv, hbelow, rfl⟩ := collect_succ_eq_some.mp h
    obtain ⟨depth', rfl⟩ : ∃ d, depth' = d + 1 := ⟨depth' - 1, by omega⟩
    exact collect_succ_eq_some.mpr ⟨v, below, hv,
      joinAll_mono hbelow fun c _ front hfront => ih (by omega) hfront, rfl⟩

theorem exists_collect_of_acc {a : α} (h : Acc (fun b c => Rewrites visit c b) a)
    (hvisit : ∀ b, Reaches visit a b → (visit b).isSome) :
    ∃ depth, (collect visit depth a).isSome := by
  induction h with
  | intro a _ ih =>
    obtain ⟨v, hv⟩ := Option.isSome_iff_exists.mp (hvisit a .refl)
    have hbelow : ∀ c ∈ v.next, ∃ depth, (collect visit depth c).isSome := fun c hc =>
      ih c ⟨v, hv, hc⟩ fun b hb => hvisit b (hb.head ⟨v, hv, hc⟩)
    obtain ⟨depth, hdepth⟩ : ∃ depth, ∀ c ∈ v.next, (collect visit depth c).isSome := by
      generalize v.next = nodes at hbelow
      induction nodes with
      | nil => exact ⟨0, by simp⟩
      | cons c rest ihrest =>
        obtain ⟨hfirst, hrest⟩ := List.forall_mem_cons.mp hbelow
        obtain ⟨d, hd⟩ := hfirst
        obtain ⟨e, he⟩ := ihrest hrest
        refine ⟨max d e, List.forall_mem_cons.mpr ⟨?_, fun x hx => ?_⟩⟩
        · obtain ⟨found, hfound⟩ := Option.isSome_iff_exists.mp hd
          rw [collect_mono (Nat.le_max_left d e) hfound]
          rfl
        · obtain ⟨found, hfound⟩ := Option.isSome_iff_exists.mp (he x hx)
          rw [collect_mono (Nat.le_max_right d e) hfound]
          rfl
    obtain ⟨below, hjoin⟩ := Option.isSome_iff_exists.mp ((joinAll_isSome v.next).mpr hdepth)
    exact ⟨depth + 1, Option.isSome_iff_exists.mpr
      ⟨_, collect_succ_eq_some.mpr ⟨v, below, hv, hjoin, rfl⟩⟩⟩

/-- The collection comes to an end exactly when the rewriting does and every node that is reached can
be visited. -/
theorem exists_collect_iff {a : α} : (∃ depth, (collect visit depth a).isSome) ↔
    Acc (fun b c => Rewrites visit c b) a ∧ ∀ b, Reaches visit a b → (visit b).isSome :=
  ⟨fun ⟨_, h⟩ => ⟨acc_of_collect h, fun _ hb => visited_of_collect h hb⟩,
    fun ⟨hacc, hvisit⟩ => exists_collect_of_acc hacc hvisit⟩

end Morpheus.Rewriting
