import Mathlib.Init

/-!
# Runs that may return early

A routine is cut into parts. Each part takes the state of the routine and goes on to the next
part with a new state, or returns from the routine; a part that calls another routine for which
no steps are left is stuck.
-/
namespace Morpheus

/-- What a part of a routine comes to. -/
inductive Flow (α : Type*) where
  | stuck
  | returned (state : α)
  | goes (state : α)

namespace Flow

variable {α : Type*}

/-- The next part runs when the first one did not return. -/
def andThen (flow : Flow α) (next : α → Flow α) : Flow α :=
  match flow with
  | stuck => stuck
  | returned state => returned state
  | goes state => next state

/-- The parts of a routine in their order. -/
def runAll : List (α → Flow α) → α → Flow α
  | [], state => goes state
  | part :: parts, state => (part state).andThen (runAll parts)

/-- The state at the end, returned early or not. -/
def final : Flow α → Option α
  | stuck => none
  | returned state => some state
  | goes state => some state

/-- A part that is not stuck, with what holds when it returns and when it goes on. -/
def Meets (flow : Flow α) (Returned Goes : α → Prop) : Prop :=
  match flow with
  | stuck => False
  | returned state => Returned state
  | goes state => Goes state

@[simp] theorem stuck_andThen (next : α → Flow α) : (stuck : Flow α).andThen next = stuck := rfl

@[simp] theorem returned_andThen (state : α) (next : α → Flow α) :
    (returned state).andThen next = returned state := rfl

@[simp] theorem goes_andThen (state : α) (next : α → Flow α) :
    (goes state).andThen next = next state := rfl

@[simp] theorem meets_stuck {Returned Goes : α → Prop} :
    ¬ Meets (stuck : Flow α) Returned Goes := id

@[simp] theorem meets_returned {state : α} {Returned Goes : α → Prop} :
    Meets (returned state) Returned Goes ↔ Returned state := Iff.rfl

@[simp] theorem meets_goes {state : α} {Returned Goes : α → Prop} :
    Meets (goes state) Returned Goes ↔ Goes state := Iff.rfl

theorem andThen_assoc (flow : Flow α) (next later : α → Flow α) :
    (flow.andThen next).andThen later = flow.andThen fun state => (next state).andThen later := by
  cases flow <;> rfl

theorem Meets.mono {flow : Flow α} {Returned Goes Returned' Goes' : α → Prop}
    (h : flow.Meets Returned Goes) (hreturned : ∀ state, Returned state → Returned' state)
    (hgoes : ∀ state, Goes state → Goes' state) : flow.Meets Returned' Goes' := by
  cases flow with
  | stuck => exact h
  | returned state => exact hreturned state h
  | goes state => exact hgoes state h

theorem Meets.and {flow : Flow α} {Returned Goes Returned' Goes' : α → Prop}
    (h : flow.Meets Returned Goes) (h' : flow.Meets Returned' Goes') :
    flow.Meets (fun state => Returned state ∧ Returned' state) fun state =>
      Goes state ∧ Goes' state := by
  cases flow with
  | stuck => exact h.elim
  | returned state => exact ⟨h, h'⟩
  | goes state => exact ⟨h, h'⟩

/-- The rule of composition. -/
theorem Meets.andThen {flow : Flow α} {next : α → Flow α} {Returned Goes Goes' : α → Prop}
    (h : flow.Meets Returned Goes) (hnext : ∀ state, Goes state → (next state).Meets Returned Goes') :
    (flow.andThen next).Meets Returned Goes' := by
  cases flow with
  | stuck => exact h
  | returned state => exact h
  | goes state => exact hnext state h

/-- The rule of invariants. -/
theorem runAll_meets {parts : List (α → Flow α)} {Returned Goes : α → Prop}
    (hpart : ∀ part ∈ parts, ∀ state, Goes state → (part state).Meets Returned Goes) {state : α}
    (hstart : Goes state) : (runAll parts state).Meets Returned Goes := by
  induction parts generalizing state with
  | nil => exact hstart
  | cons part parts ih =>
    apply (hpart part List.mem_cons_self state hstart).andThen
    intro next hnext
    exact ih (fun p hp => hpart p (List.mem_cons_of_mem _ hp)) hnext

theorem runAll_append (parts more : List (α → Flow α)) (state : α) :
    runAll (parts ++ more) state = (runAll parts state).andThen (runAll more) := by
  induction parts generalizing state with
  | nil => rfl
  | cons part parts ih =>
    rw [List.cons_append, runAll, runAll, andThen_assoc]
    congr 1
    funext next
    exact ih next

/-- Parts that do nothing. -/
theorem runAll_idle {parts : List (α → Flow α)} {state : α}
    (h : ∀ part ∈ parts, part state = goes state) : runAll parts state = goes state := by
  induction parts with
  | nil => rfl
  | cons part parts ih =>
    rw [runAll, h part List.mem_cons_self]
    exact ih fun p hp => h p (List.mem_cons_of_mem _ hp)

/-- A run that meets its conditions comes to an end. -/
theorem Meets.final {flow : Flow α} {Returned Goes : α → Prop} (h : flow.Meets Returned Goes) :
    ∃ state, flow.final = some state ∧ (Returned state ∨ Goes state) := by
  cases flow with
  | stuck => exact h.elim
  | returned state => exact ⟨state, rfl, .inl h⟩
  | goes state => exact ⟨state, rfl, .inr h⟩

end Flow

/-- The rule of invariants for a loop that may be stuck. -/
theorem foldlM_some {σ β : Type*} {step : σ → β → Option σ} {Invariant : σ → Prop} {items : List β}
    (hstep : ∀ item ∈ items, ∀ state, Invariant state →
      ∃ next, step state item = some next ∧ Invariant next) {state : σ}
    (hstart : Invariant state) :
    ∃ last, items.foldlM step state = some last ∧ Invariant last := by
  induction items generalizing state with
  | nil => exact ⟨state, rfl, hstart⟩
  | cons item items ih =>
    obtain ⟨next, hnext, hinvariant⟩ := hstep item List.mem_cons_self state hstart
    obtain ⟨last, hlast, hend⟩ := ih (fun i hi => hstep i (List.mem_cons_of_mem _ hi)) hinvariant
    refine ⟨last, ?_, hend⟩
    rw [List.foldlM_cons, hnext]
    exact hlast

end Morpheus
