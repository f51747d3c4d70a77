import Morpheus.LittleEndian

/-!
# Checked execution of C code

A run either returns, refuses its input, or faults: an unsigned operation wraps,
a read or a write leaves its object, a null pointer is used. A run `Decides` a
property when it never faults and returns exactly the values with the property.
-/
namespace Morpheus

inductive Fault
  | wrap
  | outOfBounds
  | nullPointer
  deriving DecidableEq, Repr

inductive Stop
  | reject
  | fault (f : Fault)
  deriving DecidableEq, Repr

abbrev Checked (α : Type) := Except Stop α

namespace Checked

def reject {α : Type} : Checked α := .error .reject

def fault {α : Type} (f : Fault) : Checked α := .error (.fault f)

/-- Go on only if the check of the code passes. -/
def require (p : Prop) [Decidable p] : Checked Unit := if p then .ok () else reject

/-- An unsigned addition of the code, on a type with the given maximum. -/
def add (max a b : ℕ) : Checked ℕ := if a + b ≤ max then .ok (a + b) else fault .wrap

def sub (a b : ℕ) : Checked ℕ := if b ≤ a then .ok (a - b) else fault .wrap

def mul (max a b : ℕ) : Checked ℕ := if a * b ≤ max then .ok (a * b) else fault .wrap

/-- Read `n` bytes of an object. -/
def read (object : Bytes) (start n : ℕ) : Checked Bytes :=
  if start + n ≤ object.length then .ok (slice object start n) else fault .outOfBounds

/-- Copy bytes into an object. -/
def write (object : Bytes) (start : ℕ) (bs : Bytes) : Checked Bytes :=
  if start + bs.length ≤ object.length then
    .ok (object.take start ++ bs ++ object.drop (start + bs.length))
  else fault .outOfBounds

/-- The run never faults, and it returns exactly the values that satisfy `P`. -/
def Decides {α : Type} (x : Checked α) (P : α → Prop) : Prop :=
  (∀ f, x ≠ .error (.fault f)) ∧ ∀ a, x = .ok a ↔ P a

variable {α β : Type}

theorem Decides.ok (a : α) : Decides (.ok a) (· = a) :=
  ⟨fun _ h => by simp at h, fun b => by simp [eq_comm]⟩

theorem Decides.rejected {P : α → Prop} (h : ∀ a, ¬ P a) : Decides (reject : Checked α) P :=
  ⟨fun _ he => by simp [Checked.reject] at he, fun a => by simp [Checked.reject, h a]⟩

theorem Decides.congr {x : Checked α} {P Q : α → Prop} (h : Decides x P)
    (hpq : ∀ a, P a ↔ Q a) : Decides x Q :=
  ⟨h.1, fun a => (h.2 a).trans (hpq a)⟩

/-- Sequencing: the second run only has to be judged on what the first can return. -/
theorem Decides.bind {x : Checked α} {f : α → Checked β} {P : α → Prop} {Q : α → β → Prop}
    (hx : Decides x P) (hf : ∀ a, P a → Decides (f a) (Q a)) :
    Decides (x >>= f) fun b => ∃ a, P a ∧ Q a b := by
  cases x with
  | ok a =>
    have ha := (hx.2 a).mp rfl
    refine (hf a ha).congr fun b => ⟨fun h => ⟨a, ha, h⟩, ?_⟩
    rintro ⟨a', ha', h⟩
    cases (hx.2 a').mpr ha'
    exact h
  | error e =>
    cases e with
    | reject =>
      refine Decides.rejected ?_
      rintro b ⟨a, ha, -⟩
      cases (hx.2 a).mpr ha
    | fault g => exact absurd rfl (hx.1 g)

/-- Sequencing after a step that returns one known value. -/
theorem Decides.step {x : Checked α} {f : α → Checked β} {a : α} {Q : β → Prop}
    (hx : x = .ok a) (hf : Decides (f a) Q) : Decides (x >>= f) Q := by
  subst hx
  exact hf

/-- Sequencing after a check that the postcondition implies. -/
theorem Decides.check {p : Prop} {_ : Decidable p} {f : Unit → Checked β} {Q : β → Prop}
    (hq : ∀ b, Q b → p) (hf : p → Decides (f ()) Q) : Decides (require p >>= f) Q := by
  unfold Checked.require
  split
  · rename_i hp
    exact hf hp
  · rename_i hp
    exact Decides.rejected fun b h => hp (hq b h)

/-- Sequencing after a step that returns one value, under a condition the
postcondition implies. -/
theorem Decides.value {x : Checked α} {f : α → Checked β} {a : α} {c : Prop} {Q : β → Prop}
    (hx : Decides x fun b => c ∧ b = a) (hq : ∀ b, Q b → c) (hf : c → Decides (f a) Q) :
    Decides (x >>= f) Q := by
  cases x with
  | ok a' =>
    obtain ⟨hc, rfl⟩ := (hx.2 a').mp rfl
    exact hf hc
  | error e =>
    cases e with
    | reject => exact Decides.rejected fun b h => by cases (hx.2 a).mpr ⟨hq b h, rfl⟩
    | fault g => exact absurd rfl (hx.1 g)

theorem add_eq_ok {max a b : ℕ} (h : a + b ≤ max) : add max a b = .ok (a + b) := if_pos h

theorem sub_eq_ok {a b : ℕ} (h : b ≤ a) : sub a b = .ok (a - b) := if_pos h

/-- The distance of a cursor from the base it has moved away from. -/
theorem sub_base (base n : ℕ) : sub (base + n) base = .ok n := by
  rw [sub_eq_ok (Nat.le_add_right base n), Nat.add_sub_cancel_left]

/-- Moving a cursor further away from its base. -/
theorem add_base {max base m n : ℕ} (h : base + (m + n) ≤ max) :
    add max (base + m) n = .ok (base + (m + n)) := by
  rw [add_eq_ok (by omega), Nat.add_assoc]

theorem mul_eq_ok {max a b : ℕ} (h : a * b ≤ max) : mul max a b = .ok (a * b) := if_pos h

theorem read_eq_ok {object : Bytes} {start n : ℕ} (h : start + n ≤ object.length) :
    read object start n = .ok (slice object start n) := if_pos h

/-- Taking a successful sequence apart. -/
theorem bind_eq_ok {x : Checked α} {f : α → Checked β} {b : β} :
    x >>= f = .ok b ↔ ∃ a, x = .ok a ∧ f a = .ok b := by
  cases x with
  | ok a => simp [Bind.bind, Except.bind]
  | error e => simp [Bind.bind, Except.bind]

@[simp] theorem ok_bind (a : α) (f : α → Checked β) : (Except.ok a >>= f) = f a := rfl

/-- Running through a step whose result is known. -/
theorem step_eq {x : Checked α} {a : α} {f : α → Checked β} {r : Checked β}
    (hx : x = .ok a) (hf : f a = r) : (x >>= f) = r := by
  subst hx
  exact hf

@[simp] theorem require_eq_ok {p : Prop} [Decidable p] {u : Unit} :
    require p = .ok u ↔ p := by
  simp [Checked.require, reject]

/-- Writing at the end of a filled part eats the zeros that follow it. -/
theorem write_filled (pre bs post : Bytes) {n : ℕ} (h : bs.length ≤ n) :
    write (pre ++ List.replicate n 0 ++ post) pre.length bs =
      .ok (pre ++ bs ++ List.replicate (n - bs.length) 0 ++ post) := by
  have hlen : pre.length + bs.length ≤ (pre ++ List.replicate n 0 ++ post).length := by
    simp
    omega
  rw [write, if_pos hlen]
  have hpre : pre.drop (pre.length + bs.length) = [] := List.drop_eq_nil_of_le (by omega)
  simp [List.drop_append, hpre, show bs.length - n = 0 by omega]

end Checked
end Morpheus
