import Morpheus.CString

/-!
# Reading a file from front to back

A stream is a file split at its position. A reader consumes bytes and fails with a
return code; it `Reads` a value from an encoding when it takes exactly these bytes
off any stream that continues with them.
-/
namespace Morpheus

structure Stream where
  done : Bytes
  rest : Bytes
  deriving DecidableEq, Repr

/-- A reading routine: its result or the code it returns instead, and the stream. -/
abbrev Reader (α : Type) := EStateM Int Stream α

namespace Stream

/-- The stream at the start of a file. -/
def openFile (file : Bytes) : Stream := ⟨[], file⟩

/-- The end of a file whose bytes are all consumed. -/
def atEnd (file : Bytes) : Stream := ⟨file, []⟩

def advance (f : Stream) (n : ℕ) : Stream := ⟨f.done ++ f.rest.take n, f.rest.drop n⟩

end Stream

/-- `fread` of `n` bytes, as many as are left. -/
def fread (n : ℕ) : Reader Bytes := fun f => .ok (f.rest.take n) (f.advance n)

/-- `getc`, with nothing at the end of the file. -/
def getc : Reader (Option Byte) := fun f => .ok f.rest.head? (f.advance 1)

/-- The length of the file, by a seek to its end and back. -/
def fileLength : Reader ℕ := fun f => .ok (f.done.length + f.rest.length) f

theorem fileLength_bind {β : Type} (g : ℕ → Reader β) (f : Stream) :
    (fileLength >>= g) f = g (f.done.length + f.rest.length) f := rfl

/-- The reader returns `a` after exactly the bytes `bs`, whatever stands around them. -/
def Reads {α : Type} (x : Reader α) (bs : Bytes) (a : α) : Prop :=
  ∀ done tail, x ⟨done, bs ++ tail⟩ = .ok a ⟨done ++ bs, tail⟩

namespace Reads

variable {α β : Type} {x : Reader α} {a : α} {b : β} {bs cs : Bytes}

theorem pure (a : α) : Reads (Pure.pure a) [] a := by
  intro done tail
  simp [Pure.pure, EStateM.pure]

theorem bind {f : α → Reader β} (hx : Reads x bs a) (hf : Reads (f a) cs b) :
    Reads (x >>= f) (bs ++ cs) b := by
  intro done tail
  have h1 := hx done (cs ++ tail)
  have h2 := hf (done ++ bs) tail
  rw [List.append_assoc]
  simp only [Bind.bind, EStateM.bind, h1, h2, List.append_assoc]

/-- A last step that consumes nothing. -/
theorem bind_pure {f : α → Reader β} (hx : Reads x bs a) (hf : f a = Pure.pure b) :
    Reads (x >>= f) bs b := by
  have h : Reads (f a) [] b := hf ▸ Reads.pure b
  simpa using hx.bind h

/-- Running on with the value read. -/
theorem run_bind {f : α → Reader β} (hx : Reads x bs a) (done tail : Bytes) :
    (x >>= f) ⟨done, bs ++ tail⟩ = f a ⟨done ++ bs, tail⟩ := by
  simp only [Bind.bind, EStateM.bind, hx done tail]

theorem fread {n : ℕ} (h : bs.length = n) : Reads (fread n) bs bs := by
  intro done tail
  subst h
  simp [Morpheus.fread, Stream.advance]

theorem getc (c : Byte) : Reads getc [c] (some c) := by
  intro done tail
  simp [Morpheus.getc, Stream.advance]

/-- Calls of one reader, one after the other. -/
def times (x : Reader α) : ℕ → Reader (List α)
  | 0 => Pure.pure []
  | n + 1 => do
    let a ← x
    let as ← times x n
    Pure.pure (a :: as)

end Reads

end Morpheus
