import Morpheus.CString

/-!
# Line input and text scanning

`fgets` over the bytes of a file, and the scanning functions of the C library
that the text tools share.
-/
namespace Morpheus

/-- The successive results of `fgets` on a file, with room for `room` of at most
`capacity` bytes left in the line that is being filled. -/
def fgetsFrom (capacity : ℕ) : ℕ → Bytes → Bytes → List Bytes
  | _, [], [] => []
  | _, line, [] => [line]
  | room, line, c :: rest =>
    if c = 10 ∨ room ≤ 1 then (line ++ [c]) :: fgetsFrom capacity capacity [] rest
    else fgetsFrom capacity (room - 1) (line ++ [c]) rest

/-- The lines that `fgets` returns with a buffer of `size` bytes, NUL included. -/
def fgetsLines (size : ℕ) (file : Bytes) : List Bytes := fgetsFrom (size - 1) (size - 1) [] file

/-- `is_blank` -/
def isBlank (s : Bytes) : Bool := s.all isSpace

/-- A line of a text file: its text ends with the only newline. -/
def IsLine (line : Bytes) : Prop := ∃ text, 10 ∉ text ∧ line = text ++ [10]

theorem fgetsFrom_line {capacity room : ℕ} {line text rest : Bytes} (hn : 10 ∉ text)
    (hroom : text.length < room) :
    fgetsFrom capacity room line (text ++ 10 :: rest) =
      (line ++ text ++ [10]) :: fgetsFrom capacity capacity [] rest := by
  induction text generalizing room line with
  | nil => cases line <;> simp [fgetsFrom]
  | cons c text ih =>
    obtain ⟨hc, hn⟩ : 10 ≠ c ∧ 10 ∉ text := by simpa using hn
    have hstay : ¬(c = 10 ∨ room ≤ 1) := by
      rintro (rfl | h)
      · exact hc rfl
      · simp at hroom
        omega
    have hroom' : text.length < room - 1 := by
      simp at hroom
      omega
    rw [List.cons_append]
    cases line <;> simp [fgetsFrom, hstay, ih hn hroom']

/-- A last line without a newline comes back too. -/
theorem fgetsFrom_last {capacity room : ℕ} {line text : Bytes} (hn : 10 ∉ text)
    (htext : text ≠ []) (hroom : text.length ≤ room) :
    fgetsFrom capacity room line text = [line ++ text] := by
  induction text generalizing room line with
  | nil => exact absurd rfl htext
  | cons c text ih =>
    obtain ⟨hc, hn⟩ : 10 ≠ c ∧ 10 ∉ text := by simpa using hn
    simp only [List.length_cons] at hroom
    have hstep : fgetsFrom capacity room line (c :: text) =
        if c = 10 ∨ room ≤ 1 then (line ++ [c]) :: fgetsFrom capacity capacity [] text
        else fgetsFrom capacity (room - 1) (line ++ [c]) text := by
      cases line <;> rfl
    rw [hstep]
    cases text with
    | nil =>
      split
      · simp [fgetsFrom]
      · cases line <;> simp [fgetsFrom]
    | cons d text =>
      simp only [List.length_cons] at hroom
      have hstay : ¬(c = 10 ∨ room ≤ 1) := by
        rintro (h | h)
        · exact hc h.symm
        · omega
      rw [if_neg hstay, ih hn (by simp) (by simp; omega)]
      simp

/-- The lines of a text file, of which only the last may lack its newline. -/
def FileLines (size : ℕ) : List Bytes → Prop
  | [] => True
  | line :: rest =>
    (IsLine line ∨ rest = [] ∧ line ≠ [] ∧ 10 ∉ line) ∧ line.length < size ∧ FileLines size rest

theorem FileLines.of_append {size : ℕ} {before after : List Bytes}
    (h : FileLines size (before ++ after)) : FileLines size after := by
  induction before with
  | nil => exact h
  | cons line before ih => exact ih h.2.2

theorem FileLines.mono {size size' : ℕ} (hs : size ≤ size') {lines : List Bytes}
    (h : FileLines size lines) : FileLines size' lines := by
  induction lines with
  | nil => trivial
  | cons line rest ih => exact ⟨h.1, h.2.1.trans_le hs, ih h.2.2⟩

/-- The lines of a file come back from it. -/
theorem fgetsLines_of_fileLines {size : ℕ} {lines : List Bytes} (h : FileLines size lines) :
    fgetsLines size lines.flatten = lines := by
  induction lines with
  | nil => rfl
  | cons line rest ih =>
    obtain ⟨hline, hlen, hrest⟩ := h
    have hih := ih hrest
    rw [fgetsLines] at hih
    rw [fgetsLines, List.flatten_cons]
    rcases hline with ⟨text, hn, rfl⟩ | ⟨rfl, hne, hn⟩
    · have htext : text.length < size - 1 := by
        simp at hlen
        omega
      rw [List.append_assoc, List.singleton_append, fgetsFrom_line hn htext, hih]
      rfl
    · rw [List.flatten_nil, List.append_nil]
      exact fgetsFrom_last hn hne (Nat.le_pred_of_lt hlen)

/-- Every line returned fits the buffer. -/
theorem fgetsFrom_length {capacity room : ℕ} {line file : Bytes} (hc : 0 < capacity)
    (hroom : 0 < room) (hl : line.length + room = capacity) :
    ∀ l ∈ fgetsFrom capacity room line file, l.length ≤ capacity := by
  induction file generalizing room line with
  | nil => cases line <;> simp [fgetsFrom] at hl ⊢; omega
  | cons c file ih =>
    have key : ∀ l ∈ (if c = 10 ∨ room ≤ 1 then
        (line ++ [c]) :: fgetsFrom capacity capacity [] file
        else fgetsFrom capacity (room - 1) (line ++ [c]) file), l.length ≤ capacity := by
      split
      · intro l hmem
        rcases List.mem_cons.mp hmem with rfl | hmem
        · simp
          omega
        · exact ih hc (by simp) l hmem
      · rename_i hstay
        exact ih (by omega) (by simp; omega)
    cases line <;> simpa only [fgetsFrom] using key

theorem fgetsLines_length {size : ℕ} (hs : 1 < size) (file : Bytes) :
    ∀ l ∈ fgetsLines size file, l.length < size := by
  intro l hl
  have := fgetsFrom_length (by omega) (by omega) (by simp) l hl
  omega

/-- A line that overruns the buffer comes back cut. -/
theorem fgetsFrom_long {capacity room : ℕ} {line text rest : Bytes} (hn : (10 : Byte) ∉ text)
    (hroom : 0 < room) (h : room ≤ text.length) :
    ∃ more, fgetsFrom capacity room line (text ++ rest) = (line ++ text.take room) :: more := by
  induction text generalizing room line with
  | nil =>
    simp only [List.length_nil] at h
    omega
  | cons c text ih =>
    obtain ⟨hc, hn⟩ : (10 : Byte) ≠ c ∧ (10 : Byte) ∉ text := by simpa using hn
    have hstep : fgetsFrom capacity room line (c :: (text ++ rest)) =
        if c = 10 ∨ room ≤ 1 then (line ++ [c]) :: fgetsFrom capacity capacity [] (text ++ rest)
        else fgetsFrom capacity (room - 1) (line ++ [c]) (text ++ rest) := by
      cases line <;> rfl
    rw [List.cons_append, hstep]
    by_cases hone : room ≤ 1
    · have hroom1 : room = 1 := by omega
      rw [if_pos (.inr hone), hroom1]
      exact ⟨_, rfl⟩
    · have hstay : ¬ (c = 10 ∨ room ≤ 1) := by
        intro hor
        rcases hor with hor | hor
        · exact hc hor.symm
        · exact hone hor
      rw [if_neg hstay]
      simp only [List.length_cons] at h
      obtain ⟨more, hmore⟩ := @ih (room - 1) (line ++ [c]) hn (by omega) (by omega)
      refine ⟨more, hmore.trans ?_⟩
      obtain ⟨room, rfl⟩ : ∃ r, room = r + 1 := ⟨room - 1, by omega⟩
      simp

/-- `!strncmp(s, tag, strlen(tag))`. -/
def startsWith (tag s : Bytes) : Bool := tag.isPrefixOf s

@[simp] theorem startsWith_append (tag s : Bytes) : startsWith tag (tag ++ s) = true := by
  simp [startsWith]

end Morpheus
