import Morpheus.StemTypes
import Mathlib.Logic.Function.Basic

/-!
# Bytes that the field parser stores

`parsefield` of `checkstem.c` tests the capacity of a buffer behind each byte that it has stored.
The stores are kept apart from the memory here, so that those past the buffer are seen.
-/
namespace Morpheus

section Stores

/-- The memory from the start of a buffer on, after bytes were stored at these offsets. -/
def storeAll (memory : ℕ → Byte) (stores : List (ℕ × Byte)) : ℕ → Byte :=
  stores.foldl (fun memory store => Function.update memory store.1 store.2) memory

/-- No store is past a buffer of this capacity. -/
def InBuffer (capacity : ℕ) (stores : List (ℕ × Byte)) : Prop := ∀ store ∈ stores, store.1 < capacity

theorem inBuffer_cons {capacity : ℕ} {store : ℕ × Byte} {stores : List (ℕ × Byte)} :
    InBuffer capacity (store :: stores) ↔ store.1 < capacity ∧ InBuffer capacity stores := by
  simp [InBuffer]

theorem storeAll_cons (memory : ℕ → Byte) (store : ℕ × Byte) (stores : List (ℕ × Byte)) :
    storeAll memory (store :: stores) = storeAll (Function.update memory store.1 store.2) stores := rfl

/-- Stores from a place on do not change the bytes in front of it. -/
theorem map_storeAll {memory : ℕ → Byte} {stores : List (ℕ × Byte)} {i : ℕ} (h : ∀ store ∈ stores, i ≤ store.1) :
    (List.range i).map (storeAll memory stores) = (List.range i).map memory := by
  induction stores generalizing memory with
  | nil => rfl
  | cons store stores ih =>
    obtain ⟨hfirst, hrest⟩ := List.forall_mem_cons.mp h
    rw [storeAll_cons, ih hrest]
    refine List.map_congr_left fun j hj => ?_
    rw [Function.update_of_ne ((List.mem_range.mp hj).trans_le hfirst).ne]

/-- The bytes in front of a place do not change when it is written. -/
theorem map_update (memory : ℕ → Byte) (i : ℕ) (d : Byte) :
    (List.range (i + 1)).map (Function.update memory i d) = (List.range i).map memory ++ [d] := by
  rw [List.range_succ, List.map_append, List.map_singleton, Function.update_self]
  congr 1
  exact @map_storeAll memory [(i, d)] i (by simp)

end Stores

section Parsefield

/-- The field at the front of a text. -/
def fieldOf (s : Bytes) (c : Byte) : Bytes := s.takeWhile fun d => d ≠ c && !isSpace d

/-- The text behind the delimiter of a field that has one. -/
def afterField (s : Bytes) (c : Byte) : Bytes :=
  match s.drop (fieldOf s c).length with
  | [] => []
  | d :: rest => if isSpace d then [] else rest

/-- What `parsefield` returns: a place in the text, or the empty string. -/
inductive FieldEnd
  | within (offset : ℕ)
  | empty
  deriving DecidableEq

/-- The text that the returned pointer points to. -/
def FieldEnd.text (s : Bytes) : FieldEnd → Bytes
  | .within offset => s.drop offset
  | .empty => []

/-- The loop of `parsefield` with `i` bytes in the buffer, and the NUL behind it: the stores, and
where the text has been left. -/
def parsefieldLoop (c : Byte) (len : ℕ) : ℕ → Bytes → List (ℕ × Byte) × Bytes
  | i, [] => ([(i, 0)], [])
  | i, d :: s =>
    if d = c || isSpace d then ([(i, 0)], d :: s)
    else if i ≥ len then ([(i, d), (i + 1, 0), (i + 1, 0)], s.dropWhile fun d => !isSpace d)
    else ((i, d) :: (parsefieldLoop c len (i + 1) s).1, (parsefieldLoop c len (i + 1) s).2)

/-- The stores of `parsefield`. -/
def parsefieldStores (s : Bytes) (c : Byte) (len : ℕ) : List (ℕ × Byte) :=
  (0, 0) :: (parsefieldLoop c len 0 s).1

/-- The return value of `parsefield`. -/
def parsefieldEnd (s : Bytes) (c : Byte) (len : ℕ) : FieldEnd :=
  match (parsefieldLoop c len 0 s).2 with
  | [] => .within s.length
  | d :: rest => if isSpace d then .empty else .within (s.length - rest.length)

variable {s : Bytes} {c d : Byte} {len i : ℕ}

theorem fieldOf_cons_stop (h : (d = c || isSpace d) = true) : fieldOf (d :: s) c = [] := by
  rw [fieldOf, List.takeWhile_cons_of_neg]
  simpa [imp_iff_not_or] using h

theorem fieldOf_cons_go (h : ¬(d = c || isSpace d) = true) : fieldOf (d :: s) c = d :: fieldOf s c := by
  rw [fieldOf, List.takeWhile_cons_of_pos]
  · rfl
  · simpa [not_or] using h

/-- The bytes are stored one behind the other, and a NUL behind the last of them. -/
theorem parsefieldLoop_stored (hi : i ≤ len) (memory : ℕ → Byte) :
    (List.range (i + min (fieldOf s c).length (len + 1 - i))).map (storeAll memory (parsefieldLoop c len i s).1) =
        (List.range i).map memory ++ (fieldOf s c).take (len + 1 - i) ∧
      storeAll memory (parsefieldLoop c len i s).1 (i + min (fieldOf s c).length (len + 1 - i)) = 0 := by
  induction s generalizing i memory with
  | nil =>
    have hstored := @map_storeAll memory [(i, 0)] i (by simp)
    exact ⟨by simpa [parsefieldLoop, fieldOf] using hstored, by simp [parsefieldLoop, fieldOf, storeAll]⟩
  | cons d s ih =>
    unfold parsefieldLoop
    by_cases hstop : (d = c || isSpace d) = true
    · have hstored := @map_storeAll memory [(i, 0)] i (by simp)
      rw [if_pos hstop, fieldOf_cons_stop hstop]
      exact ⟨by simpa using hstored, by simp [storeAll]⟩
    · rw [if_neg hstop, fieldOf_cons_go hstop, List.length_cons]
      by_cases hfull : i ≥ len
      · have htop : i + min ((fieldOf s c).length + 1) (len + 1 - i) = i + 1 := by omega
        have hone : len + 1 - i = 1 := by omega
        rw [if_pos hfull, htop, hone, List.take_succ_cons, List.take_zero, storeAll_cons, map_storeAll]
        · exact ⟨map_update memory i d, by simp [storeAll]⟩
        · simp
      · obtain ⟨hmap, hzero⟩ := @ih (i + 1) (by omega) (Function.update memory i d)
        have htop : i + min ((fieldOf s c).length + 1) (len + 1 - i) =
            i + 1 + min (fieldOf s c).length (len + 1 - (i + 1)) := by omega
        have hroom : len + 1 - i = len + 1 - (i + 1) + 1 := by omega
        rw [if_neg hfull, storeAll_cons, htop, hmap, map_update, hroom, List.take_succ_cons, List.append_assoc]
        exact ⟨rfl, hzero⟩

/-- The last of the places that are written. -/
theorem parsefieldLoop_top (hi : i ≤ len) :
    (∀ store ∈ (parsefieldLoop c len i s).1, store.1 ≤ i + min (fieldOf s c).length (len + 1 - i)) ∧
      ∃ store ∈ (parsefieldLoop c len i s).1, store.1 = i + min (fieldOf s c).length (len + 1 - i) := by
  induction s generalizing i with
  | nil => simp [parsefieldLoop, fieldOf]
  | cons d s ih =>
    unfold parsefieldLoop
    by_cases hstop : (d = c || isSpace d) = true
    · rw [if_pos hstop, fieldOf_cons_stop hstop]
      simp
    · rw [if_neg hstop, fieldOf_cons_go hstop, List.length_cons]
      by_cases hfull : i ≥ len
      · rw [if_pos hfull]
        have htop : i + min ((fieldOf s c).length + 1) (len + 1 - i) = i + 1 := by omega
        rw [htop]
        simp
      · obtain ⟨hle, top, htop, heq⟩ := @ih (i + 1) (by omega)
        rw [if_neg hfull]
        have hnext : i + min ((fieldOf s c).length + 1) (len + 1 - i) =
            i + 1 + min (fieldOf s c).length (len + 1 - (i + 1)) := by omega
        rw [hnext]
        refine ⟨fun store hstore => ?_, top, List.mem_cons_of_mem _ htop, heq⟩
        rcases List.mem_cons.mp hstore with rfl | hstore
        · omega
        · exact hle store hstore

theorem parsefieldStores_inBuffer {capacity : ℕ} :
    InBuffer capacity (parsefieldStores s c len) ↔ min (fieldOf s c).length (len + 1) < capacity := by
  obtain ⟨hle, top, htop, heq⟩ := @parsefieldLoop_top s c len 0 (Nat.zero_le _)
  rw [Nat.zero_add, Nat.sub_zero] at hle heq
  rw [parsefieldStores, inBuffer_cons]
  constructor
  · rintro ⟨-, h⟩
    rw [← heq]
    exact h top htop
  · intro h
    exact ⟨by omega, fun store hstore => (hle store hstore).trans_lt h⟩

/-- A field that fits is left at its end. -/
theorem parsefieldLoop_rest (hfits : i + (fieldOf s c).length ≤ len) :
    (parsefieldLoop c len i s).2 = s.drop (fieldOf s c).length := by
  induction s generalizing i with
  | nil => simp [parsefieldLoop]
  | cons d s ih =>
    unfold parsefieldLoop
    by_cases hstop : (d = c || isSpace d) = true
    · rw [if_pos hstop, fieldOf_cons_stop hstop]
      rfl
    · rw [fieldOf_cons_go hstop, List.length_cons] at hfits
      rw [if_neg hstop, fieldOf_cons_go hstop, List.length_cons, List.drop_succ_cons, if_neg (by omega)]
      exact ih (by omega)

/-- A field that does not fit is left at the next white space. -/
theorem parsefieldLoop_skips (hi : i ≤ len) (hover : len < i + (fieldOf s c).length) :
    ∀ d rest, (parsefieldLoop c len i s).2 = d :: rest → isSpace d = true := by
  induction s generalizing i with
  | nil =>
    have hnil : (fieldOf [] c).length = 0 := rfl
    omega
  | cons d s ih =>
    unfold parsefieldLoop
    by_cases hstop : (d = c || isSpace d) = true
    · rw [fieldOf_cons_stop hstop, List.length_nil] at hover
      omega
    · rw [fieldOf_cons_go hstop, List.length_cons] at hover
      rw [if_neg hstop]
      by_cases hfull : i ≥ len
      · rw [if_pos hfull]
        intro e rest hrest
        have hhead := List.head?_dropWhile_not (fun d => !isSpace d) s
        have hdropped : s.dropWhile (fun d => !isSpace d) = e :: rest := hrest
        rw [hdropped] at hhead
        simpa using hhead
      · rw [if_neg hfull]
        exact ih (by omega) (by omega)

/-- What `parsefield` returns for a field that is not longer than the capacity. -/
theorem parsefieldEnd_eq (hfits : (fieldOf s c).length ≤ len) :
    parsefieldEnd s c len = match s.drop (fieldOf s c).length with
      | [] => .within s.length
      | d :: _ => if isSpace d then .empty else .within ((fieldOf s c).length + 1) := by
  unfold parsefieldEnd
  rw [parsefieldLoop_rest (by omega)]
  cases hdrop : s.drop (fieldOf s c).length with
  | nil => rfl
  | cons d rest =>
    have hlen := congrArg List.length hdrop
    rw [List.length_drop, List.length_cons] at hlen
    have hoffset : s.length - rest.length = (fieldOf s c).length + 1 := by omega
    simp only [hoffset]

theorem parsefieldEnd_text_of_le (h : (fieldOf s c).length ≤ len) :
    (parsefieldEnd s c len).text s = afterField s c := by
  rw [parsefieldEnd_eq h, afterField]
  cases hdrop : s.drop (fieldOf s c).length with
  | nil => exact List.drop_length
  | cons d rest =>
    by_cases hd : isSpace d = true
    · simp only [hd, if_true, FieldEnd.text]
    · simp only [hd, Bool.false_eq_true, if_false, FieldEnd.text]
      rw [← List.drop_drop, hdrop]
      rfl

/-- The text behind a field that is too long is lost. -/
theorem parsefieldEnd_text_of_lt (h : len < (fieldOf s c).length) :
    (parsefieldEnd s c len).text s = [] := by
  have hskips := @parsefieldLoop_skips s c len 0 (Nat.zero_le _) (by omega)
  rw [parsefieldEnd]
  cases hrest : (parsefieldLoop c len 0 s).2 with
  | nil => exact List.drop_length
  | cons d rest => simp only [hskips d rest hrest, if_true, FieldEnd.text]

/-- The field and the text behind it, for the `parsefield` of the dictionary search. -/
theorem parsefield_eq (s : Bytes) (c : Byte) (len : ℕ) :
    parsefield s c len = ((fieldOf s c).take (len + 1),
      if (fieldOf s c).length > len then [] else afterField s c) := by
  unfold parsefield
  change (if (fieldOf s c).length > len then ((fieldOf s c).take (len + 1), [])
    else match s.drop (fieldOf s c).length with
      | [] => (fieldOf s c, [])
      | d :: rest => (fieldOf s c, if isSpace d then [] else rest)) = _
  by_cases hover : (fieldOf s c).length > len
  · rw [if_pos hover, if_pos hover]
  · rw [if_neg hover, if_neg hover, List.take_of_length_le (by omega), afterField]
    cases s.drop (fieldOf s c).length <;> rfl

/-- The string in the buffer and the text behind it are those of `parsefield` as the dictionary
search has it, which knows of no capacity but that of the cut. -/
theorem parsefieldStores_refines (s : Bytes) (c : Byte) (len : ℕ) (memory : ℕ → Byte) :
    storeAll memory (parsefieldStores s c len) (parsefield s c len).1.length = 0 ∧
      (List.range (parsefield s c len).1.length).map (storeAll memory (parsefieldStores s c len)) =
        (parsefield s c len).1 ∧
      (parsefieldEnd s c len).text s = (parsefield s c len).2 := by
  obtain ⟨hmap, hzero⟩ := @parsefieldLoop_stored s c len 0 (Nat.zero_le _) (Function.update memory 0 0)
  have htop : 0 + min (fieldOf s c).length (len + 1 - 0) = ((fieldOf s c).take (len + 1)).length := by
    rw [List.length_take]
    omega
  rw [htop] at hmap hzero
  rw [parsefield_eq]
  refine ⟨hzero, hmap, ?_⟩
  by_cases hover : (fieldOf s c).length > len
  · rw [if_pos hover, parsefieldEnd_text_of_lt hover]
  · rw [if_neg hover, parsefieldEnd_text_of_le (Nat.le_of_not_gt hover)]

/-- What a call of `parsefield` is to do: no store is past the buffer, the buffer holds a
beginning of the field with a NUL, and the text is left behind the field. -/
structure ParsefieldLaw (s : Bytes) (c : Byte) (len : ℕ) : Prop where
  stores : InBuffer len (parsefieldStores s c len)
  text : ∀ memory, ∃ n < len, storeAll memory (parsefieldStores s c len) n = 0 ∧
    (List.range n).map (storeAll memory (parsefieldStores s c len)) <+: fieldOf s c
  delimiter : ∀ rest, s = fieldOf s c ++ c :: rest → isSpace c = false →
    parsefieldEnd s c len = .within ((fieldOf s c).length + 1)
  finish : s = fieldOf s c → parsefieldEnd s c len = .within s.length
  space : ∀ d rest, s = fieldOf s c ++ d :: rest → isSpace d = true → parsefieldEnd s c len = .empty

theorem ParsefieldLaw.length_lt (h : ParsefieldLaw s c len) : (fieldOf s c).length < len := by
  have hmin := parsefieldStores_inBuffer.mp h.stores
  omega

theorem parsefieldLaw_of_length_lt (h : (fieldOf s c).length < len) : ParsefieldLaw s c len := by
  have hend := parsefieldEnd_eq h.le
  have hdrop : ∀ rest, s = fieldOf s c ++ rest → s.drop (fieldOf s c).length = rest := by
    intro rest hs
    have hleft := @List.drop_left _ (fieldOf s c) rest
    rwa [← hs] at hleft
  refine ⟨parsefieldStores_inBuffer.mpr (by omega), fun memory => ?_, fun rest hs hc => ?_, fun hs => ?_,
    fun d rest hs hd => ?_⟩
  · obtain ⟨hmap, hzero⟩ := @parsefieldLoop_stored s c len 0 (Nat.zero_le _) (Function.update memory 0 0)
    have htop : 0 + min (fieldOf s c).length (len + 1 - 0) = (fieldOf s c).length := by omega
    rw [htop] at hmap hzero
    rw [List.take_of_length_le (by omega), List.range_zero, List.map_nil, List.nil_append] at hmap
    exact ⟨_, h, hzero, by rw [parsefieldStores, storeAll_cons, hmap]⟩
  · rw [hend, hdrop _ hs]
    simp [hc]
  · rw [hend, hdrop [] (by rwa [List.append_nil])]
  · rw [hend, hdrop _ hs]
    simp [hd]

end Parsefield

section Setstemvars

/-- The stores into the buffers of `comstemtypes`. -/
structure StemStores where
  cstem : List (ℕ × Byte)
  clemma : List (ℕ × Byte)
  cstemtype : List (ℕ × Byte)
  cstemkeys : List (ℕ × Byte)

/-- The stores of `setstemvars`. -/
def setstemvarsStores (s : Bytes) : StemStores :=
  let s₁ := (parsefieldEnd s 58 maxWordSize).text s
  let s₂ := (parsefieldEnd s₁ 58 maxWordSize).text s₁
  let s₃ := (parsefieldEnd s₂ 58 maxWordSize).text s₂
  { cstem := (0, 0) :: parsefieldStores s 58 maxWordSize
    clemma := (0, 0) :: parsefieldStores s₁ 58 maxWordSize
    cstemtype := (0, 0) :: parsefieldStores s₂ 58 maxWordSize
    cstemkeys := (0, 0) :: parsefieldStores s₃ 32 longString }

/-- No store of `setstemvars` is past the buffers of `comstemtypes`. The one of the stem type has
`LONGSTRING` bytes. -/
structure SetstemvarsInBuffers (s : Bytes) : Prop where
  cstem : InBuffer maxWordSize (setstemvarsStores s).cstem
  clemma : InBuffer maxWordSize (setstemvarsStores s).clemma
  cstemtype : InBuffer longString (setstemvarsStores s).cstemtype
  cstemkeys : InBuffer longString (setstemvarsStores s).cstemkeys

/-- The fields of an entry that has room in the buffers of `comstemtypes`. The keys are not reached
behind a stem type that is too long. -/
structure StemFieldsFit (s : Bytes) : Prop where
  stem : (fieldOf s 58).length < maxWordSize
  lemma_ : (fieldOf (afterField s 58) 58).length < maxWordSize
  keys : (fieldOf (afterField (afterField s 58) 58) 58).length ≤ maxWordSize →
    (fieldOf (afterField (afterField (afterField s 58) 58) 58) 32).length < longString

variable {s : Bytes} {c : Byte} {len : ℕ}

theorem first_inBuffer {capacity : ℕ} (hpos : 0 < capacity) :
    InBuffer capacity ((0, 0) :: parsefieldStores s c len) ↔
    min (fieldOf s c).length (len + 1) < capacity := by
  rw [inBuffer_cons, parsefieldStores_inBuffer, and_iff_right hpos]

theorem setstemvarsInBuffers_iff (s : Bytes) : SetstemvarsInBuffers s ↔ StemFieldsFit s := by
  have hword : 0 < maxWordSize := by decide
  have hlong : 0 < longString := by decide
  have hshort : maxWordSize + 1 < longString := by decide
  constructor
  · intro h
    have hstem := (first_inBuffer hword).mp h.cstem
    have hfirst := @parsefieldEnd_text_of_le s 58 maxWordSize (by omega)
    have hlemma := (first_inBuffer hword).mp h.clemma
    rw [hfirst] at hlemma
    have hsecond := @parsefieldEnd_text_of_le (afterField s 58) 58 maxWordSize (by omega)
    refine ⟨by omega, by omega, fun htype => ?_⟩
    have hkeys := (first_inBuffer hlong).mp h.cstemkeys
    rw [hfirst, hsecond, parsefieldEnd_text_of_le htype] at hkeys
    omega
  · rintro ⟨hstem, hlemma, hkeys⟩
    have hfirst := parsefieldEnd_text_of_le hstem.le
    have hsecond := parsefieldEnd_text_of_le hlemma.le
    refine ⟨(first_inBuffer hword).mpr (by omega), (first_inBuffer hword).mpr ?_, (first_inBuffer hlong).mpr ?_,
      (first_inBuffer hlong).mpr ?_⟩
    · rw [hfirst]
      omega
    · rw [hfirst, hsecond]
      omega
    · rw [hfirst, hsecond]
      rcases Nat.lt_or_ge maxWordSize (fieldOf (afterField (afterField s 58) 58) 58).length with htype | htype
      · rw [parsefieldEnd_text_of_lt htype]
        exact (Nat.min_le_left ..).trans_lt hlong
      · have hfits := hkeys htype
        rw [parsefieldEnd_text_of_le htype]
        omega

end Setstemvars

section ChckIrrLemms

/-- The stores of `Xstrncpy`: the bytes for which the length that is passed has room, and a NUL. -/
def xstrncpyStores (s : Bytes) (len : ℕ) : List (ℕ × Byte) :=
  (xstrncpy s len).zipIdx.map Prod.swap ++ [((xstrncpy s len).length, 0)]

theorem xstrncpyStores_inBuffer {s : Bytes} {len capacity : ℕ} :
    InBuffer capacity (xstrncpyStores s len) ↔ (xstrncpy s len).length < capacity := by
  unfold InBuffer xstrncpyStores
  rw [List.forall_mem_append, List.forall_mem_singleton]
  refine and_iff_right_of_imp fun hlen store hstore => ?_
  obtain ⟨indexed, hindexed, rfl⟩ := List.mem_map.mp hstore
  exact (List.snd_lt_of_mem_zipIdx hindexed).trans hlen

/-- The stores into the field buffers of `ChckIrrLemms` for an entry. -/
structure IrrStores where
  tmpword : List (ℕ × Byte)
  irrform : List (ℕ × Byte)
  lemma_ : List (ℕ × Byte)
  stemkeys : List (ℕ × Byte)

/-- The stores of a turn of the loop of `ChckIrrLemms` for a word with this stem. The irregular
form and the lemma of the word have `MAXWORDSIZE` bytes, but the capacity that is passed with the
form and the lemma of an entry is `LONGSTRING`. -/
def chckIrrLemmStores (stem curlemma : Bytes) : IrrStores :=
  let tmpword := (parsefield curlemma 58 longString).1
  let s₁ := (parsefieldEnd curlemma 58 longString).text curlemma
  let s₂ := (parsefieldEnd s₁ 58 longString).text s₁
  { tmpword := parsefieldStores curlemma 58 longString
    irrform := if tmpword ≠ [] then xstrncpyStores tmpword longString
      else xstrncpyStores stem maxWordSize
    lemma_ := parsefieldStores s₁ 58 longString
    stemkeys := parsefieldStores s₂ 32 longString }

/-- No store of a turn is past its buffer. -/
structure IrrStores.InBuffers (stores : IrrStores) : Prop where
  tmpword : InBuffer longString stores.tmpword
  irrform : InBuffer maxWordSize stores.irrform
  lemma_ : InBuffer maxWordSize stores.lemma_
  stemkeys : InBuffer longString stores.stemkeys

/-- No store of `ChckIrrLemms` for the entries of a list is past its buffers, whatever the stem of
the word is at that turn. -/
def ChckIrrLemmsInBuffers (irrkey : Bytes) : Prop :=
  ∀ curlemma ∈ keyWords irrkey, ∀ stem, (chckIrrLemmStores stem curlemma).InBuffers

/-- The fields of an entry that has room in the buffers of `ChckIrrLemms`. -/
structure IrrFieldsFit (curlemma : Bytes) : Prop where
  form : (fieldOf curlemma 58).length < maxWordSize
  lemma_ : (fieldOf (afterField curlemma 58) 58).length < maxWordSize
  keys : (fieldOf (afterField (afterField curlemma 58) 58) 32).length < longString

/-- The irregular form stays in its buffer when the form of the entry is as short as a word. -/
theorem irrformStores_inBuffer (stem curlemma : Bytes) :
    InBuffer maxWordSize (chckIrrLemmStores stem curlemma).irrform ↔
      (fieldOf curlemma 58).length < maxWordSize := by
  have hpos : 0 < maxWordSize := by decide
  have hshort : maxWordSize + 1 < longString := by decide
  unfold chckIrrLemmStores
  dsimp only
  rw [parsefield_eq]
  by_cases hempty : (fieldOf curlemma 58).take (longString + 1) = []
  · have hnil : fieldOf curlemma 58 = [] :=
      (List.take_eq_nil_iff.mp hempty).resolve_left (Nat.succ_ne_zero _)
    rw [if_neg (not_not.mpr hempty), xstrncpyStores_inBuffer, hnil, xstrncpy, List.length_take]
    exact iff_of_true (by omega) hpos
  · rw [if_pos hempty, xstrncpyStores_inBuffer, xstrncpy, List.length_take, List.length_take]
    omega

theorem chckIrrLemmStores_iff (stem curlemma : Bytes) :
    (chckIrrLemmStores stem curlemma).InBuffers ↔ IrrFieldsFit curlemma := by
  have hshort : maxWordSize < longString := by decide
  constructor
  · rintro ⟨-, hirrform, hlemma, hkeys⟩
    have hform := (irrformStores_inBuffer stem curlemma).mp hirrform
    have hfirst := @parsefieldEnd_text_of_le curlemma 58 longString (by omega)
    have hlemma := parsefieldStores_inBuffer.mp hlemma
    have hkeys := parsefieldStores_inBuffer.mp hkeys
    rw [hfirst] at hlemma hkeys
    have hsecond := @parsefieldEnd_text_of_le (afterField curlemma 58) 58 longString (by omega)
    rw [hsecond] at hkeys
    exact ⟨hform, by omega, by omega⟩
  · rintro ⟨hform, hlemma, hkeys⟩
    have hfirst := @parsefieldEnd_text_of_le curlemma 58 longString (by omega)
    have hsecond := @parsefieldEnd_text_of_le (afterField curlemma 58) 58 longString (by omega)
    refine ⟨parsefieldStores_inBuffer.mpr (by omega),
      (irrformStores_inBuffer stem curlemma).mpr hform, parsefieldStores_inBuffer.mpr ?_,
      parsefieldStores_inBuffer.mpr ?_⟩
    · rw [hfirst]
      omega
    · rw [hfirst, hsecond]
      omega

/-- A field is parsed as it should be if and only if it is shorter than the capacity: one that is as
long has its NUL behind the buffer, and a longer one a byte of the field and the NUL. So the buffers
of the dictionary entries are kept if and only if the fields are shorter than they are. -/
theorem fieldStores_iff (s : Bytes) (c : Byte) (len : ℕ) (line irrkey : Bytes) :
    (ParsefieldLaw s c len ↔ (fieldOf s c).length < len) ∧
      (SetstemvarsInBuffers line ↔ StemFieldsFit line) ∧
      (ChckIrrLemmsInBuffers irrkey ↔ ∀ curlemma ∈ keyWords irrkey, IrrFieldsFit curlemma) :=
  ⟨⟨ParsefieldLaw.length_lt, parsefieldLaw_of_length_lt⟩, setstemvarsInBuffers_iff line,
    forall₂_congr fun curlemma _ => (forall_congr' fun stem =>
      chckIrrLemmStores_iff stem curlemma).trans (forall_const Bytes)⟩

/-- The entry of an irregular form stands alone in its list. -/
theorem mem_keyWords_entry {entry : Bytes} (h : IsKeyWord entry) : entry ∈ keyWords entry := by
  have halone := keyWords_cons h [] (.inl rfl)
  rw [List.append_nil] at halone
  exact halone ▸ List.mem_cons_self

/-- The field `ab` in a buffer of two bytes, a stem of sixty bytes, an irregular form whose lemma
has sixty, and one that has sixty itself. -/
theorem fieldStores_full :
    ¬(∀ s c len, 1 ≤ len → ParsefieldLaw s c len) ∧ (¬∀ s, SetstemvarsInBuffers s) ∧
      ¬ ChckIrrLemmsInBuffers (58 :: List.replicate 60 97 ++ ascii ":os_ou") ∧
      ¬ ChckIrrLemmsInBuffers (List.replicate 60 97 ++ ascii ":ei)mi:irreg") := by
  refine ⟨fun h => ?_, fun h => ?_, fun h => ?_, fun h => ?_⟩
  · have hlt := (h (ascii "ab:c") 58 2 (by decide)).length_lt
    exact absurd hlt (by decide)
  · have hfit := (setstemvarsInBuffers_iff _).mp (h (List.replicate 60 97 ++ ascii ":lo/gos:os_ou:"))
    exact absurd hfit.stem (by decide)
  · have hkey : IsKeyWord (58 :: List.replicate 60 97 ++ ascii ":os_ou") :=
      ⟨by decide, List.forall_iff_forall_mem.mp (by decide +kernel)⟩
    have hfit := (chckIrrLemmStores_iff [] _).mp (h _ (mem_keyWords_entry hkey) [])
    exact absurd hfit.lemma_ (by decide)
  · have hkey : IsKeyWord (List.replicate 60 97 ++ ascii ":ei)mi:irreg") :=
      ⟨by decide, List.forall_iff_forall_mem.mp (by decide +kernel)⟩
    have hfit := (chckIrrLemmStores_iff [] _).mp (h _ (mem_keyWords_entry hkey) [])
    exact absurd hfit.form (by decide)

end ChckIrrLemms

end Morpheus
