import Morpheus.Binlook
import Morpheus.IndexLines
import Morpheus.LineInput
import Morpheus.LittleEndian
import Morpheus.VaxWords

/-!
# The sparse index of an index file

`index_list_impl` samples the lines of a sorted index file: the first bytes of a tag and
the offset of its line. `ChckPreIndex` looks a tag up among the samples and
`ChckFullIndex` scans the index from the offset it gives.
-/
namespace Morpheus

/-- `KEYLEN` -/
def keyLen : ℕ := 8

/-- `MODULUS` -/
def maxModulus : ℕ := 10

/-- A record of the pre-index as `WriteKey` takes it. -/
structure PreRecord where
  key : Bytes
  offset : UInt32
  deriving DecidableEq, Repr

/-- `WriteKey` -/
def writeKey (r : PreRecord) : Bytes := r.key.take keyLen ++ putInt32 r.offset

/-- `index_key_state`; of `curkey` the bytes that are ever written. -/
structure IndexKeyState where
  curkey : Bytes
  prevkey : Bytes
  nkeys : ℕ

def IndexKeyState.initial : IndexKeyState := ⟨List.replicate (keyLen + 1) 0, [], maxModulus + 1⟩

/-- The copying loop of `prockeyline`, from byte `i` on. -/
def copyKey : ℕ → ℕ → Bytes → Bytes → Bytes
  | 0, _, _, curkey => curkey
  | n + 1, i, p, curkey =>
    let curkey := (curkey.set i (p.headD 0)).set (i + 1) 0
    if p.tail.headD 0 = 0 ∨ isSpace (p.tail.headD 0) then curkey
    else copyKey n (i + 1) p.tail curkey

/-- `prockeyline`: the record written, if any. What a shorter key leaves behind in
`curkey` is written with the next one. -/
def prockeyline (s : Bytes) (modulus : ℕ) (curoff : UInt32) (state : IndexKeyState) :
    Option PreRecord × IndexKeyState :=
  let curkey := copyKey keyLen 0 s state.curkey
  let nkeys := state.nkeys + 1
  if modulus ≤ nkeys ∧ morphstrcmp (cstr curkey) state.prevkey ≠ 0 then
    (some ⟨curkey, curoff⟩, ⟨curkey, cstr curkey, 0⟩)
  else (none, ⟨curkey, cstr curkey, nkeys⟩)

/-- The loop of `index_list_impl` over the lines of the file, from an offset on. -/
def indexListFrom (tagstring : Bytes) (modulus : ℕ) :
    ℕ → IndexKeyState → List Bytes → Option (List PreRecord)
  | offset, _, [] => if offset > UInt32.size - 1 then none else some []
  | offset, state, buffer :: rest =>
    if offset > UInt32.size - 1 then none
    else
      let line := cstr buffer
      if isBlank line ∨ line.head? = some 35 ∨ !startsWith tagstring line then
        indexListFrom tagstring modulus (offset + buffer.length) state rest
      else
        let step := prockeyline (line.drop tagstring.length) modulus (UInt32.ofNat offset) state
        (indexListFrom tagstring modulus (offset + buffer.length) step.2 rest).map
          (step.1.toList ++ ·)

/-- `index_list_impl`: the contents of the pre-index. -/
def indexList (file tagstring : Bytes) (modulus : ℤ) : Option Bytes :=
  if modulus ≤ 0 then none
  else
    (indexListFrom tagstring (min modulus.toNat maxModulus) 0 IndexKeyState.initial
      (fgetsLines (longString * 4) file)).map fun records => (records.map writeKey).flatten

/-- `endtags` -/
structure EndTag where
  tagstring : Bytes
  tagoffset : UInt32
  deriving DecidableEq, Repr, Inhabited

/-- The offset of a record, put together from its bytes. -/
def recordOffset : ℕ → Bytes → UInt32 → UInt32
  | _, [], tagoffset => tagoffset
  | byte, c :: record, tagoffset =>
    recordOffset (byte + 1) record (tagoffset ||| c.toUInt32 <<< UInt32.ofNat (8 * byte))

/-- Size of a record: `KEYLEN` and a 32-bit offset. -/
def preRecordSize : ℕ := keyLen + 4

/-- `init_preind` -/
def initPreind (file : Bytes) : Option (List EndTag) :=
  if file.length % preRecordSize ≠ 0 then none
  else if file.length / preRecordSize > intMax then none
  else some <| (List.range (file.length / preRecordSize)).map fun i =>
    let record := slice file (i * preRecordSize) preRecordSize
    ⟨cstr (record.take keyLen), recordOffset 0 (record.drop keyLen) 0⟩

/-- `ChckPreIndex`; failure is `none`. -/
def chckPreIndex (etags : List EndTag) (tag : Bytes) (exactMatch : Bool) : Option ℕ :=
  let exactMatch := if tag.length > keyLen then false else exactMatch
  let curtag := tag.take keyLen
  let compare := fun i => morphstrcmp curtag (etags.getD i default).tagstring
  (binlook compare etags.length exactMatch).map fun rval =>
    if rval = 0 then 0 else (etags.getD rval default).tagoffset.toNat

/-- The scan of `ChckFullIndex` over the lines it reads. -/
def scanIndex (s : Bytes) : List Bytes → Option Bytes
  | [] => none
  | buf :: rest =>
    let comp := morphstrncmp s buf s.length
    if comp = 0 ∧ isSpace (buf.getD s.length 0) then
      some (xstrncpy ((buf.drop s.length).dropWhile isSpace) longString)
    else if comp < 0 then none
    else scanIndex s rest

/-- `ChckFullIndex`: the keys of a tag, `none` where it returns 0. -/
def chckFullIndex (s file : Bytes) (offset : ℕ) : Option Bytes :=
  scanIndex s ((fgetsLines 32768 (file.drop offset)).map cstr)

/-- A buffer that holds a line of an index, with its newline or, at the end of the file,
without. -/
def Buffered (line : IndexLine) (buffer : Bytes) : Prop :=
  buffer = line.text ∨ buffer = line.text ++ [10]

/-- A buffer is a tag, a blank and the keys. -/
theorem Buffered.eq {line : IndexLine} {buffer : Bytes} (h : Buffered line buffer) :
    ∃ newline, (newline = [] ∨ newline = [10]) ∧
      buffer = line.tag ++ 32 :: (joinKeys line.keys ++ newline) := by
  rcases h with rfl | rfl
  · exact ⟨[], Or.inl rfl, by simp [IndexLine.text]⟩
  · exact ⟨[10], Or.inr rfl, by simp [IndexLine.text]⟩

theorem Buffered.nulFree {line : IndexLine} {buffer : Bytes} (h : Buffered line buffer)
    (hwf : line.WellFormed) : NulFree buffer := by
  obtain ⟨newline, hnewline, rfl⟩ := h.eq
  have hn : NulFree newline := by
    rcases hnewline with rfl | rfl <;> simp
  simp [hwf.word.nulFree, hwf.nulFree, hn]

theorem Buffered.not_blank {line : IndexLine} {buffer : Bytes} (h : Buffered line buffer)
    (hwf : line.WellFormed) : isBlank buffer = false := by
  obtain ⟨newline, -, rfl⟩ := h.eq
  obtain ⟨c, tag, htag⟩ := List.exists_cons_of_ne_nil hwf.word.1
  have hc := not_isSpace_of_lt (hwf.word.2 c (by simp [htag]))
  simp [isBlank, htag, hc]

theorem Buffered.head? {line : IndexLine} {buffer : Bytes} (h : Buffered line buffer)
    (hwf : line.WellFormed) : buffer.head? = line.tag.head? := by
  obtain ⟨newline, -, rfl⟩ := h.eq
  obtain ⟨c, tag, htag⟩ := List.exists_cons_of_ne_nil hwf.word.1
  simp [htag]

private theorem set_set_eq {curkey : Bytes} (i : ℕ) (a b : Byte) (h : i + 1 < curkey.length) :
    (curkey.set i a).set (i + 1) b = curkey.take i ++ a :: b :: curkey.drop (i + 2) := by
  apply List.ext_getElem
  · simp
    omega
  · intro j hj hj'
    grind

/-- The copying loop copies a word, as much of it as fits. -/
theorem copyKey_word {n i : ℕ} {w y curkey : Bytes} (hn : 0 < n) (hw : IsWord w)
    (hlen : curkey.length = i + n + 1) :
    copyKey n i (w ++ 32 :: y) curkey =
      curkey.take i ++ w.take n ++ 0 :: curkey.drop (i + min w.length n + 1) := by
  induction n generalizing i w curkey with
  | zero => exact absurd hn (lt_irrefl 0)
  | succ n ih =>
    obtain ⟨c, w, rfl⟩ := List.exists_cons_of_ne_nil hw.1
    have hset : (curkey.set i c).set (i + 1) 0 = curkey.take i ++ c :: 0 :: curkey.drop (i + 2) :=
      set_set_eq i c 0 (by omega)
    simp only [copyKey, List.cons_append, List.headD_cons, List.tail_cons, hset]
    cases w with
    | nil =>
      have hblank : isSpace 32 = true := rfl
      simp [hblank]
    | cons d w =>
      have hd := hw.2 d (by simp)
      have hd0 : d ≠ 0 := by
        rintro rfl
        exact absurd hd (by decide)
      rw [if_neg (by simp [hd0, not_isSpace_of_lt hd])]
      cases n with
      | zero => simp [copyKey]
      | succ n =>
        have hw' : IsWord (d :: w) := ⟨by simp, fun e he => hw.2 e (by simp [he])⟩
        have h := @ih (i + 1) (d :: w) (curkey.take i ++ c :: 0 :: curkey.drop (i + 2))
          (Nat.succ_pos n) hw' (by simp; omega)
        rw [h]
        have htake : (curkey.take i ++ c :: 0 :: curkey.drop (i + 2)).take (i + 1) =
            curkey.take i ++ [c] := by
          grind
        have hdrop : ∀ k, i + 2 ≤ k →
            (curkey.take i ++ c :: 0 :: curkey.drop (i + 2)).drop k = curkey.drop k := by
          intro k hk
          rw [← hset, List.drop_set, List.drop_set]
          grind
        have hmin : i + 1 + min (d :: w).length (n + 1) + 1 =
            i + min (c :: d :: w).length (n + 1 + 1) + 1 := by
          simp only [List.length_cons]
          omega
        rw [htake, hmin, hdrop _ (by simp only [List.length_cons]; omega)]
        simp

/-- The key of a line is the beginning of its tag. -/
theorem copyKey_key {w y curkey : Bytes} (hw : IsWord w) (hlen : curkey.length = keyLen + 1) :
    (copyKey keyLen 0 (w ++ 32 :: y) curkey).length = keyLen + 1 ∧
      cstr (copyKey keyLen 0 (w ++ 32 :: y) curkey) = w.take keyLen ∧
      cstr ((copyKey keyLen 0 (w ++ 32 :: y) curkey).take keyLen) = w.take keyLen := by
  have hkey := copyKey_word (y := y) (i := 0) (n := keyLen) (by decide) hw (by simpa using hlen)
  have hn := hw.nulFree.take keyLen
  rw [hkey]
  simp only [List.take_zero, List.nil_append, Nat.zero_add]
  refine ⟨?_, cstr_append_nul hn _, ?_⟩
  · simp [hlen]
    omega
  · rw [cstr_take, cstr_append_nul hn, List.take_take, min_self]

/-- What the loop does with the buffer of a line. -/
theorem indexListFrom_cons {modulus offset : ℕ} {state : IndexKeyState} {line : IndexLine}
    {buffer : Bytes} {rest : List Bytes} (hoff : offset < UInt32.size)
    (hb : Buffered line buffer) (hwf : line.WellFormed) :
    indexListFrom [] modulus offset state (buffer :: rest) =
      if line.tag.head? = some 35 then
        indexListFrom [] modulus (offset + buffer.length) state rest
      else
        (indexListFrom [] modulus (offset + buffer.length)
          (prockeyline buffer modulus (UInt32.ofNat offset) state).2 rest).map
          ((prockeyline buffer modulus (UInt32.ofNat offset) state).1.toList ++ ·) := by
  have hle : ¬offset > UInt32.size - 1 := by omega
  have hstart : startsWith [] buffer = true := rfl
  rw [indexListFrom, if_neg hle]
  simp only [cstr_of_nulFree (hb.nulFree hwf), hb.not_blank hwf, hb.head? hwf, hstart,
    Bool.false_eq_true, Bool.not_true, false_or, or_false, List.length_nil, List.drop_zero]

/-- What the loop knows after the lines `done`: the longest key among them is the last. -/
structure Sampled (done : List IndexLine) (state : IndexKeyState) : Prop where
  length : state.curkey.length = keyLen + 1
  nulFree : NulFree state.prevkey
  bound : ∀ q ∈ done, q.tag.head? ≠ some 35 →
    rank comptab (q.tag.take keyLen) ≤ rank comptab state.prevkey
  last : state.prevkey = [] ∨ ∃ q ∈ done, q.tag.take keyLen = state.prevkey

/-- A sample: the key of a line and its offset, no earlier line having the key. -/
def IsSample (lines : List IndexLine) (buffers : List Bytes) (r : PreRecord) : Prop :=
  ∃ before line after before' after', lines = before ++ line :: after ∧
    buffers = before' ++ after' ∧ before'.length = before.length ∧
    cstr (r.key.take keyLen) = line.tag.take keyLen ∧ keyLen ≤ r.key.length ∧
    r.offset.toNat = before'.flatten.length ∧
    ∀ q ∈ before, rank comptab (q.tag.take keyLen) < rank comptab (line.tag.take keyLen)

theorem rank_take_le {a b : Bytes} (h : rank comptab a < rank comptab b) :
    rank comptab (a.take keyLen) ≤ rank comptab (b.take keyLen) := by
  rw [rank_take, rank_take]
  exact Lexicographic.take_le_take h.le keyLen

private theorem eq_of_comptab_eq {c : Byte} (h : comptab c = 35) : c = 35 := by
  rw [comptab] at h
  split at h
  · exact absurd h (by decide)
  · exact h

/-- Tags that the comparison does not tell apart begin with `#` together. -/
theorem head?_comment_of_rank_eq {a b : Bytes} (h : rank comptab a = rank comptab b)
    (ha : a.head? = some 35) : b.head? = some 35 := by
  cases a with
  | nil => simp at ha
  | cons c a =>
    cases b with
    | nil => simp at h
    | cons d b =>
      obtain rfl : c = 35 := by simpa using ha
      have hd : comptab 35 = comptab d := UInt8.toNat_inj.mp (List.cons.inj h).1
      rw [eq_of_comptab_eq hd.symm, List.head?_cons]

/-- A tag that begins with `#` is below the key of one that does not. -/
theorem rank_take_lt_of_comment {a b : Bytes} (ha : a.head? = some 35) (hb : b.head? ≠ some 35)
    (h : rank comptab a < rank comptab b) :
    rank comptab (a.take keyLen) < rank comptab (b.take keyLen) := by
  cases a with
  | nil => simp at ha
  | cons c a =>
    cases b with
    | nil => exact absurd h (List.not_lt_nil _)
    | cons d b =>
      obtain rfl : c = 35 := by simpa using ha
      have hd : d ≠ 35 := by simpa using hb
      have hne : (comptab 35).toNat ≠ (comptab d).toNat :=
        fun he => hd (eq_of_comptab_eq (UInt8.toNat_inj.mp he).symm)
      rw [rank_cons, rank_cons, Lexicographic.cons_lt_cons] at h
      have hlt : (comptab 35).toNat < (comptab d).toNat := h.resolve_right fun he => hne he.1
      have hlen : keyLen = 7 + 1 := rfl
      rw [hlen, List.take_succ_cons, List.take_succ_cons, rank_cons, rank_cons]
      exact Lexicographic.cons_lt_cons.mpr (Or.inl hlt)

theorem Sampled.skip {done : List IndexLine} {state : IndexKeyState} (h : Sampled done state)
    {line : IndexLine} (hline : line.tag.head? = some 35) : Sampled (done ++ [line]) state where
  length := h.length
  nulFree := h.nulFree
  bound := by
    intro q hq hn
    rcases List.mem_append.mp hq with hq | hq
    · exact h.bound q hq hn
    · obtain rfl := List.mem_singleton.mp hq
      exact absurd hline hn
  last := by
    rcases h.last with hnil | ⟨q, hq, hkey⟩
    · exact Or.inl hnil
    · exact Or.inr ⟨q, by simp [hq], hkey⟩

section
variable {done : List IndexLine} {state : IndexKeyState} {line : IndexLine} {buffer : Bytes}
  {modulus : ℕ} {curoff : UInt32}

/-- The state after a line that is no comment. -/
theorem prockeyline_state (modulus : ℕ) (curoff : UInt32)
    (hlen : state.curkey.length = keyLen + 1) (hb : Buffered line buffer)
    (hwf : line.WellFormed) :
    (prockeyline buffer modulus curoff state).2.curkey.length = keyLen + 1 ∧
      (prockeyline buffer modulus curoff state).2.prevkey = line.tag.take keyLen := by
  obtain ⟨newline, -, rfl⟩ := hb.eq
  obtain ⟨hklen, hkey, -⟩ := copyKey_key (y := joinKeys line.keys ++ newline) hwf.word hlen
  simp only [prockeyline]
  split
  · exact ⟨hklen, hkey⟩
  · exact ⟨hklen, hkey⟩

theorem Sampled.step (modulus : ℕ) (curoff : UInt32) (h : Sampled done state)
    (hasc : ∀ q ∈ done, rank comptab q.tag < rank comptab line.tag)
    (hb : Buffered line buffer) (hwf : line.WellFormed) :
    Sampled (done ++ [line]) (prockeyline buffer modulus curoff state).2 := by
  obtain ⟨hlen, hkey⟩ := prockeyline_state modulus curoff h.length hb hwf
  constructor
  · exact hlen
  · rw [hkey]
    exact hwf.word.nulFree.take keyLen
  · intro q hq _
    rw [hkey]
    rcases List.mem_append.mp hq with hq | hq
    · exact rank_take_le (hasc q hq)
    · rw [List.mem_singleton.mp hq]
  · exact Or.inr ⟨line, by simp, hkey.symm⟩

/-- The last key is not above the key of the next line. -/
theorem Sampled.prevkey_le (h : Sampled done state)
    (hasc : ∀ q ∈ done, rank comptab q.tag < rank comptab line.tag) :
    rank comptab state.prevkey ≤ rank comptab (line.tag.take keyLen) := by
  rcases h.last with hnil | ⟨q, hq, hkey⟩
  · rw [hnil, rank_nil]
    exact not_lt.mp (List.not_lt_nil _)
  · rw [← hkey]
    exact rank_take_le (hasc q hq)

/-- A record written for a line has its key, which no earlier line has. -/
theorem Sampled.record (h : Sampled done state)
    (hasc : ∀ q ∈ done, rank comptab q.tag < rank comptab line.tag)
    (hb : Buffered line buffer) (hwf : line.WellFormed) (hline : line.tag.head? ≠ some 35)
    {r : PreRecord} (hr : r ∈ (prockeyline buffer modulus curoff state).1.toList) :
    cstr (r.key.take keyLen) = line.tag.take keyLen ∧ keyLen ≤ r.key.length ∧
      r.offset = curoff ∧
      rank comptab state.prevkey < rank comptab (line.tag.take keyLen) ∧
      ∀ q ∈ done, rank comptab (q.tag.take keyLen) < rank comptab (line.tag.take keyLen) := by
  obtain ⟨newline, -, rfl⟩ := hb.eq
  obtain ⟨hklen, hkey, hcut⟩ := copyKey_key (y := joinKeys line.keys ++ newline) hwf.word h.length
  simp only [prockeyline] at hr
  split at hr
  · rename_i hnew
    obtain rfl : r = ⟨copyKey keyLen 0 (line.tag ++ 32 :: (joinKeys line.keys ++ newline))
        state.curkey, curoff⟩ := by simpa using hr
    have hne := hnew.2
    rw [hkey, morphstrcmp, ne_eq, strcmpBy_eq_zero blankBelow_comptab.separatesNul
      (hwf.word.nulFree.take keyLen) h.nulFree] at hne
    have hlt := lt_of_le_of_ne (h.prevkey_le hasc) (Ne.symm hne)
    refine ⟨hcut, (Nat.le_succ keyLen).trans hklen.ge, rfl, hlt, ?_⟩
    intro q hq
    by_cases hcomment : q.tag.head? = some 35
    · exact rank_take_lt_of_comment hcomment hline (hasc q hq)
    · exact (h.bound q hq hcomment).trans_lt hlt
  · simp at hr
end

/-- The records the loop writes are samples in ascending order. -/
theorem indexListFrom_samples (modulus : ℕ) {lines : List IndexLine} {buffers : List Bytes}
    (hasc : lines.Pairwise fun l m => rank comptab l.tag < rank comptab m.tag)
    (hwf : ∀ l ∈ lines, l.WellFormed) (done rest : List IndexLine) (done' rest' : List Bytes)
    {state : IndexKeyState} (hlines : lines = done ++ rest) (hbuffers : buffers = done' ++ rest')
    (hlen : done'.length = done.length) (hrest : List.Forall₂ Buffered rest rest')
    (hstate : Sampled done state) (hsize : buffers.flatten.length < UInt32.size) :
    ∃ records,
      indexListFrom [] modulus done'.flatten.length state rest' = some records ∧
      records.length ≤ rest.length ∧
      (∀ r ∈ records, IsSample lines buffers r ∧
        rank comptab state.prevkey < rank comptab (cstr (r.key.take keyLen))) ∧
      records.Pairwise fun r q =>
        rank comptab (cstr (r.key.take keyLen)) < rank comptab (cstr (q.key.take keyLen)) := by
  induction hrest generalizing done done' state with
  | nil =>
    have hoff : ¬done'.flatten.length > UInt32.size - 1 := by
      rw [hbuffers, List.append_nil] at hsize
      omega
    exact ⟨[], by rw [indexListFrom, if_neg hoff], by simp, by simp, by simp⟩
  | @cons line buffer rest rest' hb hrest ih =>
    have hoff : done'.flatten.length < UInt32.size := by
      rw [hbuffers, List.flatten_append, List.length_append] at hsize
      omega
    have hline := hwf line (by simp [hlines])
    have hbelow : ∀ q ∈ done, rank comptab q.tag < rank comptab line.tag := by
      intro q hq
      rw [hlines] at hasc
      exact (List.pairwise_append.mp hasc).2.2 q hq line (by simp)
    have hnext := fun next => @ih (done ++ [line]) (done' ++ [buffer]) next
      (by simp [hlines]) (by simp [hbuffers]) (by simp [hlen])
    have hflat : (done' ++ [buffer]).flatten.length = done'.flatten.length + buffer.length := by
      simp
    simp only [hflat] at hnext
    rw [indexListFrom_cons hoff hb hline]
    split
    · rename_i hcomment
      obtain ⟨records, hrun, hcount, hsamples, hpair⟩ := hnext state (hstate.skip hcomment)
      exact ⟨records, hrun, by simp; omega, hsamples, hpair⟩
    · rename_i hcomment
      obtain ⟨records, hrun, hcount, hsamples, hpair⟩ :=
        hnext _ (hstate.step modulus (UInt32.ofNat done'.flatten.length) hbelow hb hline)
      have hprev := (prockeyline_state modulus (UInt32.ofNat done'.flatten.length)
        hstate.length hb hline).2
      rw [hprev] at hsamples
      have hle := hstate.prevkey_le hbelow
      rw [hrun, Option.map_some]
      cases hr : (prockeyline buffer modulus (UInt32.ofNat done'.flatten.length) state).1 with
      | none =>
        refine ⟨records, rfl, by simp; omega, ?_, hpair⟩
        intro r hmem
        exact ⟨(hsamples r hmem).1, hle.trans_lt (hsamples r hmem).2⟩
      | some r =>
        obtain ⟨hcut, hklen, hro, hlt, hbefore⟩ := hstate.record (r := r) hbelow hb hline hcomment
          (by rw [hr]; simp)
        have hsample : IsSample lines buffers r := by
          refine ⟨done, line, rest, done', buffer :: rest', hlines, hbuffers, hlen, hcut, hklen,
            ?_, hbefore⟩
          rw [hro, UInt32.toNat_ofNat_of_lt' hoff]
        refine ⟨r :: records, rfl, by simp; omega, ?_, ?_⟩
        · intro q hmem
          rcases List.mem_cons.mp hmem with rfl | hmem
          · exact ⟨hsample, by rwa [hcut]⟩
          · exact ⟨(hsamples q hmem).1, hle.trans_lt (hsamples q hmem).2⟩
        · rw [List.pairwise_cons]
          refine ⟨?_, hpair⟩
          intro q hmem
          rw [hcut]
          exact (hsamples q hmem).2

/-- The first line that is no comment is sampled. -/
theorem indexListFrom_ne_nil {modulus offset : ℕ} {state : IndexKeyState}
    {lines : List IndexLine} {buffers : List Bytes} {records : List PreRecord}
    (hbuffers : List.Forall₂ Buffered lines buffers) (hwf : ∀ l ∈ lines, l.WellFormed)
    (hlen : state.curkey.length = keyLen + 1) (hprev : state.prevkey = [])
    (hcount : modulus ≤ state.nkeys + 1) (hsize : offset + buffers.flatten.length < UInt32.size)
    (hline : ∃ l ∈ lines, l.tag.head? ≠ some 35)
    (hrun : indexListFrom [] modulus offset state buffers = some records) : records ≠ [] := by
  induction hbuffers generalizing offset records with
  | nil => simp at hline
  | @cons line buffer rest rest' hb hrest ih =>
    have hwl := hwf line (by simp)
    rw [indexListFrom_cons (by omega) hb hwl] at hrun
    split at hrun
    · rename_i hcomment
      have hrestline : ∃ l ∈ rest, l.tag.head? ≠ some 35 := by
        obtain ⟨l, hl, hn⟩ := hline
        rcases List.mem_cons.mp hl with rfl | hl
        · exact absurd hcomment hn
        · exact ⟨l, hl, hn⟩
      refine ih (fun l hl => hwf l (by simp [hl])) ?_ hrestline hrun
      rw [List.flatten_cons, List.length_append] at hsize
      omega
    · obtain ⟨tail, -, hout⟩ := Option.map_eq_some_iff.mp hrun
      obtain ⟨newline, -, hbeq⟩ := hb.eq
      obtain ⟨-, hkey, -⟩ := copyKey_key (y := joinKeys line.keys ++ newline) hwl.word hlen
      have hne : morphstrcmp (cstr (copyKey keyLen 0 buffer state.curkey)) state.prevkey ≠ 0 := by
        rw [hbeq, hkey, hprev, morphstrcmp, ne_eq, strcmpBy_eq_zero
          blankBelow_comptab.separatesNul (hwl.word.nulFree.take keyLen) nulFree_nil]
        obtain ⟨c, tag, htag⟩ := List.exists_cons_of_ne_nil hwl.word.1
        simp [htag, keyLen]
      rw [← hout, prockeyline, if_pos ⟨hcount, hne⟩]
      simp

theorem recordOffset_putBytes (n i : ℕ) (word value : UInt32) :
    recordOffset i (putBytes n i word) value = gather n i word value := by
  induction n generalizing i value with
  | zero => rfl
  | succ n ih => simp only [putBytes, recordOffset, gather, ih]

/-- A record of the pre-index as `init_preind` reads it. -/
def PreRecord.endTag (r : PreRecord) : EndTag := ⟨cstr (r.key.take keyLen), r.offset⟩

theorem writeKey_length {r : PreRecord} (h : keyLen ≤ r.key.length) :
    (writeKey r).length = preRecordSize := by
  simp [writeKey, preRecordSize, h]

/-- The pre-index comes back as it was written. -/
theorem initPreind_writeKey {records : List PreRecord}
    (hkeys : ∀ r ∈ records, keyLen ≤ r.key.length) (hcount : records.length ≤ intMax) :
    initPreind (records.map writeKey).flatten = some (records.map PreRecord.endTag) := by
  have hw : ∀ r ∈ records, (writeKey r).length = preRecordSize :=
    fun r hr => writeKey_length (hkeys r hr)
  have hpos : 0 < preRecordSize := by decide
  rw [← List.flatMap_def, initPreind, flatMap_length hw, Nat.mul_mod_left, Nat.mul_div_left _ hpos]
  rw [if_neg (by simp), if_neg (by omega)]
  congr 1
  apply List.ext_getElem
  · simp
  · intro i hi hi'
    have hlen : i < records.length := by simpa using hi'
    have hkey : (records[i].key.take keyLen).length = keyLen := by
      simpa using hkeys _ (List.getElem_mem hlen)
    simp only [List.getElem_map, List.getElem_range, slice_flatMap hw hlen, writeKey,
      PreRecord.endTag]
    rw [List.take_left' hkey, List.drop_left' hkey, putInt32, recordOffset_putBytes, gather_int32]

/-- The run-time lookup begins at a line that has only smaller tags before it. -/
theorem chckPreIndex_locates {lines : List IndexLine} {buffers : List Bytes}
    {records : List PreRecord} (hne : records ≠ [])
    (hsamples : ∀ r ∈ records, IsSample lines buffers r)
    (hpair : records.Pairwise fun r q =>
      rank comptab (cstr (r.key.take keyLen)) < rank comptab (cstr (q.key.take keyLen)))
    {s : Bytes} (hs : NulFree s) :
    ∃ before rest before' rest', lines = before ++ rest ∧ buffers = before' ++ rest' ∧
      before'.length = before.length ∧
      chckPreIndex (records.map PreRecord.endTag) s false = some before'.flatten.length ∧
      ∀ q ∈ before, rank comptab q.tag < rank comptab s := by
  have hget : ∀ i (hi : i < records.length),
      (records.map PreRecord.endTag).getD i default = records[i].endTag := by
    intro i hi
    simp [hi]
  have hsign := fun r : PreRecord => strcmpBy_sign blankBelow_comptab.separatesNul
    (hs.take keyLen) (cstr_nulFree (r.key.take keyLen))
  have hd : BinarySearch.Descending (fun i => morphstrcmp (s.take keyLen)
      ((records.map PreRecord.endTag).getD i default).tagstring) records.length := by
    intro i j hij hj hle
    dsimp only at hle ⊢
    rw [hget i (hij.trans hj)] at hle
    rw [hget j hj]
    have hlt := List.pairwise_iff_getElem.mp hpair i j (hij.trans hj) hj hij
    apply (hsign records[j]).1.mpr
    rcases hle.lt_or_eq with hneg | hzero
    · exact ((hsign records[i]).1.mp hneg).trans hlt
    · exact ((hsign records[i]).2.mp hzero).trans_lt hlt
  obtain ⟨i, hlook, hi, hbound⟩ := binlook_inexact hd (List.length_pos_of_ne_nil hne)
  have hchck : chckPreIndex (records.map PreRecord.endTag) s false =
      some (if i = 0 then 0 else records[i].offset.toNat) := by
    rw [chckPreIndex]
    simp only [ite_self, List.length_map]
    rw [hlook, Option.map_some, hget i hi, PreRecord.endTag]
  rw [hchck]
  by_cases hzero : i = 0
  · exact ⟨[], lines, [], buffers, rfl, rfl, rfl, by simp [hzero], by simp⟩
  · obtain ⟨before, line, after, before', after', hl, hb, hlen', hkey, -, hoff, hbelow⟩ :=
      hsamples records[i] (List.getElem_mem hi)
    refine ⟨before, line :: after, before', after', hl, hb, hlen', ?_, ?_⟩
    · rw [if_neg hzero, hoff]
    · intro q hq
      have hnn := hbound.resolve_left hzero
      rw [hget i hi] at hnn
      have hle : rank comptab (cstr (records[i].key.take keyLen)) ≤
          rank comptab (s.take keyLen) := by
        apply not_lt.mp
        intro hlt
        exact absurd ((hsign records[i]).1.mpr hlt) hnn.not_gt
      have hlt := hbelow q hq
      rw [← hkey] at hlt
      have hlt := hlt.trans_le hle
      rw [rank_take, rank_take] at hlt
      exact Lexicographic.lt_of_take_lt hlt

section
variable {s : Bytes} {line : IndexLine} {buffer : Bytes}

private theorem compare_sign (hs : IsWord s) (hb : Buffered line buffer)
    (hwf : line.WellFormed) :
    (morphstrncmp s buffer s.length < 0 ↔
        rank comptab s < (rank comptab buffer).take (rank comptab s).length) ∧
      (morphstrncmp s buffer s.length = 0 ↔
        rank comptab s = (rank comptab buffer).take (rank comptab s).length) := by
  have hn := hb.nulFree hwf
  rw [morphstrncmp, strncmpBy_eq blankBelow_comptab.separatesNul _ hs.nulFree hn, List.take_length,
    rank_length, ← rank_take]
  exact strcmpBy_sign blankBelow_comptab.separatesNul hs.nulFree (hn.take _)

private theorem rank_buffer (hb : Buffered line buffer) :
    ∃ y, rank comptab buffer = rank comptab line.tag ++ 32 :: y := by
  obtain ⟨newline, -, rfl⟩ := hb.eq
  exact ⟨rank comptab (joinKeys line.keys ++ newline), by rw [rank_append, rank_cons]; rfl⟩

/-- The scan goes past a line with a smaller tag. -/
theorem compare_of_tag_lt (hs : IsWord s) (hb : Buffered line buffer) (hwf : line.WellFormed)
    (h : rank comptab line.tag < rank comptab s) : 0 < morphstrncmp s buffer s.length := by
  obtain ⟨y, hy⟩ := rank_buffer hb
  obtain ⟨hneg, hzero⟩ := compare_sign hs hb hwf
  have hlt := (Lexicographic.take_word_lt (y := y) (hs.lt_rank blankBelow_comptab)
    (hwf.word.lt_rank blankBelow_comptab)).1.mpr h
  rw [← hy] at hlt
  apply lt_of_not_ge
  intro hle
  rcases hle.lt_or_eq with hlt' | heq
  · exact hlt.not_gt (hneg.mp hlt')
  · exact hlt.ne (hzero.mp heq).symm

/-- The scan stops at the line of the tag. -/
theorem compare_of_tag_eq (hs : IsWord s) (hb : Buffered line buffer) (hwf : line.WellFormed)
    (h : rank comptab line.tag = rank comptab s) :
    morphstrncmp s buffer s.length = 0 ∧ s.length = line.tag.length := by
  obtain ⟨y, hy⟩ := rank_buffer hb
  have hlen : s.length = line.tag.length := by
    rw [← rank_length comptab, ← h, rank_length]
  refine ⟨(compare_sign hs hb hwf).2.mpr ?_, hlen⟩
  rw [hy, ← h, List.take_left]

/-- A line with a larger tag does not match. -/
theorem no_match_of_tag_gt (hs : IsWord s) (hb : Buffered line buffer) (hwf : line.WellFormed)
    (h : rank comptab s < rank comptab line.tag) :
    ¬(morphstrncmp s buffer s.length = 0 ∧ isSpace (buffer.getD s.length 0) = true) := by
  intro ⟨hzero, hspace⟩
  obtain ⟨y, hy⟩ := rank_buffer hb
  have htake := (compare_sign hs hb hwf).2.mp hzero
  rw [hy] at htake
  have hle := Lexicographic.length_le_of_take_eq (hs.lt_rank blankBelow_comptab) htake.symm
  have hne : (rank comptab s).length ≠ (rank comptab line.tag).length := by
    intro hlen
    rw [hlen, List.take_left] at htake
    exact h.ne htake
  rw [rank_length, rank_length] at hle hne
  obtain ⟨newline, -, rfl⟩ := hb.eq
  have hlt : s.length < line.tag.length := by omega
  have hget : (line.tag ++ 32 :: (joinKeys line.keys ++ newline)).getD s.length 0 =
      line.tag[s.length] := by
    simp [List.getElem?_append_left, hlt]
  rw [hget, not_isSpace_of_lt (hwf.word.2 _ (List.getElem_mem hlt))] at hspace
  exact absurd hspace (by decide)

/-- What the scan takes from the line of the tag. -/
theorem keys_of_match (hb : Buffered line buffer) (hwf : line.WellFormed)
    (hshort : line.text.length < longString) :
    isSpace (buffer.getD line.tag.length 0) = true ∧
      ∃ newline, (newline = [] ∨ newline = [10]) ∧
        xstrncpy ((buffer.drop line.tag.length).dropWhile isSpace) longString =
          joinKeys line.keys ++ newline := by
  obtain ⟨newline, hnewline, rfl⟩ := hb.eq
  have hblank : isSpace 32 = true := rfl
  obtain ⟨c, keys, hkeys, hc⟩ := hwf.begins
  refine ⟨by simp [hblank], newline, hnewline, ?_⟩
  have hdrop : ((line.tag ++ 32 :: (joinKeys line.keys ++ newline)).drop line.tag.length).dropWhile
      isSpace = joinKeys line.keys ++ newline := by
    rw [List.drop_left, List.dropWhile_cons_of_pos hblank, hkeys, List.cons_append,
      List.dropWhile_cons_of_neg (by simp [hc])]
  have hlen : newline.length ≤ 1 := by
    rcases hnewline with rfl | rfl <;> simp
  have htag := List.length_pos_of_ne_nil hwf.word.1
  rw [hdrop, xstrncpy, List.take_of_length_le]
  simp only [IndexLine.text, longString, List.length_append, List.length_cons] at hshort ⊢
  omega
end

/-- The scan finds the line of the tag. -/
theorem scanIndex_found {s : Bytes} (hs : IsWord s) {lines : List IndexLine}
    {buffers : List Bytes} (hbuffers : List.Forall₂ Buffered lines buffers)
    (hwf : ∀ l ∈ lines, l.WellFormed)
    (hasc : lines.Pairwise fun l m => rank comptab l.tag < rank comptab m.tag)
    {line : IndexLine} (hmem : line ∈ lines) (htag : rank comptab line.tag = rank comptab s)
    (hshort : line.text.length < longString) :
    ∃ newline, (newline = [] ∨ newline = [10]) ∧
      scanIndex s buffers = some (joinKeys line.keys ++ newline) := by
  induction hbuffers with
  | nil => simp at hmem
  | @cons first buffer rest rest' hb hrest ih =>
    have hwl := hwf first (by simp)
    obtain ⟨hfirst, hpair⟩ := List.pairwise_cons.mp hasc
    rcases List.mem_cons.mp hmem with rfl | hmem
    · obtain ⟨hzero, hlen⟩ := compare_of_tag_eq hs hb hwl htag
      obtain ⟨hspace, newline, hnewline, hkeys⟩ := keys_of_match hb hwl hshort
      refine ⟨newline, hnewline, ?_⟩
      rw [scanIndex, if_pos ⟨hzero, by rw [hlen]; exact hspace⟩, hlen, hkeys]
    · have hlt := hfirst line hmem
      rw [htag] at hlt
      have hpos := compare_of_tag_lt hs hb hwl hlt
      rw [scanIndex, if_neg (fun h => hpos.ne' h.1), if_neg hpos.not_gt]
      exact ih (fun l hl => hwf l (by simp [hl])) hpair hmem

/-- The scan finds nothing where no line has the tag. -/
theorem scanIndex_missing {s : Bytes} (hs : IsWord s) {lines : List IndexLine}
    {buffers : List Bytes} (hbuffers : List.Forall₂ Buffered lines buffers)
    (hwf : ∀ l ∈ lines, l.WellFormed) (hne : ∀ l ∈ lines, rank comptab l.tag ≠ rank comptab s) :
    scanIndex s buffers = none := by
  induction hbuffers with
  | nil => rfl
  | @cons first buffer rest rest' hb hrest ih =>
    have hwl := hwf first (by simp)
    have hnext := ih (fun l hl => hwf l (by simp [hl])) (fun l hl => hne l (by simp [hl]))
    have hno : ¬(morphstrncmp s buffer s.length = 0 ∧
        isSpace (buffer.getD s.length 0) = true) := by
      rcases lt_or_gt_of_ne (hne first (by simp)) with hlt | hgt
      · intro h
        exact (compare_of_tag_lt hs hb hwl hlt).ne' h.1
      · exact no_match_of_tag_gt hs hb hwl hgt
    rw [scanIndex, if_neg hno, hnext, ite_self]

end Morpheus
