import Morpheus.GkString
import Morpheus.LittleEndian
import Morpheus.VaxWords

/-!
# Ending-table files

`endio.c`: a header with the width of the ending texts, then records of one size
with packed form bits, flag bytes and domain bytes. The group flag has no flag byte
in the file; it is kept in the second domain byte of a record without domains.
-/
namespace Morpheus

/-- `MORPH_VERSION` -/
def morphVersion : UInt32 := 44440001

/-- `LEGACY_GROUP_DOMAIN_MASK` -/
def legacyGroupDomainMask : Byte := 0o40

/-- A record in memory: its text buffer holds the text and, after the NUL, anything. -/
structure EndingSlot where
  gstr : GkString
  buffer : Bytes
  buffer_length : buffer.length = maxWordSize
  text : cstr buffer = gstr.gkstring
  deriving DecidableEq

/-- `valid_ending_io` -/
def validEndingIo (maxend : ℤ) : Bool := 0 < maxend && maxend ≤ maxWordSize

/-- `pack_word_form` -/
def packWordForm (form : WordForm) : BitVec 32 :=
  (form.voice.setWidth 32 &&& 0x07) |||
  ((form.mood.setWidth 32 &&& 0x0f) <<< 3) |||
  ((form.tense.setWidth 32 &&& 0x0f) <<< 7) |||
  ((form.person.setWidth 32 &&& 0x07) <<< 11) |||
  ((form.number.setWidth 32 &&& 0x07) <<< 14) |||
  ((form.case_.setWidth 32 &&& 0x3f) <<< 17) |||
  ((form.degree.setWidth 32 &&& 0x03) <<< 23) |||
  ((form.gender.setWidth 32 &&& 0x0f) <<< 25)

/-- `unpack_word_form` -/
def unpackWordForm (packed : BitVec 32) : WordForm where
  voice := (packed &&& 0x07).setWidth 3
  mood := ((packed >>> 3) &&& 0x0f).setWidth 4
  tense := ((packed >>> 7) &&& 0x0f).setWidth 4
  person := ((packed >>> 11) &&& 0x07).setWidth 3
  number := ((packed >>> 14) &&& 0x07).setWidth 3
  case_ := ((packed >>> 17) &&& 0x3f).setWidth 6
  degree := ((packed >>> 23) &&& 0x03).setWidth 2
  gender := ((packed >>> 25) &&& 0x0f).setWidth 4

/-- `localtrimwhite`: clear the first `n` bytes from the first NUL on. -/
def localtrimwhite : ℕ → Bool → Bytes → Bytes
  | 0, _, s => s
  | _ + 1, _, [] => []
  | n + 1, sdone, c :: s =>
    let sdone := sdone || c == 0
    (if sdone then 0 else c) :: localtrimwhite n sdone s

/-- The domain bytes `WriteEnding` stores: the group flag goes into the second one, and
a group name with domains is refused. -/
def storedDomains (gstr : GkString) : Option Bytes :=
  let domains := fill gstr.domains (maxDomains + 1)
  if isGroupName gstr.morphflags then
    if domains.getD 0 0 != 0 then none
    else some (domains.set 1 (domains.getD 1 0 ||| legacyGroupDomainMask))
  else some domains

/-- `WriteEnding`: the bytes appended to the file, nothing when it returns -1. -/
def writeEnding (maxend : ℤ) (slot : EndingSlot) : Option Bytes :=
  if !validEndingIo maxend then none
  else do
    let storedDomains ← storedDomains slot.gstr
    some <|
      (localtrimwhite maxend.toNat false slot.buffer).take maxend.toNat ++
      (putInt32 ⟨packWordForm slot.gstr.forminfo⟩ ++
      (putShort slot.gstr.dialect ++
      (putInt32 slot.gstr.geogregion ++
      (putInt32 slot.gstr.stemtype ++
      (putInt32 slot.gstr.derivtype ++
      ((List.ofFn slot.gstr.morphflags).take morphflagBytes ++
      storedDomains))))))

/-- The flag and domain part of `ReadEnding`. -/
def decodeFlags (flags domains : Bytes) : MorphFlags × Bytes :=
  -- bytes past `MORPHFLAG_BYTES` are cleared
  let morphflags : MorphFlags := fun i => flags.getD i 0
  if domains.getD 0 0 == 0 && domains.getD 1 0 &&& legacyGroupDomainMask != 0 then
    (addMorphflag morphflags groupName,
      cstr (domains.set 1 (domains.getD 1 0 &&& ~~~legacyGroupDomainMask)))
  else (morphflags, cstr domains)

/-- A word of a record; at the end of the file `vax_fread` returns 0. -/
def readWord {α : Type} (get : Reader (Option α)) : Reader α := do
  match ← get with
  | none => throw 0
  | some value => pure value

/-- `ReadEnding`: the record, or the code returned instead. -/
def readEnding (maxend : ℤ) : Reader GkString := do
  if !validEndingIo maxend then throw (-1)
  let text ← fread maxend.toNat
  if text = [] then throw 0
  if (text.length : ℤ) ≠ maxend then throw (-1)
  let storedForm ← readWord getInt32
  let dialect ← readWord getShort
  let geogregion ← readWord getInt32
  let stemtype ← readWord getInt32
  let derivtype ← readWord getInt32
  let flags ← fread morphflagBytes
  if flags.length ≠ morphflagBytes then throw (flags.length : ℤ)
  let domains ← fread (maxDomains + 1)
  if domains.length ≠ maxDomains + 1 then throw (domains.length : ℤ)
  let (morphflags, domains) := decodeFlags flags domains
  pure {
    forminfo := unpackWordForm storedForm.toBitVec
    stemtype, derivtype, dialect, geogregion, morphflags, domains
    gkstring := cstr text }

/-- `set_endheader`: the bytes appended to the file, nothing when it returns -1. -/
def setEndheader (maxstring : ℤ) : Option Bytes :=
  if maxstring ≤ 0 ∨ maxstring > maxWordSize then none
  else some (putInt32 morphVersion ++ putInt32 (UInt32.ofNat maxstring.toNat))

/-- The bytes of the header. -/
def headerSize : ℕ := 4 + 4

/-- The bytes of a record beside its text. -/
def fixedSize : ℕ := 4 + 4 + 2 + 4 + 4 + morphflagBytes + (maxDomains + 1)

/-- `get_endheader`: the return value and `*maxp`. -/
def getEndheader : Reader (ℤ × ℤ) := do
  match ← getInt32 with
  | none => return (-1, 0)
  | some version =>
    if version ≠ morphVersion then return (-1, 0)
    match ← getInt32 with
    | none => return (-1, 0)
    | some len =>
      if len = 0 ∨ len.toNat > maxWordSize then return (-1, 0)
      let maxp := len.toNat
      let filelen ← fileLength
      if filelen < headerSize then return (-1, maxp)
      let payloadSize := filelen - headerSize
      let unitsize := fixedSize + maxp
      let nendings := payloadSize / unitsize
      if nendings > intMax then return (-1, maxp)
      if payloadSize % unitsize ≠ 0 then return (0, maxp)
      return (nendings, maxp)

/-- A table file: the header and the records, one after the other. -/
def writeTable (maxend : ℤ) (slots : List EndingSlot) : Option Bytes := do
  let header ← setEndheader maxend
  let records ← slots.mapM (writeEnding maxend)
  pure (header ++ records.flatten)

/-- The header of a table file and `n` records. -/
def readTable (n : ℕ) : Reader (ℤ × ℤ × List GkString) := do
  let (count, maxend) ← getEndheader
  let records ← Reads.times (readEnding maxend) n
  pure (count, maxend, records)

/-- The records the writer is for: a text that fits, no flag without a place in the
file, domains from `add_domain`, and no domains beside the group flag. -/
structure Writable (maxend : ℤ) (gstr : GkString) : Prop where
  text_le : (gstr.gkstring.length : ℤ) ≤ maxend
  text_lt : gstr.gkstring.length < maxWordSize
  flags : ∀ n, hasMorphflag gstr.morphflags n → n ≤ 8 * morphflagBytes ∨ n = groupName
  domains : ∃ ns, gstr.domains = addDomains [] ns
  group : isGroupName gstr.morphflags → gstr.domains = []

@[simp] theorem unpackWordForm_packWordForm (form : WordForm) :
    unpackWordForm (packWordForm form) = form := by
  obtain ⟨voice, mood, tense, person, number, case_, degree, gender⟩ := form
  simp only [unpackWordForm, WordForm.mk.injEq]
  refine ⟨?_, ?_, ?_, ?_, ?_, ?_, ?_, ?_⟩ <;>
    · apply BitVec.eq_of_getLsbD_eq
      intro i hi
      interval_cases i <;> simp [packWordForm]

theorem localtrimwhite_done (n : ℕ) (s : Bytes) :
    (localtrimwhite n true s).take n = (List.replicate n 0).take s.length := by
  induction n generalizing s with
  | zero => simp
  | succ n ih =>
    cases s with
    | nil => simp [localtrimwhite]
    | cons c s => simpa [localtrimwhite, List.replicate_succ] using ih s

/-- What is written of a text buffer is the text and zeros. -/
theorem localtrimwhite_take {n : ℕ} {s : Bytes} (hn : n ≤ s.length)
    (ht : (cstr s).length ≤ n) : (localtrimwhite n false s).take n = fill (cstr s) n := by
  induction n generalizing s with
  | zero =>
    have : cstr s = [] := List.length_eq_zero_iff.mp (by omega)
    simp [fill, this]
  | succ n ih =>
    cases s with
    | nil => simp at hn
    | cons c s =>
      by_cases hc : c = 0
      · have hz := localtrimwhite_done n s
        have hmin : min s.length n = n := by
          simp only [List.length_cons] at hn
          omega
        simp [localtrimwhite, hc, hz, cstr, fill, List.replicate_succ, List.take_replicate, hmin]
      · have hcons : cstr (c :: s) = c :: cstr s := by simp [cstr, hc]
        have h := ih (s := s) (by simpa using hn) (by simpa [hcons] using ht)
        have hb : (c == 0) = false := by simpa using hc
        simp [localtrimwhite, hb, hcons, h, fill]

/-- The flags a record gets from its flag bytes in the file. -/
def fileFlags (Mf : MorphFlags) : MorphFlags :=
  fun i => ((List.ofFn Mf).take morphflagBytes).getD i 0

theorem fileFlags_apply (Mf : MorphFlags) (i : Fin 14) :
    fileFlags Mf i = if (i : ℕ) < morphflagBytes then Mf i else 0 := by
  simp only [fileFlags, List.getD_eq_getElem?_getD, List.getElem?_take]
  split
  · simp only [List.getElem?_ofFn, Fin.is_lt, ↓reduceDIte, Option.getD_some, Fin.eta]
  · rfl

theorem flagAt_fileFlags (Mf : MorphFlags) (k : ℕ) :
    flagAt (fileFlags Mf) k = (flagAt Mf k && decide (k < 8 * morphflagBytes)) := by
  by_cases hk : k < 112
  · have hdiv : k / 8 < morphflagBytes ↔ k < 8 * morphflagBytes := by
      simp only [morphflagBytes]
      omega
    simp only [flagAt, hk, ↓reduceDIte, fileFlags_apply, hdiv]
    split <;> rename_i h <;> simp [h]
  · simp [flagAt_of_ge _ hk]

section
variable {maxend : ℤ} {gstr : GkString}

theorem Writable.domainSet (h : Writable maxend gstr) : DomainSet gstr.domains := by
  obtain ⟨ns, hns⟩ := h.domains
  rw [hns]
  exact domainSet_nil.addDomains ns

/-- Without the group flag every flag has its bit in the file. -/
theorem Writable.fileFlags_eq (h : Writable maxend gstr) (hg : isGroupName gstr.morphflags = false) :
    fileFlags gstr.morphflags = gstr.morphflags := by
  apply morphFlags_ext
  intro k hk
  rw [flagAt_fileFlags]
  cases hbit : flagAt gstr.morphflags k with
  | false => simp
  | true =>
    have hflag := h.flags (k + 1) (by rw [hasMorphflag_succ, hbit])
    have hne : k + 1 ≠ groupName := by
      intro he
      rw [isGroupName, ← he, hasMorphflag_succ, hbit] at hg
      exact Bool.noConfusion hg
    simp only [groupName, morphflagBytes] at hflag hne ⊢
    simp
    omega

/-- With the group flag the reader adds the one flag that has no bit. -/
theorem Writable.addGroup_eq (h : Writable maxend gstr) (hg : isGroupName gstr.morphflags = true) :
    addMorphflag (fileFlags gstr.morphflags) groupName = gstr.morphflags := by
  have hbit : flagAt gstr.morphflags 109 = true := by rwa [← hasMorphflag_succ]
  apply morphFlags_ext
  intro k hk
  rw [flagAt_addMorphflag _ (by norm_num), flagAt_fileFlags]
  by_cases hk9 : k = 109
  · simp [hk9, hbit]
  · cases hb : flagAt gstr.morphflags k with
    | false => simp [hk9]
    | true =>
      have hflag := h.flags (k + 1) (by rw [hasMorphflag_succ, hb])
      simp only [groupName, morphflagBytes] at hflag ⊢
      simp
      omega

/-- The domain bytes in the file are read back as the flags and domains of the record. -/
theorem Writable.storedDomains_decode (h : Writable maxend gstr) :
    ∃ stored, storedDomains gstr = some stored ∧ stored.length = maxDomains + 1 ∧
      decodeFlags ((List.ofFn gstr.morphflags).take morphflagBytes) stored =
        (gstr.morphflags, gstr.domains) := by
  have hset := h.domainSet
  have hlen : (fill gstr.domains (maxDomains + 1)).length = maxDomains + 1 :=
    fill_length (hset.fits.trans (Nat.le_succ _))
  cases hg : isGroupName gstr.morphflags with
  | true =>
    have hdom := h.group hg
    refine ⟨(fill [] (maxDomains + 1)).set 1 legacyGroupDomainMask, ?_, ?_, ?_⟩
    · simp only [storedDomains, hg, hdom, ↓reduceIte]
      rfl
    · rw [List.length_set, ← hdom, hlen]
    · have hflags := h.addGroup_eq hg
      have hcond : (((fill [] (maxDomains + 1)).set 1 legacyGroupDomainMask).getD 0 0 == 0 &&
          ((fill [] (maxDomains + 1)).set 1 legacyGroupDomainMask).getD 1 0 &&&
            legacyGroupDomainMask != 0) = true := by decide
      have htext : cstr (((fill [] (maxDomains + 1)).set 1 legacyGroupDomainMask).set 1
          (((fill [] (maxDomains + 1)).set 1 legacyGroupDomainMask).getD 1 0 &&&
            ~~~legacyGroupDomainMask)) = [] := by decide
      simp only [decodeFlags, hcond, ↓reduceIte, htext, hdom]
      exact Prod.ext hflags rfl
  | false =>
    refine ⟨fill gstr.domains (maxDomains + 1), by simp [storedDomains, hg], hlen, ?_⟩
    have hcond : ((fill gstr.domains (maxDomains + 1)).getD 0 0 == 0 &&
        (fill gstr.domains (maxDomains + 1)).getD 1 0 &&& legacyGroupDomainMask != 0) = false := by
      cases hd : gstr.domains with
      | nil => decide
      | cons d ds =>
        have hne : d ≠ 0 := (nulFree_cons.mp (hd ▸ hset.nulFree)).1
        simp [fill, hne]
    simp only [decodeFlags, hcond, Bool.false_eq_true, ↓reduceIte, cstr_fill hset.nulFree]
    exact Prod.ext (h.fileFlags_eq hg) rfl

end

theorem readWord_reads {α : Type} {get : Reader (Option α)} {bs : Bytes} {a : α}
    (h : Reads get bs (some a)) : Reads (readWord get) bs a :=
  h.bind_pure rfl

/-- A written record is read back, and nothing after it is touched. -/
theorem writeEnding_reads {maxend : ℤ} {slot : EndingSlot} (hv : validEndingIo maxend = true)
    (h : Writable maxend slot.gstr) :
    ∃ bs, writeEnding maxend slot = some bs ∧ bs.length = fixedSize + maxend.toNat ∧
      Reads (readEnding maxend) bs slot.gstr := by
  obtain ⟨stored, hstored, hslen, hdecode⟩ := h.storedDomains_decode
  have hbounds : 0 < maxend ∧ maxend ≤ maxWordSize := by simpa [validEndingIo] using hv
  have htext := h.text_le
  rw [← slot.text] at htext
  have htrim : (localtrimwhite maxend.toNat false slot.buffer).take maxend.toNat =
      fill slot.gstr.gkstring maxend.toNat := by
    rw [localtrimwhite_take (by rw [slot.buffer_length]; omega) (by omega), slot.text]
  have hwidth : (fill slot.gstr.gkstring maxend.toNat).length = maxend.toNat :=
    fill_length (by rw [← slot.text]; omega)
  have hflen : ((List.ofFn slot.gstr.morphflags).take morphflagBytes).length = morphflagBytes := by
    simp
  refine ⟨_, by simp only [writeEnding, hv, hstored, htrim]; rfl, ?_, ?_⟩
  · simp only [List.length_append, hwidth, putInt32_length, putShort_length, hflen, hslen,
      fixedSize]
    omega
  · have hne : fill slot.gstr.gkstring maxend.toNat ≠ [] := by
      intro h0
      rw [h0, List.length_nil] at hwidth
      omega
    have hint : ((fill slot.gstr.gkstring maxend.toNat).length : ℤ) = maxend := by
      rw [hwidth]
      omega
    have hfree : NulFree slot.gstr.gkstring := slot.text ▸ cstr_nulFree slot.buffer
    simp only [readEnding, hv, Bool.not_true, Bool.false_eq_true, ↓reduceIte]
    apply (Reads.fread hwidth).bind
    simp only [hne, hint, ne_eq, not_true, ↓reduceIte]
    apply (readWord_reads (getInt32_reads _)).bind
    apply (readWord_reads (getShort_reads _)).bind
    apply (readWord_reads (getInt32_reads _)).bind
    apply (readWord_reads (getInt32_reads _)).bind
    apply (readWord_reads (getInt32_reads _)).bind
    apply (Reads.fread hflen).bind
    simp only [hflen, not_true, ↓reduceIte]
    apply (Reads.fread hslen).bind_pure
    simp only [hslen, not_true, ↓reduceIte, hdecode, cstr_fill hfree,
      unpackWordForm_packWordForm]

/-- The records of a table, written one after the other, are read back by as many calls. -/
theorem writeEndings_reads {maxend : ℤ} {slots : List EndingSlot}
    (hv : validEndingIo maxend = true) (h : ∀ slot ∈ slots, Writable maxend slot.gstr) :
    ∃ records, slots.mapM (writeEnding maxend) = some records ∧
      records.flatten.length = slots.length * (fixedSize + maxend.toNat) ∧
      Reads (Reads.times (readEnding maxend) slots.length) records.flatten
        (slots.map (·.gstr)) := by
  induction slots with
  | nil => exact ⟨[], rfl, by simp, Reads.pure []⟩
  | cons slot slots ih =>
    obtain ⟨bs, hw, hlen, hread⟩ := writeEnding_reads hv (h slot (by simp))
    obtain ⟨records, hws, hlens, hreads⟩ := ih fun s hs => h s (by simp [hs])
    refine ⟨bs :: records, ?_, ?_, ?_⟩
    · simp [hw, hws]
    · simp only [List.flatten_cons, List.length_append, hlen, hlens, List.length_cons]
      ring
    · exact hread.bind (hreads.bind_pure rfl)

/-- The header of a file tells the width and the number of whole records. -/
theorem getEndheader_setEndheader {maxend : ℤ} {header : Bytes} (payload : Bytes)
    (hv : validEndingIo maxend = true) (hset : setEndheader maxend = some header) :
    getEndheader (.openFile (header ++ payload)) =
      .ok (if payload.length / (fixedSize + maxend.toNat) > intMax then -1
        else if payload.length % (fixedSize + maxend.toNat) ≠ 0 then 0
        else ((payload.length / (fixedSize + maxend.toNat) : ℕ) : ℤ), maxend)
        ⟨header, payload⟩ := by
  have hbounds : 0 < maxend ∧ maxend ≤ maxWordSize := by simpa [validEndingIo] using hv
  have hwidth : maxend.toNat ≤ 60 := by
    have := hbounds.2
    simp only [maxWordSize] at this
    omega
  have hlen : (UInt32.ofNat maxend.toNat).toNat = maxend.toNat := by
    simp
    omega
  have hne : UInt32.ofNat maxend.toNat ≠ 0 := by
    intro h0
    rw [h0] at hlen
    simp at hlen
    omega
  have hno : ¬ (maxend ≤ 0 ∨ maxend > maxWordSize) := by omega
  simp only [setEndheader, hno, ↓reduceIte, Option.some.injEq] at hset
  subst hset
  simp only [getEndheader, Stream.openFile, List.append_assoc]
  rw [(getInt32_reads _).run_bind]
  simp only [ne_eq, not_true, ↓reduceIte]
  rw [(getInt32_reads _).run_bind]
  have hroom : ¬ (UInt32.ofNat maxend.toNat = 0 ∨
      (UInt32.ofNat maxend.toNat).toNat > maxWordSize) := by
    rw [hlen]
    simp only [hne, false_or, maxWordSize, not_lt]
    exact hwidth
  have hint : (maxend.toNat : ℤ) = maxend := by omega
  simp only [hroom, ↓reduceIte]
  rw [fileLength_bind]
  have htotal : (putInt32 morphVersion ++ putInt32 (UInt32.ofNat maxend.toNat)).length =
      headerSize := by simp [headerSize]
  have hlong : ¬ headerSize + payload.length < headerSize := by omega
  simp only [List.nil_append, htotal, hlong, ↓reduceIte, Nat.add_sub_cancel_left, hlen, hint]
  split
  · rfl
  · split <;> rfl

/-- A written table: the header counts its records as far as an `int` can, and the calls
of `ReadEnding` after it return them. -/
theorem writeTable_reads {maxend : ℤ} {slots : List EndingSlot}
    (hv : validEndingIo maxend = true) (hw : ∀ slot ∈ slots, Writable maxend slot.gstr) :
    ∃ header payload, writeTable maxend slots = some (header ++ payload) ∧
      getEndheader (.openFile (header ++ payload)) =
        .ok (if slots.length > intMax then -1 else (slots.length : ℤ), maxend)
          ⟨header, payload⟩ ∧
      Reads (Reads.times (readEnding maxend) slots.length) payload (slots.map (·.gstr)) := by
  have hbounds : 0 < maxend ∧ maxend ≤ maxWordSize := by simpa [validEndingIo] using hv
  obtain ⟨records, hrecords, hlen, hreads⟩ := writeEndings_reads hv hw
  obtain ⟨header, hset⟩ : ∃ header, setEndheader maxend = some header := by
    simp only [setEndheader]
    rw [if_neg (by omega)]
    exact ⟨_, rfl⟩
  refine ⟨header, records.flatten, by simp [writeTable, hset, hrecords], ?_, hreads⟩
  have hpos : 0 < fixedSize + maxend.toNat := by simp [fixedSize]
  have h := getEndheader_setEndheader records.flatten hv hset
  rw [hlen, Nat.mul_div_cancel _ hpos, Nat.mul_mod_left] at h
  simpa using h

/-- Up to `INT_MAX` records, a table file gives back its count, its width and its records
in order, and reading them consumes the file. -/
theorem endingTable_roundTrip (maxend : ℤ) (hv : 0 < maxend ∧ maxend ≤ maxWordSize)
    (slots : List EndingSlot) (hw : ∀ slot ∈ slots, Writable maxend slot.gstr)
    (hn : slots.length ≤ intMax) :
    ∃ file, writeTable maxend slots = some file ∧
      readTable slots.length (.openFile file) =
        .ok (slots.length, maxend, slots.map (·.gstr)) (.atEnd file) := by
  have hvalid : validEndingIo maxend = true := by simpa [validEndingIo] using hv
  obtain ⟨header, payload, hwrite, hhead, hreads⟩ := writeTable_reads hvalid hw
  refine ⟨header ++ payload, hwrite, ?_⟩
  have hrest := hreads header []
  rw [List.append_nil] at hrest
  simp only [readTable, Bind.bind, EStateM.bind, hhead, hrest]
  rw [if_neg (by omega)]
  rfl

/-- Past `INT_MAX` records the header of a written table is refused. -/
theorem writeTable_tooMany {maxend : ℤ} {slots : List EndingSlot}
    (hv : validEndingIo maxend = true) (hw : ∀ slot ∈ slots, Writable maxend slot.gstr)
    (hn : slots.length > intMax) :
    ¬ ∃ file, writeTable maxend slots = some file ∧
      readTable slots.length (.openFile file) =
        .ok (slots.length, maxend, slots.map (·.gstr)) (.atEnd file) := by
  rintro ⟨file, hfile, hread⟩
  obtain ⟨header, payload, hwrite, hhead, hreads⟩ := writeTable_reads hv hw
  rw [hwrite, Option.some.injEq] at hfile
  subst hfile
  have hrest := hreads header []
  rw [List.append_nil] at hrest
  simp only [readTable, Bind.bind, EStateM.bind, hhead, hrest, hn, ↓reduceIte, Pure.pure,
    EStateM.pure, EStateM.Result.ok.injEq, Prod.mk.injEq] at hread
  omega

/-- A record with the group flag. -/
def groupEnding : GkString :=
  { GkString.zero with
    forminfo := { WordForm.zero with voice := 1, gender := 2 }
    morphflags := addMorphflag (fun _ => 0) groupName
    gkstring := ascii "ous" }

/-- A record with a flag byte and two domains, in a buffer with the end of an older text. -/
def domainEnding : GkString :=
  { GkString.zero with
    stemtype := 0x10203
    morphflags := addMorphflag (fun _ => 0) 96
    domains := addDomains [] [7, 200]
    gkstring := ascii "w" }

def groupSlot : EndingSlot :=
  ⟨groupEnding, ascii "ous" ++ List.replicate 57 0, by decide, by decide⟩

def domainSlot : EndingSlot :=
  ⟨domainEnding, ascii "w" ++ 0 :: ascii "old" ++ List.replicate 55 0, by decide, by decide⟩

private theorem flags_of_bits {Mf : MorphFlags}
    (h : ∀ k < 112, flagAt Mf k = true → k < 96 ∨ k = 109) :
    ∀ n, hasMorphflag Mf n → n ≤ 8 * morphflagBytes ∨ n = groupName := by
  intro n hn
  cases n with
  | zero => exact Or.inl (Nat.zero_le _)
  | succ k =>
    rw [hasMorphflag_succ] at hn
    by_cases hk : k < 112
    · have := h k hk hn
      simp only [morphflagBytes, groupName]
      omega
    · simp [flagAt_of_ge _ hk] at hn

theorem writable_groupEnding : Writable 4 groupEnding where
  text_le := by decide
  text_lt := by decide
  flags := flags_of_bits (by decide)
  domains := ⟨[], rfl⟩
  group := fun _ => rfl

theorem writable_domainEnding : Writable 4 domainEnding where
  text_le := by decide
  text_lt := by decide
  flags := flags_of_bits (by decide)
  domains := ⟨[7, 200], rfl⟩
  group := by decide

theorem endingTable_roundTrip_sample :
    ∃ file, writeTable 4 [groupSlot, domainSlot] = some file ∧
      readTable 2 (.openFile file) =
        .ok (2, 4, [groupEnding, domainEnding]) (.atEnd file) := by
  apply endingTable_roundTrip 4 (by decide) [groupSlot, domainSlot]
  · intro slot hslot
    rcases List.mem_cons.mp hslot with rfl | hslot
    · exact writable_groupEnding
    · rw [List.mem_singleton.mp hslot]
      exact writable_domainEnding
  · decide

/-- One record more than an `int` counts: every record is written, but the header is refused. -/
theorem endingTable_tooMany :
    (∀ slot ∈ List.replicate (intMax + 1) groupSlot, Writable 4 slot.gstr) ∧
      ¬ ∃ file, writeTable 4 (List.replicate (intMax + 1) groupSlot) = some file ∧
        readTable (List.replicate (intMax + 1) groupSlot).length (.openFile file) =
          .ok ((List.replicate (intMax + 1) groupSlot).length, 4,
            (List.replicate (intMax + 1) groupSlot).map (·.gstr)) (.atEnd file) := by
  have hw : ∀ slot ∈ List.replicate (intMax + 1) groupSlot, Writable 4 slot.gstr := by
    intro slot hslot
    rw [List.eq_of_mem_replicate hslot]
    exact writable_groupEnding
  have hlen : (List.replicate (intMax + 1) groupSlot).length > intMax := by
    rw [List.length_replicate]
    exact Nat.lt_succ_self intMax
  exact ⟨hw, writeTable_tooMany (by decide) hw hlen⟩

end Morpheus
