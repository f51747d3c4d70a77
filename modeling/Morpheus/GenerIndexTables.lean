import Morpheus.GenerIndexBuilder

/-!
# The tables behind the payload

The rows of the four tables as lists that only grow, and the proof that the
writer's cursors fill the payload with exactly these rows.
-/
namespace Morpheus.GenerIndex
open Checked

structure LemmaRow where
  keyOffset : ℕ
  firstBlock : ℕ
  count : ℕ

structure BlockRow where
  firstRecord : ℕ
  count : ℕ

structure RecordRow where
  kind : RecordKind
  stemOffset : ℕ
  keysOffset : ℕ

def LemmaRow.bytes (row : LemmaRow) : Bytes :=
  leBytes 8 row.keyOffset ++ leBytes 8 row.firstBlock ++ leBytes 4 row.count ++ leBytes 4 0

def BlockRow.bytes (row : BlockRow) : Bytes :=
  leBytes 8 row.firstRecord ++ leBytes 4 row.count ++ leBytes 4 0

def RecordRow.bytes (row : RecordRow) : Bytes :=
  leBytes 4 row.kind.code ++ leBytes 4 0 ++ leBytes 8 row.stemOffset ++ leBytes 8 row.keysOffset

@[simp] theorem LemmaRow.bytes_length (row : LemmaRow) :
    row.bytes.length = lemmaEntrySize := by simp [LemmaRow.bytes, lemmaEntrySize]

@[simp] theorem BlockRow.bytes_length (row : BlockRow) :
    row.bytes.length = blockEntrySize := by simp [BlockRow.bytes, blockEntrySize]

@[simp] theorem RecordRow.bytes_length (row : RecordRow) :
    row.bytes.length = recordEntrySize := by simp [RecordRow.bytes, recordEntrySize]

structure Tables where
  lemmas : List LemmaRow
  blocks : List BlockRow
  records : List RecordRow
  strings : Bytes

namespace Tables

def empty : Tables := ⟨[], [], [], []⟩

def addRecord (t : Tables) (item : SourceRecord) : Tables :=
  { t with
    records := t.records ++ [⟨item.kind, t.strings.length,
      t.strings.length + (item.stem.length + 1)⟩]
    strings := t.strings ++ (item.stem ++ [0]) ++ (item.keys ++ [0]) }

def openBlock (t : Tables) (source : SourceBlock) : Tables :=
  { t with blocks := t.blocks ++ [⟨t.records.length, source.records.length⟩] }

def addBlock (t : Tables) (source : SourceBlock) : Tables :=
  source.records.foldl addRecord (t.openBlock source)

def openGroup (t : Tables) (group : Bytes × List SourceBlock) : Tables :=
  { t with
    lemmas := t.lemmas ++ [⟨t.strings.length, t.blocks.length, group.2.length⟩]
    strings := t.strings ++ (group.1 ++ [0]) }

def addGroup (t : Tables) (group : Bytes × List SourceBlock) : Tables :=
  group.2.foldl addBlock (t.openGroup group)

def addGroups (t : Tables) (groups : List (Bytes × List SourceBlock)) : Tables :=
  groups.foldl addGroup t

def lemmaBytes (t : Tables) : Bytes := t.lemmas.flatMap LemmaRow.bytes

def blockBytes (t : Tables) : Bytes := t.blocks.flatMap BlockRow.bytes

def recordBytes (t : Tables) : Bytes := t.records.flatMap RecordRow.bytes

def payload (t : Tables) : Bytes := t.lemmaBytes ++ t.blockBytes ++ t.recordBytes ++ t.strings

theorem lemmaBytes_length (t : Tables) :
    t.lemmaBytes.length = t.lemmas.length * lemmaEntrySize :=
  flatMap_length fun _ _ => LemmaRow.bytes_length _

theorem blockBytes_length (t : Tables) :
    t.blockBytes.length = t.blocks.length * blockEntrySize :=
  flatMap_length fun _ _ => BlockRow.bytes_length _

theorem recordBytes_length (t : Tables) :
    t.recordBytes.length = t.records.length * recordEntrySize :=
  flatMap_length fun _ _ => RecordRow.bytes_length _

/-- Tables only grow. -/
structure Extends (t final : Tables) : Prop where
  lemmas : t.lemmas <+: final.lemmas
  blocks : t.blocks <+: final.blocks
  records : t.records <+: final.records
  strings : t.strings <+: final.strings

theorem Extends.refl (t : Tables) : t.Extends t :=
  ⟨List.prefix_rfl, List.prefix_rfl, List.prefix_rfl, List.prefix_rfl⟩

theorem Extends.trans {t u v : Tables} (h : t.Extends u) (h' : u.Extends v) : t.Extends v :=
  ⟨h.1.trans h'.1, h.2.trans h'.2, h.3.trans h'.3, h.4.trans h'.4⟩

theorem Extends.foldl {α : Type} {f : Tables → α → Tables} (hf : ∀ (t : Tables) a, t.Extends (f t a))
    (t : Tables) (l : List α) : t.Extends (l.foldl f t) := by
  induction l generalizing t with
  | nil => exact Extends.refl t
  | cons a l ih => exact (hf t a).trans (ih _)

theorem extends_addRecord (t : Tables) (item : SourceRecord) : t.Extends (t.addRecord item) := by
  refine ⟨List.prefix_rfl, List.prefix_rfl, List.prefix_append .., ?_⟩
  rw [addRecord, List.append_assoc]
  exact List.prefix_append ..

theorem extends_openBlock (t : Tables) (source : SourceBlock) :
    t.Extends (t.openBlock source) := ⟨List.prefix_rfl, List.prefix_append .., List.prefix_rfl, List.prefix_rfl⟩

theorem extends_addBlock (t : Tables) (source : SourceBlock) : t.Extends (t.addBlock source) :=
  (t.extends_openBlock source).trans (.foldl extends_addRecord _ _)

theorem extends_openGroup (t : Tables) (group : Bytes × List SourceBlock) :
    t.Extends (t.openGroup group) :=
  ⟨List.prefix_append .., List.prefix_rfl, List.prefix_rfl, List.prefix_append ..⟩

theorem extends_addGroup (t : Tables) (group : Bytes × List SourceBlock) :
    t.Extends (t.addGroup group) :=
  (t.extends_openGroup group).trans (.foldl extends_addBlock _ _)

end Tables

theorem write_fill (before after : Bytes) {bs x : Bytes} {start size : ℕ}
    (hs : start = before.length + bs.length) (h : bs.length + x.length ≤ size) :
    write (before ++ fill bs size ++ after) start x =
      .ok (before ++ fill (bs ++ x) size ++ after) := by
  have := write_filled (before ++ bs) x after (n := size - bs.length) (by omega)
  simp only [List.length_append] at this
  simp only [fill, hs, ← List.append_assoc, this, List.length_append, Nat.sub_sub]

/-- The payload with the tables as far as they are written, in areas of their final sizes. -/
def partialPayload (final : Tables) (lemmas blocks records strings : Bytes) : Bytes :=
  fill lemmas final.lemmaBytes.length ++ fill blocks final.blockBytes.length ++
    fill records final.recordBytes.length ++ fill strings final.strings.length

section
variable {final : Tables} {l b r s x : Bytes} {start : ℕ}

theorem write_lemmas (hs : start = l.length) (h : l.length + x.length ≤ final.lemmaBytes.length) :
    write (partialPayload final l b r s) start x =
      .ok (partialPayload final (l ++ x) b r s) := by
  have := write_fill [] (fill b final.blockBytes.length ++
    fill r final.recordBytes.length ++ fill s final.strings.length) (by simpa using hs) h
  simpa [partialPayload, List.append_assoc] using this

theorem write_blocks (hl : l.length ≤ final.lemmaBytes.length)
    (hs : start = final.lemmaBytes.length + b.length)
    (h : b.length + x.length ≤ final.blockBytes.length) :
    write (partialPayload final l b r s) start x =
      .ok (partialPayload final l (b ++ x) r s) := by
  subst hs
  have := write_fill (fill l final.lemmaBytes.length)
    (fill r final.recordBytes.length ++ fill s final.strings.length)
    (by rw [fill_length hl]) h
  simpa [partialPayload, List.append_assoc] using this

theorem write_records (hl : l.length ≤ final.lemmaBytes.length)
    (hb : b.length ≤ final.blockBytes.length)
    (hs : start = final.lemmaBytes.length + final.blockBytes.length + r.length)
    (h : r.length + x.length ≤ final.recordBytes.length) :
    write (partialPayload final l b r s) start x =
      .ok (partialPayload final l b (r ++ x) s) :=
  write_fill (fill l final.lemmaBytes.length ++ fill b final.blockBytes.length) _
    (by rw [List.length_append, fill_length hl, fill_length hb]; exact hs) h

theorem write_strings (hl : l.length ≤ final.lemmaBytes.length)
    (hb : b.length ≤ final.blockBytes.length) (hr : r.length ≤ final.recordBytes.length)
    (hs : start = final.lemmaBytes.length + final.blockBytes.length +
      final.recordBytes.length + s.length)
    (h : s.length + x.length ≤ final.strings.length) :
    write (partialPayload final l b r s) start x =
      .ok (partialPayload final l b r (s ++ x)) := by
  subst hs
  have := write_fill (fill l final.lemmaBytes.length ++
    fill b final.blockBytes.length ++ fill r final.recordBytes.length) []
    (by rw [List.length_append, List.length_append, fill_length hl, fill_length hb,
      fill_length hr]) h
  simpa [partialPayload] using this

end

section
variable {final : Tables}

/-- The writer's state when the tables are written up to `t`, on the way to `final`. -/
def cursorsAt (final t : Tables) : Cursors where
  payload := partialPayload final t.lemmaBytes t.blockBytes t.recordBytes t.strings
  lemmaCursor := t.lemmaBytes.length
  blockCursor := final.lemmaBytes.length + t.blockBytes.length
  recordCursor := final.lemmaBytes.length + final.blockBytes.length + t.recordBytes.length
  stringCursor := final.lemmaBytes.length + final.blockBytes.length +
    final.recordBytes.length + t.strings.length
  firstRecord := t.records.length

/-- The layout of a finished payload. -/
def layoutOf (final : Tables) : Layout where
  lemmaSize := final.lemmaBytes.length
  stringBase := final.lemmaBytes.length + final.blockBytes.length + final.recordBytes.length

/-- The byte lengths of tables on the way to `final` stay within those of `final`. -/
structure Tables.Within (t final : Tables) : Prop where
  lemmas : t.lemmaBytes.length ≤ final.lemmaBytes.length
  blocks : t.blockBytes.length ≤ final.blockBytes.length
  records : t.recordBytes.length ≤ final.recordBytes.length
  strings : t.strings.length ≤ final.strings.length

theorem Tables.Extends.within {t : Tables} (h : t.Extends final) : t.Within final := by
  refine ⟨?_, ?_, ?_, h.strings.length_le⟩
  · simpa only [lemmaBytes_length] using Nat.mul_le_mul_right _ h.lemmas.length_le
  · simpa only [blockBytes_length] using Nat.mul_le_mul_right _ h.blocks.length_le
  · simpa only [recordBytes_length] using Nat.mul_le_mul_right _ h.records.length_le

theorem Tables.payload_length (t : Tables) : t.payload.length =
    t.lemmaBytes.length + t.blockBytes.length + t.recordBytes.length + t.strings.length := by
  simp [Tables.payload, Nat.add_assoc]

theorem zeroField : leBytes 4 0 = List.replicate 4 0 := rfl

theorem writeRecord_eq {t : Tables} {item : SourceRecord} (h : (t.addRecord item).Extends final)
    (hfit : final.payload.length ≤ sizeMax) :
    writeRecord (layoutOf final) (cursorsAt final t) item =
      .ok (cursorsAt final (t.addRecord item)) := by
  have hw := h.within
  obtain ⟨hl, hb, hr, hs⟩ := ((t.extends_addRecord item).trans h).within
  have hrec : (t.addRecord item).recordBytes = t.recordBytes ++ leBytes 4 item.kind.code ++
      leBytes 4 0 ++ leBytes 8 t.strings.length ++
      leBytes 8 (t.strings.length + (item.stem.length + 1)) := by
    simp [Tables.recordBytes, Tables.addRecord, RecordRow.bytes]
  have hstr : (t.addRecord item).strings =
      t.strings ++ (item.stem ++ [0]) ++ (item.keys ++ [0]) := rfl
  have h1 := hw.records
  have h2 := hw.strings
  rw [hrec] at h1
  rw [hstr] at h2
  simp only [List.length_append, leBytes_length, List.length_singleton] at h1 h2
  rw [Tables.payload_length] at hfit
  have hcount : t.recordBytes.length = t.records.length * 24 := t.recordBytes_length
  have h24 : recordEntrySize = 24 := rfl
  have hskip : partialPayload final t.lemmaBytes t.blockBytes
      (t.recordBytes ++ leBytes 4 item.kind.code) (t.addRecord item).strings =
      partialPayload final t.lemmaBytes t.blockBytes
        (t.recordBytes ++ leBytes 4 item.kind.code ++ leBytes 4 0) (t.addRecord item).strings := by
    rw [partialPayload, partialPayload, zeroField, fill_zeros (by simp; omega)]
  unfold writeRecord
  refine step_eq (sub_base _ _) ?_
  refine step_eq (write_strings hl hb hr rfl (by simp; omega)) ?_
  refine step_eq (add_base (by omega)) ?_
  refine step_eq (sub_base _ _) ?_
  refine step_eq (write_strings hl hb hr (by simp) (by simp; omega)) ?_
  refine step_eq (add_base (by omega)) ?_
  rw [← hstr]
  refine step_eq (write_records hl hb rfl (by simp; omega)) ?_
  rw [hskip]
  refine step_eq (write_records hl hb (by simp [cursorsAt]; omega) (by simp; omega)) ?_
  refine step_eq (write_records hl hb (by simp [cursorsAt]; omega) (by simp; omega)) ?_
  refine step_eq (add_base (by omega)) ?_
  refine step_eq (add_eq_ok (by simp [cursorsAt]; omega)) ?_
  rw [← hrec]
  have hlen : (t.addRecord item).recordBytes.length = t.recordBytes.length + recordEntrySize := by
    simp [hrec, h24]
  have hcur : cursorsAt final (t.addRecord item) =
      { cursorsAt final t with
        payload := partialPayload final t.lemmaBytes t.blockBytes
          (t.addRecord item).recordBytes (t.addRecord item).strings
        recordCursor := final.lemmaBytes.length + final.blockBytes.length +
          (t.recordBytes.length + recordEntrySize)
        stringCursor := final.lemmaBytes.length + final.blockBytes.length +
          final.recordBytes.length + (t.strings.length + (item.stem.length + 1) +
            (item.keys.length + 1))
        firstRecord := t.records.length + 1 } := by
    simp only [cursorsAt, hlen, Cursors.mk.injEq]
    simp [Tables.addRecord, Tables.lemmaBytes, Tables.blockBytes]
    omega
  exact congrArg Except.ok hcur.symm

/-- A loop of the writer follows the tables step by step. -/
theorem foldlM_eq {α : Type} {add : Tables → α → Tables} {put : Cursors → α → Checked Cursors}
    (hadd : ∀ (t : Tables) a, t.Extends (add t a)) {l : List α}
    (hput : ∀ (t : Tables), ∀ a ∈ l, (add t a).Extends final →
      put (cursorsAt final t) a = .ok (cursorsAt final (add t a)))
    {t : Tables} (h : (l.foldl add t).Extends final) :
    l.foldlM put (cursorsAt final t) = .ok (cursorsAt final (l.foldl add t)) := by
  induction l generalizing t with
  | nil => rfl
  | cons a l ih =>
    rw [List.foldlM_cons]
    have ha := (Tables.Extends.foldl hadd (add t a) l).trans h
    exact step_eq (hput t a (by simp) ha) (ih (fun t b hb => hput t b (by simp [hb])) h)

theorem writeBlock_eq {t : Tables} {source : SourceBlock} (hne : source.records ≠ [])
    (h : (t.addBlock source).Extends final) (hfit : final.payload.length ≤ sizeMax) :
    writeBlock (layoutOf final) (cursorsAt final t) source =
      .ok (cursorsAt final (t.addBlock source)) := by
  have hopen := (Tables.Extends.foldl Tables.extends_addRecord (t.openBlock source)
    source.records).trans h
  have hw := hopen.within.blocks
  have hl := ((t.extends_openBlock source).trans hopen).within.lemmas
  have hblk : (t.openBlock source).blockBytes = t.blockBytes ++ leBytes 8 t.records.length ++
      leBytes 4 source.records.length ++ leBytes 4 0 := by
    simp [Tables.blockBytes, Tables.openBlock, BlockRow.bytes]
  rw [hblk] at hw
  simp only [List.length_append, leBytes_length] at hw
  rw [Tables.payload_length] at hfit
  have h16 : blockEntrySize = 16 := rfl
  have hpad : partialPayload final t.lemmaBytes (t.openBlock source).blockBytes t.recordBytes
      t.strings = partialPayload final t.lemmaBytes (t.blockBytes ++ leBytes 8 t.records.length ++
        leBytes 4 source.records.length) t.recordBytes t.strings := by
    rw [hblk, partialPayload, zeroField, fill_zeros (by simp; omega), partialPayload]
  rw [writeBlock, if_neg hne]
  refine step_eq (write_blocks hl rfl (by simp; omega)) ?_
  refine step_eq (write_blocks hl (by simp [cursorsAt]; omega) (by simp; omega)) ?_
  refine step_eq (add_base (by omega)) ?_
  have hcur : cursorsAt final (t.openBlock source) =
      { cursorsAt final t with
        payload := partialPayload final t.lemmaBytes (t.blockBytes ++
          leBytes 8 t.records.length ++ leBytes 4 source.records.length) t.recordBytes t.strings
        blockCursor := final.lemmaBytes.length + (t.blockBytes.length + blockEntrySize) } := by
    have hlen : (t.openBlock source).blockBytes.length =
        t.blockBytes.length + blockEntrySize := by simp [hblk, h16]
    simp only [← hpad, cursorsAt, hlen]
    rfl
  have hrun := foldlM_eq Tables.extends_addRecord
    (fun u a _ hu => writeRecord_eq hu (by rwa [Tables.payload_length])) h
  rw [hcur] at hrun
  exact hrun

theorem writeGroup_eq {t : Tables} {group : Bytes × List SourceBlock}
    (hne : ∀ source ∈ group.2, source.records ≠ []) (hpos : group.2 ≠ [])
    (hcount : group.2.length ≤ uint32Max)
    (h : (t.addGroup group).Extends final) (hfit : final.payload.length ≤ sizeMax) :
    writeGroup (layoutOf final) (cursorsAt final t) group =
      .ok (cursorsAt final (t.addGroup group)) := by
  have hopen := (Tables.Extends.foldl Tables.extends_addBlock (t.openGroup group)
    group.2).trans h
  have hw := hopen.within
  obtain ⟨hl, hb, hr, hs⟩ := ((t.extends_openGroup group).trans hopen).within
  have hlem : (t.openGroup group).lemmaBytes = t.lemmaBytes ++ leBytes 8 t.strings.length ++
      leBytes 8 t.blocks.length ++ leBytes 4 group.2.length ++ leBytes 4 0 := by
    simp [Tables.lemmaBytes, Tables.openGroup, LemmaRow.bytes]
  have hstr : (t.openGroup group).strings = t.strings ++ (group.1 ++ [0]) := rfl
  have h1 := hw.lemmas
  have h2 := hw.strings
  rw [hlem] at h1
  rw [hstr] at h2
  simp only [List.length_append, leBytes_length, List.length_singleton] at h1 h2
  have hfit' := hfit
  rw [Tables.payload_length] at hfit'
  have h24 : lemmaEntrySize = 24 := rfl
  have hcountP : group.2.countP (fun block => block.records ≠ []) = group.2.length :=
    List.countP_eq_length.mpr fun b hb => by simpa using hne b hb
  have hfirst : t.blockBytes.length / blockEntrySize = t.blocks.length := by
    rw [Tables.blockBytes_length, Nat.mul_div_cancel _ (by norm_num [blockEntrySize])]
  have hpad : partialPayload final (t.openGroup group).lemmaBytes t.blockBytes t.recordBytes
      (t.openGroup group).strings = partialPayload final (t.lemmaBytes ++
        leBytes 8 t.strings.length ++ leBytes 8 t.blocks.length ++ leBytes 4 group.2.length)
        t.blockBytes t.recordBytes (t.openGroup group).strings := by
    rw [hlem, partialPayload, zeroField, fill_zeros (by simp; omega), partialPayload]
  unfold writeGroup
  simp only [hcountP]
  refine step_eq (a := ()) (require_eq_ok.mpr hcount) ?_
  rw [if_neg (by simpa using hpos)]
  refine step_eq (sub_base _ _) ?_
  refine step_eq (write_strings hl hb hr rfl (by simp; omega)) ?_
  refine step_eq (add_base (by omega)) ?_
  refine step_eq (write_lemmas rfl (by simp; omega)) ?_
  refine step_eq (sub_base _ _) ?_
  rw [hfirst]
  refine step_eq (write_lemmas (by simp [cursorsAt]) (by simp; omega)) ?_
  refine step_eq (write_lemmas (by simp [cursorsAt]) (by simp; omega)) ?_
  refine step_eq (add_eq_ok (by simp only [cursorsAt]; omega)) ?_
  have hcur : cursorsAt final (t.openGroup group) =
      { cursorsAt final t with
        payload := partialPayload final (t.lemmaBytes ++ leBytes 8 t.strings.length ++
          leBytes 8 t.blocks.length ++ leBytes 4 group.2.length) t.blockBytes t.recordBytes
          (t.openGroup group).strings
        lemmaCursor := t.lemmaBytes.length + lemmaEntrySize
        stringCursor := final.lemmaBytes.length + final.blockBytes.length +
          final.recordBytes.length + (t.strings.length + (group.1.length + 1)) } := by
    have hlen : (t.openGroup group).lemmaBytes.length =
        t.lemmaBytes.length + lemmaEntrySize := by simp [hlem, h24]
    simp only [← hpad, cursorsAt, hlen]
    rw [hstr, List.length_append, List.length_append, List.length_singleton]
    rfl
  have hrun := foldlM_eq Tables.extends_addBlock
    (fun u b hmem hu => writeBlock_eq (hne b hmem) hu hfit) h
  rw [hcur] at hrun
  exact hrun

end

end Morpheus.GenerIndex
