import Morpheus.Generate

/-!
# Dialects of generated forms

The dialect that `effective_dialect` reports for a form, from the sets of its parts, and what the
filter of a request for one dialect makes of it. To the filter an empty set is no restriction.
-/
namespace Morpheus

section Sets
variable {x y bit : UInt32}

/-- A mask of one bit. -/
def IsBit (bit : UInt32) : Prop := ∃ i < 32, bit.toBitVec = BitVec.twoPow 32 i

theorem and_ne_zero_iff : x &&& y ≠ 0 ↔
    ∃ i, x.toBitVec.getLsbD i = true ∧ y.toBitVec.getLsbD i = true := by
  constructor
  · intro h
    by_contra hnone
    push Not at hnone
    apply h
    rw [← UInt32.toBitVec_inj, UInt32.toBitVec_and]
    apply BitVec.eq_of_getLsbD_eq
    intro i _
    rw [BitVec.getLsbD_and]
    cases hx : x.toBitVec.getLsbD i with
    | false => simp
    | true => simpa using hnone i hx
  · rintro ⟨i, hx, hy⟩ h
    have hi := congrArg (fun z => z.toBitVec.getLsbD i) h
    simp [hx, hy] at hi

theorem and_bit_iff {i : ℕ} (hi : i < 32) (hbit : bit.toBitVec = BitVec.twoPow 32 i) :
    x &&& bit ≠ 0 ↔ x.toBitVec.getLsbD i = true := by
  rw [and_ne_zero_iff, hbit]
  simp [BitVec.getLsbD_twoPow, hi]

theorem and_and_bit (hbit : IsBit bit) : x &&& y &&& bit ≠ 0 ↔ x &&& bit ≠ 0 ∧ y &&& bit ≠ 0 := by
  obtain ⟨i, hi, hbit⟩ := hbit
  rw [and_bit_iff hi hbit, and_bit_iff hi hbit, and_bit_iff hi hbit, UInt32.toBitVec_and,
    BitVec.getLsbD_and, Bool.and_eq_true]

theorem or_and_ne_zero : (x ||| y) &&& bit ≠ 0 ↔ x &&& bit ≠ 0 ∨ y &&& bit ≠ 0 := by
  simp only [and_ne_zero_iff, UInt32.toBitVec_or, BitVec.getLsbD_or, Bool.or_eq_true, or_and_right,
    exists_or]

theorem ne_zero_iff_bit : x ≠ 0 ↔ ∃ bit, IsBit bit ∧ x &&& bit ≠ 0 := by
  constructor
  · intro h
    rw [← UInt32.and_self (a := x), and_ne_zero_iff] at h
    obtain ⟨i, hx, -⟩ := h
    have hi := BitVec.lt_of_getLsbD hx
    exact ⟨⟨BitVec.twoPow 32 i⟩, ⟨i, hi, rfl⟩, (and_bit_iff hi rfl).mpr hx⟩
  · rintro ⟨bit, -, hbit⟩ rfl
    exact hbit (UInt32.zero_and ..)

end Sets

section Dialects
variable {form : GkWord} {bit : UInt32}

/-- The dialects of the preverb, augment, stem and ending of a form, and its own. -/
def dialectParts (form : GkWord) : List UInt16 :=
  [form.preverb.dialect, form.aug1.dialect, form.stem.dialect, form.endstring.dialect, form.dialect]

/-- A form, or a part of it, is marked for a dialect. -/
def MarkedFor (form : GkWord) (bit : UInt32) : Prop :=
  ∃ dialect ∈ dialectParts form, dialect.toUInt32 &&& bit ≠ 0

/-- A form, or a part of it, is marked for any dialects. -/
def DialectMarked (form : GkWord) : Prop := ∃ dialect ∈ dialectParts form, dialect ≠ 0

/-- A dialect that stem and ending have in common, or one of any part where they have none in common,
that the augment and the form are not marked against. -/
structure DialectCarried (form : GkWord) (bit : UInt32) : Prop where
  parts : form.stem.dialect.toUInt32 &&& bit ≠ 0 ∧ form.endstring.dialect.toUInt32 &&& bit ≠ 0 ∨
    form.stem.dialect &&& form.endstring.dialect = 0 ∧
      ∃ part ∈ [form.preverb, form.aug1, form.stem, form.endstring], part.dialect.toUInt32 &&& bit ≠ 0
  augment : form.aug1.dialect = 0 ∨ form.aug1.dialect.toUInt32 &&& bit ≠ 0
  constraint : form.dialect = 0 ∨ form.dialect.toUInt32 &&& bit ≠ 0

theorem toUInt32_eq_zero {d : UInt16} : d.toUInt32 = 0 ↔ d = 0 := by
  rw [← UInt32.toNat_inj, ← UInt16.toNat_inj, UInt16.toNat_toUInt32]
  rfl

theorem effectiveDialect_bit (hbit : IsBit bit) :
    effectiveDialect form &&& bit ≠ 0 ↔ DialectCarried form bit := by
  have hshared : form.stem.dialect.toUInt32 &&& form.endstring.dialect.toUInt32 = 0 ↔
      form.stem.dialect &&& form.endstring.dialect = 0 := by
    rw [← UInt16.toUInt32_and, toUInt32_eq_zero]
  have hkept : ∀ (d : UInt16) (x : UInt32), (if d.toUInt32 ≠ 0 then x &&& d.toUInt32 else x) &&& bit ≠ 0 ↔
      x &&& bit ≠ 0 ∧ (d = 0 ∨ d.toUInt32 &&& bit ≠ 0) := by
    intro d x
    by_cases hd : d = 0
    · simp [hd]
    · rw [if_pos fun h => hd (toUInt32_eq_zero.mp h), and_and_bit hbit, or_iff_right hd]
  have hparts : (if form.stem.dialect.toUInt32 &&& form.endstring.dialect.toUInt32 = 0 then
      form.preverb.dialect.toUInt32 ||| form.aug1.dialect.toUInt32 ||| form.stem.dialect.toUInt32 |||
        form.endstring.dialect.toUInt32
      else form.stem.dialect.toUInt32 &&& form.endstring.dialect.toUInt32) &&& bit ≠ 0 ↔
      form.stem.dialect.toUInt32 &&& bit ≠ 0 ∧ form.endstring.dialect.toUInt32 &&& bit ≠ 0 ∨
        form.stem.dialect &&& form.endstring.dialect = 0 ∧
          ∃ part ∈ [form.preverb, form.aug1, form.stem, form.endstring],
            part.dialect.toUInt32 &&& bit ≠ 0 := by
    by_cases hnone : form.stem.dialect &&& form.endstring.dialect = 0
    · have hnot : ¬(form.stem.dialect.toUInt32 &&& bit ≠ 0 ∧ form.endstring.dialect.toUInt32 &&& bit ≠ 0) := by
        rw [← and_and_bit hbit, hshared.mpr hnone]
        simp
      rw [if_pos (hshared.mpr hnone), or_iff_right hnot]
      simp only [or_and_ne_zero, hnone, true_and, List.exists_mem_cons_iff, List.not_mem_nil, false_and,
        exists_false, or_false, or_assoc]
    · rw [if_neg fun h => hnone (hshared.mp h), and_and_bit hbit, or_iff_left fun h => hnone h.1]
  unfold effectiveDialect
  dsimp only
  rw [hkept, hkept, hparts]
  exact ⟨fun ⟨⟨h, h'⟩, h''⟩ => ⟨h, h', h''⟩, fun ⟨h, h', h''⟩ => ⟨⟨h, h'⟩, h''⟩⟩

theorem effectiveDialect_ne_zero : effectiveDialect form ≠ 0 ↔ ∃ bit, IsBit bit ∧ DialectCarried form bit := by
  rw [ne_zero_iff_bit]
  exact exists_congr fun bit => and_congr_right fun hbit => effectiveDialect_bit hbit

/-- A dialect that is carried is one that a part is marked for. -/
theorem DialectCarried.marked (h : DialectCarried form bit) : MarkedFor form bit := by
  rcases h.parts with ⟨hstem, -⟩ | ⟨-, part, hpart, hbit⟩
  · exact ⟨_, by simp [dialectParts], hstem⟩
  · refine ⟨part.dialect, ?_, hbit⟩
    simp only [List.mem_cons, List.not_mem_nil, or_false] at hpart
    rcases hpart with rfl | rfl | rfl | rfl <;> simp [dialectParts]

/-- The dialects of the public header are single bits on both sides. -/
theorem dialectBits_isBit {row : UInt32 × UInt32} (h : row ∈ dialectBits) : IsBit row.1 := by
  have hall : dialectBits.Forall fun row =>
      ∃ i ∈ List.range 32, row.1.toBitVec = BitVec.twoPow 32 i := by decide +kernel
  obtain ⟨i, hi, hbit⟩ := List.forall_iff_forall_mem.mp hall row h
  exact ⟨i, List.mem_range.mp hi, hbit⟩

theorem dialectBits_public {row other : UInt32 × UInt32} (h : row ∈ dialectBits) (h' : other ∈ dialectBits) :
    row.2 &&& other.2 ≠ 0 ↔ row = other := by
  have hall : dialectBits.Forall fun row => dialectBits.Forall fun other =>
      row.2 &&& other.2 ≠ 0 ↔ row = other := by decide +kernel
  exact List.forall_iff_forall_mem.mp (List.forall_iff_forall_mem.mp hall row h) other h'

theorem dialectBits_ne_zero {row : UInt32 × UInt32} (h : row ∈ dialectBits) : row.2 ≠ 0 := by
  have hself := (dialectBits_public h h).mpr rfl
  rwa [UInt32.and_self] at hself

theorem mapBits_and_ne_zero (bits : List (UInt32 × UInt32)) (legacy mask : UInt32) :
    mapBits bits legacy &&& mask ≠ 0 ↔ ∃ row ∈ bits, legacy &&& row.1 ≠ 0 ∧ row.2 &&& mask ≠ 0 := by
  have hfold : ∀ result, bits.foldl (fun result bit =>
      if legacy &&& bit.1 ≠ 0 then result ||| bit.2 else result) result &&& mask ≠ 0 ↔
      result &&& mask ≠ 0 ∨ ∃ row ∈ bits, legacy &&& row.1 ≠ 0 ∧ row.2 &&& mask ≠ 0 := by
    induction bits with
    | nil => simp
    | cons row bits ih =>
      intro result
      rw [List.foldl_cons, ih, List.exists_mem_cons_iff]
      by_cases hrow : legacy &&& row.1 ≠ 0
      · rw [if_pos hrow, or_and_ne_zero, or_assoc, and_iff_right hrow]
      · have hnot : ¬(legacy &&& row.1 ≠ 0 ∧ row.2 &&& mask ≠ 0) := fun h => hrow h.1
        rw [if_neg hrow, or_iff_right hnot]
  rw [mapBits, hfold]
  simp

theorem mapBits_ne_zero (bits : List (UInt32 × UInt32)) (legacy : UInt32) :
    mapBits bits legacy ≠ 0 ↔ ∃ row ∈ bits, legacy &&& row.1 ≠ 0 ∧ row.2 ≠ 0 := by
  have h := mapBits_and_ne_zero bits legacy (-1)
  simpa only [UInt32.and_neg_one] using h

end Dialects

section Filter
variable {form : GkWord} {bit : UInt32}

/-- An empty set is computed only for a form that is not marked, and a request for one dialect gets no
form that is marked, but not for it. -/
structure DialectLaw (nameOfStemtype : UInt32 → Option Bytes) (form : GkWord) : Prop where
  restricted : effectiveDialect form = 0 → ¬DialectMarked form
  filtered : ∀ order options, ∀ row ∈ dialectBits, options.dialect = row.2 →
    generationMatches (some options) (normalizedForm nameOfStemtype form order) = true →
      DialectMarked form → MarkedFor form row.1

/-- The forms whose marks are not lost. -/
inductive DialectKept (form : GkWord) : Prop
  | unmarked (h : ¬DialectMarked form)
  /-- A dialect of the public header is carried. -/
  | carried {row : UInt32 × UInt32} (hrow : row ∈ dialectBits) (h : DialectCarried form row.1)
  /-- Only a bit that stands for no dialect is carried, but the form is marked for every dialect. -/
  | everywhere {bit : UInt32} (hbit : IsBit bit) (h : DialectCarried form bit)
      (all : ∀ row ∈ dialectBits, MarkedFor form row.1)

/-- The request for the forms of a dialect. -/
def dialectRequest (dialect : UInt32) : MorpheusGenerationOptions :=
  ⟨generationOptionsVersion, 64, 0, 0, 0, dialect, 0, 0, 0, 0, 0, 0, 0, 0, 0⟩

theorem generationMatches_dialectRequest (dialect : UInt32) (generation : NormalizedGeneration) :
    generationMatches (some (dialectRequest dialect)) generation =
      (dialect == 0 || generation.dialect == 0 || dialect &&& generation.dialect != 0) := by
  simp [generationMatches, dialectRequest, traitMatches, maskMatches]

/-- Only the dialect of the request decides whether a form is of the dialect. -/
theorem dialect_of_generationMatches {options : MorpheusGenerationOptions}
    {generation : NormalizedGeneration} (h : generationMatches (some options) generation = true) :
    options.dialect = 0 ∨ generation.dialect = 0 ∨ options.dialect &&& generation.dialect ≠ 0 := by
  simp only [generationMatches, Bool.and_eq_true, Bool.or_eq_true, beq_iff_eq, bne_iff_ne] at h
  tauto

theorem publicDialect_ne_zero (legacy : UInt32) :
    morpheusPublicDialect legacy ≠ 0 ↔ ∃ row ∈ dialectBits, legacy &&& row.1 ≠ 0 := by
  rw [morpheusPublicDialect, mapBits_ne_zero]
  refine exists_congr fun row => and_congr_right fun hrow => ?_
  rw [and_iff_left (dialectBits_ne_zero hrow)]

theorem publicDialect_and {row : UInt32 × UInt32} (hrow : row ∈ dialectBits) (legacy : UInt32) :
    row.2 &&& morpheusPublicDialect legacy ≠ 0 ↔ legacy &&& row.1 ≠ 0 := by
  rw [UInt32.and_comm, morpheusPublicDialect, mapBits_and_ne_zero]
  constructor
  · rintro ⟨other, hother, hlegacy, hmask⟩
    rwa [← (dialectBits_public hother hrow).mp hmask]
  · intro h
    exact ⟨row, hrow, h, (dialectBits_public hrow hrow).mpr rfl⟩

/-- A form is reported as asked if and only if its marks are not lost. They are lost when stem and
ending share a dialect that the augment or the form is marked against, or share none and the form is
marked against the augment, or the other parts: the intersection is empty then. -/
theorem dialectLaw_iff (nameOfStemtype : UInt32 → Option Bytes) (form : GkWord) :
    DialectLaw nameOfStemtype form ↔ DialectKept form := by
  have hdialect : ∀ order, (normalizedForm nameOfStemtype form order).dialect =
    morpheusPublicDialect (effectiveDialect form) := fun _ => rfl
  have hcarried : ∀ row ∈ dialectBits, effectiveDialect form &&& row.1 ≠ 0 ↔ DialectCarried form row.1 :=
    fun row hrow => effectiveDialect_bit (dialectBits_isBit hrow)
  constructor
  · intro law
    by_cases hmarked : DialectMarked form
    · obtain ⟨bit, hbit, hcarry⟩ := effectiveDialect_ne_zero.mp fun hzero => law.restricted hzero hmarked
      by_cases hpublic : morpheusPublicDialect (effectiveDialect form) = 0
      · refine .everywhere hbit hcarry fun row hrow => ?_
        refine law.filtered 0 (dialectRequest row.2) row hrow rfl ?_ hmarked
        rw [generationMatches_dialectRequest, hdialect, hpublic]
        simp
      · obtain ⟨row, hrow, hset⟩ := (publicDialect_ne_zero _).mp hpublic
        exact .carried hrow ((hcarried row hrow).mp hset)
    · exact .unmarked hmarked
  · intro hkept
    cases hkept with
    | unmarked hnone => exact ⟨fun _ => hnone, fun _ _ _ _ _ _ hmarked => absurd hmarked hnone⟩
    | @carried row hrow hcarry =>
      have hset := (hcarried row hrow).mpr hcarry
      refine ⟨fun hzero => ?_, fun order options asked hasked hoptions hmatches _ => ?_⟩
      · rw [hzero] at hset
        exact absurd (UInt32.zero_and ..) hset
      · rcases dialect_of_generationMatches hmatches with hno | hempty | hshared
        · rw [hoptions] at hno
          exact absurd hno (dialectBits_ne_zero hasked)
        · rw [hdialect] at hempty
          exact absurd hempty ((publicDialect_ne_zero _).mpr ⟨row, hrow, hset⟩)
        · rw [hoptions, hdialect, publicDialect_and hasked] at hshared
          exact ((hcarried asked hasked).mp hshared).marked
    | everywhere hbit hcarry hall =>
      refine ⟨fun hzero => ?_, fun _ _ row hrow _ _ _ => hall row hrow⟩
      exact absurd hzero (effectiveDialect_ne_zero.mpr ⟨_, hbit, hcarry⟩)

/-- A form that has a dialect of its own, and whose parts have none, is reported as unrestricted. -/
theorem dialectLaw_ionic : ¬∀ nameOfStemtype form, DialectLaw nameOfStemtype form := by
  intro h
  have hform := (h (fun _ => none) { GkWord.zero with dialect := 0o10 }).restricted (by decide)
  exact hform ⟨0o10, by decide, by decide⟩

end Filter

end Morpheus
