import Morpheus.Comparison
import Morpheus.GkString

/-!
# The order of endings and forms

`CompGkString` of `gkstring.c` compares two records field after field. Case, gender, person
and number are compared only when both records have them. `AddNewEnd` of `retrends.c` inserts
a record into a list that is kept in this order.
-/
namespace Morpheus

open Comparison

/-- The mask `STEMTYPE` of `stemtype.h`. -/
def stemtypeMask : UInt32 := 0o1017700

/-- `ITERATIVE` -/
def iterative : ℕ := 4

/-- `PARADIGM`, which is a bit of a dialect and not a flag number. -/
def paradigm : ℕ := 0o400

/-- `ATTIC` -/
def attic : ℕ := 0o2

/-- The value `has_morphflag` returns: the bit of the flag, or 0. -/
def morphflagBit (Mf : MorphFlags) (n : ℕ) : ℕ :=
  match mflagNumToBits n with
  | none => 0
  | some (index, setbit) => (Mf index &&& setbit).toNat

/-- The loop of `low_bit_of`; the mask grows by the counter. -/
def lowBitLoop (n : ℕ) : ℕ → ℕ → ℕ → ℕ
  | 0, _, _ => 0
  | rest + 1, i, mask =>
    let mask := mask + i
    if n &&& mask ≠ 0 then n &&& mask else lowBitLoop n rest (i + 1) mask

/-- `low_bit_of` -/
def lowBitOf (n : ℕ) : ℕ := lowBitLoop n 32 0 0

/-- The three-way comparison of two stem types. -/
def compStemtype (s1 s2 : UInt32) : Int := (decide (s1 > s2)).toNat - (decide (s1 < s2)).toNat

/-- The difference of two field values. -/
def fieldOrder (v1 v2 : ℕ) : Int := v1 - v2

/-- A field that is compared only when both records have it. -/
def whenBoth (present1 present2 : Bool) (order : Int) : Int :=
  if present1 && present2 then order else 0

/-- Number, case and gender in one value. -/
def caseValue (f : WordForm) : ℕ :=
  1000 * f.number.toNat + 10 * lowBitOf f.case_.toNat + lowBitOf f.gender.toNat

/-- Number and person in one value. -/
def personValue (f : WordForm) : ℕ := 10 * f.number.toNat + f.person.toNat

/-- A `Dialect` is a `short`. -/
def dialectValue (d : UInt16) : Int := d.toBitVec.toInt

/-- The comparisons up to the degree, made for all records. -/
def headOrders (g1 g2 : GkString) : List Int :=
  [compStemtype (g1.stemtype &&& stemtypeMask) (g2.stemtype &&& stemtypeMask),
    fieldOrder (morphflagBit g1.morphflags iterative) (morphflagBit g2.morphflags iterative),
    fieldOrder g1.forminfo.tense.toNat g2.forminfo.tense.toNat,
    fieldOrder g1.forminfo.voice.toNat g2.forminfo.voice.toNat,
    fieldOrder g1.forminfo.mood.toNat g2.forminfo.mood.toNat,
    fieldOrder g1.forminfo.degree.toNat g2.forminfo.degree.toNat]

/-- The comparisons after the degree; the last one is made after the label `finish`, when all
before it are ties. -/
def tailOrders (g1 g2 : GkString) : List Int :=
  [whenBoth (g1.forminfo.case_ != 0) (g2.forminfo.case_ != 0)
      (fieldOrder (caseValue g1.forminfo) (caseValue g2.forminfo)),
    whenBoth (g1.forminfo.gender != 0) (g2.forminfo.gender != 0)
      (fieldOrder (lowBitOf g1.forminfo.gender.toNat) (lowBitOf g2.forminfo.gender.toNat)),
    fieldOrder (morphflagBit g1.morphflags unaugmented) (morphflagBit g2.morphflags unaugmented),
    whenBoth (g1.forminfo.person != 0) (g2.forminfo.person != 0)
      (fieldOrder (personValue g1.forminfo) (personValue g2.forminfo)),
    whenBoth (g1.forminfo.number != 0) (g2.forminfo.number != 0)
      (fieldOrder (lowBitOf g2.forminfo.number.toNat) (lowBitOf g1.forminfo.number.toNat)),
    fieldOrder (g2.dialect.toNat &&& paradigm) (g1.dialect.toNat &&& paradigm),
    fieldOrder (g2.dialect.toNat &&& attic) (g1.dialect.toNat &&& attic),
    dialectValue g1.dialect - dialectValue g2.dialect,
    fieldOrder (morphflagBit g2.morphflags paradigm) (morphflagBit g1.morphflags paradigm)]

/-- `CompGkString` -/
def compGkString (gstr1 gstr2 : GkString) : Int :=
  firstOrder (headOrders gstr1 gstr2 ++ tailOrders gstr1 gstr2)

/-- The loop of `AddNewEnd` over the records so far, the last one first. -/
def insertFromEnd (newgstr : GkString) : List GkString → List GkString
  | [] => [newgstr]
  | last :: before =>
    if compGkString last newgstr > 0 then newgstr :: last :: before
    else last :: insertFromEnd newgstr before

/-- `AddNewEnd` -/
def addNewEnd (gstrings : List GkString) (newgstr : GkString) : List GkString :=
  (insertFromEnd newgstr gstrings.reverse).reverse

/-- What the order promises on a set of records. -/
structure OrdersRecords (records : Set GkString) : Prop where
  ties : ∀ a ∈ records, compGkString a a = 0
  opposite : ∀ a ∈ records, ∀ b ∈ records, (compGkString b a).sign = -(compGkString a b).sign
  transitive : ∀ a ∈ records, ∀ b ∈ records, ∀ c ∈ records,
    compGkString a b ≤ 0 → compGkString b c ≤ 0 → compGkString a c ≤ 0
  sorts : ∀ items : List GkString, (∀ g ∈ items, g ∈ records) →
    (sortBy compGkString items).Pairwise fun a b => compGkString a b ≤ 0
  inserts : ∀ (gstrings : List GkString) (newgstr : GkString), (∀ g ∈ gstrings, g ∈ records) →
    newgstr ∈ records → gstrings.Pairwise (fun a b => 0 ≤ compGkString a b) →
      (addNewEnd gstrings newgstr).Pairwise fun a b => 0 ≤ compGkString a b

/-- Which of the fields that may be skipped a record has. -/
structure Shape where
  hasCase : Bool
  hasGender : Bool
  hasPerson : Bool
  hasNumber : Bool
  deriving DecidableEq

def shapeOf (g : GkString) : Shape :=
  ⟨g.forminfo.case_ != 0, g.forminfo.gender != 0, g.forminfo.person != 0, g.forminfo.number != 0⟩

/-- The fields compared for all records, up to the degree. -/
def headOf (g : GkString) : UInt32 × ℕ × BitVec 4 × BitVec 3 × BitVec 4 × BitVec 2 :=
  (g.stemtype &&& stemtypeMask, morphflagBit g.morphflags iterative, g.forminfo.tense,
    g.forminfo.voice, g.forminfo.mood, g.forminfo.degree)

/-- Two records of these shapes are never compared without a field that only one of them
has, unless an earlier field keeps them apart. -/
def Shape.Matches (s t : Shape) : Prop :=
  s.hasCase = t.hasCase ∧
    (s.hasCase = true → s.hasNumber = t.hasNumber → s.hasGender = t.hasGender →
      s.hasPerson = t.hasPerson) ∧
    (s.hasCase = false → s.hasGender = t.hasGender ∧ s.hasPerson = t.hasPerson ∧
      (s.hasPerson = false → s.hasNumber = t.hasNumber))

instance (s t : Shape) : Decidable (s.Matches t) := inferInstanceAs (Decidable (_ ∧ _ ∧ _))

theorem fieldOrder_swap (v1 v2 : ℕ) : fieldOrder v2 v1 = -fieldOrder v1 v2 := by
  unfold fieldOrder
  omega

theorem compStemtype_swap (s1 s2 : UInt32) : compStemtype s2 s1 = -compStemtype s1 s2 := by
  unfold compStemtype
  simp only [gt_iff_lt]
  omega

theorem whenBoth_swap (p1 p2 : Bool) {o1 o2 : Int} (h : o2 = -o1) :
    whenBoth p2 p1 o2 = -whenBoth p1 p2 o1 := by
  unfold whenBoth
  rw [Bool.and_comm, h]
  split <;> omega

theorem headOrders_swap (a b : GkString) : headOrders b a = (headOrders a b).map (- ·) := by
  simp only [headOrders, List.map_cons, List.map_nil]
  rw [compStemtype_swap, ← fieldOrder_swap, ← fieldOrder_swap, ← fieldOrder_swap,
    ← fieldOrder_swap, ← fieldOrder_swap]

theorem tailOrders_swap (a b : GkString) : tailOrders b a = (tailOrders a b).map (- ·) := by
  simp only [tailOrders, List.map_cons, List.map_nil]
  rw [← whenBoth_swap _ _ (fieldOrder_swap _ _), ← whenBoth_swap _ _ (fieldOrder_swap _ _),
    ← whenBoth_swap _ _ (fieldOrder_swap _ _), ← whenBoth_swap _ _ (fieldOrder_swap _ _),
    ← fieldOrder_swap, ← fieldOrder_swap, ← fieldOrder_swap, ← fieldOrder_swap, Int.neg_sub]

theorem firstOrder_neg (orders : List Int) :
    firstOrder (orders.map (- ·)) = -firstOrder orders := by
  induction orders with
  | nil => rfl
  | cons order orders ih =>
    simp only [List.map_cons, firstOrder, ih]
    split_ifs <;> omega

/-- Exchanging the records changes the sign, for all records. -/
theorem compGkString_swap (a b : GkString) : compGkString b a = -compGkString a b := by
  unfold compGkString
  rw [headOrders_swap, tailOrders_swap, ← List.map_append, firstOrder_neg]

theorem compGkString_self (a : GkString) : compGkString a a = 0 := by
  have h := compGkString_swap a a
  omega

theorem lowBitLoop_le (n rest i mask : ℕ) : lowBitLoop n rest i mask ≤ n := by
  induction rest generalizing i mask with
  | zero => exact Nat.zero_le n
  | succ rest ih =>
    rw [lowBitLoop]
    split
    · exact Nat.and_le_left
    · exact ih _ _

theorem lowBitOf_gender (gender : BitVec 4) :
    lowBitOf gender.toNat < 10 ∧ (lowBitOf gender.toNat = 0 ↔ gender = 0) := by
  revert gender
  decide +kernel

/-- One value compares number, case and gender in turn. -/
theorem caseValue_inj {f1 f2 : WordForm} (h : caseValue f1 = caseValue f2) :
    f1.number = f2.number ∧ lowBitOf f1.gender.toNat = lowBitOf f2.gender.toNat := by
  have hg1 := (lowBitOf_gender f1.gender).1
  have hg2 := (lowBitOf_gender f2.gender).1
  have hc1 : lowBitOf f1.case_.toNat ≤ f1.case_.toNat := lowBitLoop_le _ _ _ _
  have hc2 : lowBitOf f2.case_.toNat ≤ f2.case_.toNat := lowBitLoop_le _ _ _ _
  have hb1 : f1.case_.toNat < 64 := f1.case_.isLt
  have hb2 : f2.case_.toNat < 64 := f2.case_.isLt
  unfold caseValue at h
  constructor
  · apply BitVec.eq_of_toNat_eq
    omega
  · omega

theorem personValue_inj {f1 f2 : WordForm} (h : personValue f1 = personValue f2) :
    f1.number = f2.number := by
  have h1 : f1.person.toNat < 8 := f1.person.isLt
  have h2 : f2.person.toNat < 8 := f2.person.isLt
  unfold personValue at h
  apply BitVec.eq_of_toNat_eq
  omega

theorem agrees_fieldOrder (v1 v2 : ℕ) : Agrees (fieldOrder v1 v2) (v1 : Int) v2 := by
  unfold fieldOrder
  constructor
  · omega
  · omega

/-- A field that is compared in reverse. -/
theorem agrees_fieldOrder_reversed (v1 v2 : ℕ) :
    Agrees (fieldOrder v2 v1) (-(v1 : Int)) (-v2) := by
  unfold fieldOrder
  constructor
  · omega
  · omega

theorem agrees_compStemtype (s1 s2 : UInt32) :
    Agrees (compStemtype s1 s2) (s1.toNat : Int) s2.toNat := by
  unfold compStemtype
  simp only [gt_iff_lt, UInt32.lt_iff_toNat_lt]
  rcases Nat.lt_trichotomy s1.toNat s2.toNat with hlt | heq | hgt
  · constructor <;> simp [hlt, Nat.lt_asymm hlt, Nat.ne_of_lt hlt]
  · constructor <;> simp [heq]
  · constructor <;> simp [hgt, Nat.lt_asymm hgt, Nat.ne_of_gt hgt]

theorem agrees_whenBoth {p1 p2 : Bool} {order k1 k2 : Int} (hp : p1 = p2)
    (h : Agrees order k1 k2) :
    Agrees (whenBoth p1 p2 order) (if p1 then k1 else 0) (if p2 then k2 else 0) := by
  subst hp
  unfold whenBoth
  cases p1
  · constructor <;> simp
  · simpa using h

theorem agrees_skipped {p1 p2 : Bool} {order k1 k2 : Int} (hk : k1 = k2) (ho : order = 0) :
    Agrees (whenBoth p1 p2 order) k1 k2 := by
  have hzero : whenBoth p1 p2 order = 0 := by
    unfold whenBoth
    rw [ho, ite_self]
  rw [hzero]
  constructor <;> simp [hk]

/-- The fields in the order in which they are compared, a missing one as 0. -/
def headKey (g : GkString) : List Int :=
  [(g.stemtype &&& stemtypeMask).toNat, morphflagBit g.morphflags iterative,
    g.forminfo.tense.toNat, g.forminfo.voice.toNat, g.forminfo.mood.toNat,
    g.forminfo.degree.toNat]

def tailKey (g : GkString) : List Int :=
  [if (shapeOf g).hasCase then (caseValue g.forminfo : Int) else 0,
    lowBitOf g.forminfo.gender.toNat, morphflagBit g.morphflags unaugmented,
    if (shapeOf g).hasPerson then (personValue g.forminfo : Int) else 0,
    if (shapeOf g).hasNumber then -(lowBitOf g.forminfo.number.toNat : Int) else 0,
    -((g.dialect.toNat &&& paradigm : ℕ) : Int), -((g.dialect.toNat &&& attic : ℕ) : Int),
    dialectValue g.dialect, -(morphflagBit g.morphflags paradigm : Int)]

theorem shapeOf_hasGender (g : GkString) :
    (shapeOf g).hasGender = (lowBitOf g.forminfo.gender.toNat != 0) := by
  have hzero := (lowBitOf_gender g.forminfo.gender).2
  rw [Bool.eq_iff_iff, bne_iff_ne, ne_eq, hzero]
  exact bne_iff_ne

theorem lowBitOf_missing {g : GkString} (h : (shapeOf g).hasGender = false) :
    lowBitOf g.forminfo.gender.toNat = 0 := by
  rw [shapeOf_hasGender] at h
  simpa using h

/-- Matching records are compared after the degree by their keys. -/
theorem tailOrders_agree {a b : GkString} (h : (shapeOf a).Matches (shapeOf b)) :
    Agrees (firstOrder (tailOrders a b)) (tailKey a) (tailKey b) := by
  obtain ⟨hcase, hwith, hwithout⟩ := h
  unfold tailOrders tailKey
  apply (agrees_whenBoth hcase (agrees_fieldOrder _ _)).consOfTie
  intro hcasekey
  -- with a case on both sides, the tie makes number and gender equal
  have hnumber : (shapeOf a).hasCase = true →
      a.forminfo.number = b.forminfo.number ∧
        lowBitOf a.forminfo.gender.toNat = lowBitOf b.forminfo.gender.toNat := by
    intro ha
    rw [if_pos ha, if_pos (hcase ▸ ha)] at hcasekey
    exact caseValue_inj (Int.ofNat_inj.mp hcasekey)
  have hgender : Agrees (whenBoth (a.forminfo.gender != 0) (b.forminfo.gender != 0)
      (fieldOrder (lowBitOf a.forminfo.gender.toNat) (lowBitOf b.forminfo.gender.toNat)))
      (lowBitOf a.forminfo.gender.toNat : Int) (lowBitOf b.forminfo.gender.toNat) := by
    cases ha : (shapeOf a).hasCase with
    | true =>
      have hlow := (hnumber ha).2
      apply agrees_skipped (congrArg _ hlow)
      rw [hlow, fieldOrder, Int.sub_self]
    | false =>
      have hboth : (shapeOf a).hasGender = (shapeOf b).hasGender := (hwithout ha).1
      have hagrees := agrees_whenBoth hboth (agrees_fieldOrder
        (lowBitOf a.forminfo.gender.toNat) (lowBitOf b.forminfo.gender.toNat))
      cases hg : (shapeOf a).hasGender with
      | true =>
        rw [if_pos hg, if_pos (hboth.symm.trans hg)] at hagrees
        exact hagrees
      | false =>
        rw [lowBitOf_missing hg, lowBitOf_missing (hboth.symm.trans hg)]
        exact agrees_skipped rfl rfl
  apply hgender.consOfTie
  intro _
  apply (agrees_fieldOrder _ _).consOfTie
  intro _
  have hperson : (shapeOf a).hasPerson = (shapeOf b).hasPerson := by
    cases ha : (shapeOf a).hasCase with
    | true =>
      apply hwith ha
      · unfold shapeOf
        rw [(hnumber ha).1]
      · rw [shapeOf_hasGender, shapeOf_hasGender, (hnumber ha).2]
    | false => exact (hwithout ha).2.1
  apply (agrees_whenBoth hperson (agrees_fieldOrder _ _)).consOfTie
  intro hpersonkey
  have hshown : (shapeOf a).hasNumber = (shapeOf b).hasNumber := by
    cases ha : (shapeOf a).hasCase with
    | true =>
      unfold shapeOf
      rw [(hnumber ha).1]
    | false =>
      cases hp : (shapeOf a).hasPerson with
      | false => exact (hwithout ha).2.2 hp
      | true =>
        rw [if_pos hp, if_pos (hperson ▸ hp)] at hpersonkey
        unfold shapeOf
        rw [personValue_inj (Int.ofNat_inj.mp hpersonkey)]
  apply (agrees_whenBoth hshown (agrees_fieldOrder_reversed _ _)).consOfTie
  intro _
  apply (agrees_fieldOrder_reversed _ _).consOfTie
  intro _
  apply (agrees_fieldOrder_reversed _ _).consOfTie
  intro _
  have hdialect : Agrees (dialectValue a.dialect - dialectValue b.dialect)
      (dialectValue a.dialect) (dialectValue b.dialect) := by
    constructor
    · omega
    · omega
  apply hdialect.consOfTie
  intro _
  exact (agrees_fieldOrder_reversed _ _).cons agrees_nil

/-- Two records that match once their first six fields tie are compared by their keys. -/
theorem compGkString_agrees {a b : GkString}
    (h : headOf a = headOf b → (shapeOf a).Matches (shapeOf b)) :
    Agrees (compGkString a b) (headKey a ++ tailKey a) (headKey b ++ tailKey b) := by
  unfold compGkString headOrders headKey
  simp only [List.cons_append, List.nil_append]
  apply (agrees_compStemtype _ _).consOfTie
  intro hstem
  apply (agrees_fieldOrder _ _).consOfTie
  intro hiterative
  apply (agrees_fieldOrder _ _).consOfTie
  intro htense
  apply (agrees_fieldOrder _ _).consOfTie
  intro hvoice
  apply (agrees_fieldOrder _ _).consOfTie
  intro hmood
  apply (agrees_fieldOrder _ _).consOfTie
  intro hdegree
  apply tailOrders_agree
  apply h
  unfold headOf
  rw [UInt32.toNat_inj.mp (Int.ofNat_inj.mp hstem), Int.ofNat_inj.mp hiterative,
    BitVec.eq_of_toNat_eq (Int.ofNat_inj.mp htense), BitVec.eq_of_toNat_eq (Int.ofNat_inj.mp hvoice),
    BitVec.eq_of_toNat_eq (Int.ofNat_inj.mp hmood), BitVec.eq_of_toNat_eq (Int.ofNat_inj.mp hdegree)]

/-- A set of records any two of which match once their first six fields tie. -/
def MatchingRecords (records : Set GkString) : Prop :=
  ∀ a ∈ records, ∀ b ∈ records, headOf a = headOf b → (shapeOf a).Matches (shapeOf b)

theorem MatchingRecords.trans {records : Set GkString} (h : MatchingRecords records)
    {a b c : GkString} (ha : a ∈ records) (hb : b ∈ records) (hc : c ∈ records)
    (hab : compGkString a b ≤ 0) (hbc : compGkString b c ≤ 0) : compGkString a c ≤ 0 := by
  have hkey1 := (compGkString_agrees (h a ha b hb)).le_iff.mp hab
  have hkey2 := (compGkString_agrees (h b hb c hc)).le_iff.mp hbc
  exact (compGkString_agrees (h a ha c hc)).le_iff.mpr (hkey1.trans hkey2)

theorem compGkString_nonneg {a b : GkString} : 0 ≤ compGkString a b ↔ compGkString b a ≤ 0 := by
  rw [compGkString_swap a b]
  omega

theorem insertFromEnd_perm (newgstr : GkString) (gstrings : List GkString) :
    (insertFromEnd newgstr gstrings).Perm (newgstr :: gstrings) := by
  induction gstrings with
  | nil => exact List.Perm.refl _
  | cons last before ih =>
    rw [insertFromEnd]
    split
    · exact List.Perm.refl _
    · exact (ih.cons last).trans (List.Perm.swap newgstr last before)

/-- `AddNewEnd` keeps every record and adds the new one. -/
theorem addNewEnd_perm (gstrings : List GkString) (newgstr : GkString) :
    (addNewEnd gstrings newgstr).Perm (newgstr :: gstrings) := by
  unfold addNewEnd
  apply (List.reverse_perm _).trans
  apply (insertFromEnd_perm newgstr gstrings.reverse).trans
  exact (List.reverse_perm gstrings).cons newgstr

/-- The new record stands behind those that compare greater, in a list that ascends from its
end. -/
theorem MatchingRecords.insertFromEnd {records : Set GkString} (h : MatchingRecords records)
    {newgstr : GkString} (hnew : newgstr ∈ records) {gstrings : List GkString}
    (hin : ∀ g ∈ gstrings, g ∈ records)
    (hsorted : gstrings.Pairwise fun a b => compGkString a b ≤ 0) :
    (insertFromEnd newgstr gstrings).Pairwise fun a b => compGkString a b ≤ 0 := by
  induction gstrings with
  | nil => exact List.pairwise_singleton _ _
  | cons last before ih =>
    have hlast : last ∈ records := hin last List.mem_cons_self
    have hbefore : ∀ g ∈ before, g ∈ records := fun g hg => hin g (List.mem_cons_of_mem _ hg)
    obtain ⟨hfirst, hrest⟩ := List.pairwise_cons.mp hsorted
    rw [Morpheus.insertFromEnd]
    split
    · rename_i hgreater
      have hle : compGkString newgstr last ≤ 0 := by
        rw [compGkString_swap last newgstr]
        omega
      apply List.pairwise_cons.mpr
      constructor
      · intro g hg
        rcases List.mem_cons.mp hg with rfl | hg
        · exact hle
        · exact h.trans hnew hlast (hbefore g hg) hle (hfirst g hg)
      · exact hsorted
    · rename_i hgreater
      apply List.pairwise_cons.mpr
      constructor
      · intro g hg
        rcases List.mem_cons.mp ((insertFromEnd_perm newgstr before).subset hg) with rfl | hg
        · omega
        · exact hfirst g hg
      · exact ih hbefore hrest

theorem MatchingRecords.addNewEnd {records : Set GkString} (h : MatchingRecords records)
    {gstrings : List GkString} {newgstr : GkString} (hin : ∀ g ∈ gstrings, g ∈ records)
    (hnew : newgstr ∈ records)
    (hsorted : gstrings.Pairwise fun a b => 0 ≤ compGkString a b) :
    (addNewEnd gstrings newgstr).Pairwise fun a b => 0 ≤ compGkString a b := by
  unfold Morpheus.addNewEnd
  rw [List.pairwise_reverse]
  have hreversed : gstrings.reverse.Pairwise fun a b => compGkString a b ≤ 0 := by
    rw [List.pairwise_reverse]
    exact hsorted.imp fun hab => compGkString_nonneg.mp hab
  have hinsert := h.insertFromEnd hnew
    (fun g hg => hin g (List.mem_reverse.mp hg)) hreversed
  exact hinsert.imp fun hab => compGkString_nonneg.mpr hab

theorem MatchingRecords.sortBy {records : Set GkString} (h : MatchingRecords records)
    {items : List GkString} (hin : ∀ g ∈ items, g ∈ records) :
    (Comparison.sortBy compGkString items).Pairwise fun a b => compGkString a b ≤ 0 := by
  have hagrees : ∀ a ∈ items, ∀ b ∈ items, Agrees (compGkString a b) (headKey a ++ tailKey a)
      (headKey b ++ tailKey b) := by
    intro a ha b hb
    exact compGkString_agrees (h a (hin a ha) b (hin b hb))
  exact sortBy_pairwise_mem hagrees

theorem MatchingRecords.ordersRecords {records : Set GkString} (h : MatchingRecords records) :
    OrdersRecords records where
  ties a _ := compGkString_self a
  opposite a _ b _ := by rw [compGkString_swap a b, Int.sign_neg]
  transitive _ ha _ hb _ hc hab hbc := h.trans ha hb hc hab hbc
  sorts _ hin := h.sortBy hin
  inserts _ _ hin hnew hsorted := h.addNewEnd hin hnew hsorted

/-- Values for the fields that a record of some shape has, and for the fields after them. -/
structure Variation where
  case_ : BitVec 6
  gender : BitVec 4
  person : BitVec 3
  number : BitVec 3
  unaug : Byte
  dialect : UInt16

/-- A record with the first six fields of another one, of a given shape. -/
def variant (g : GkString) (s : Shape) (v : Variation) : GkString :=
  { g with
    forminfo := { g.forminfo with
      case_ := if s.hasCase then v.case_ else 0
      gender := if s.hasGender then v.gender else 0
      person := if s.hasPerson then v.person else 0
      number := if s.hasNumber then v.number else 0 }
    morphflags := fun i => if i = 0 then g.morphflags 0 else if i = 2 then v.unaug else 0
    dialect := v.dialect }

theorem headOf_variant (g : GkString) (s : Shape) (v : Variation) :
    headOf (variant g s v) = headOf g := rfl

theorem tailOrders_variant (g1 g2 : GkString) (s1 s2 : Shape) (v1 v2 : Variation) :
    tailOrders (variant g1 s1 v1) (variant g2 s2 v2) =
      tailOrders (variant .zero s1 v1) (variant .zero s2 v2) := rfl

theorem compGkString_sameHead {a b : GkString} (h : headOf a = headOf b) :
    compGkString a b = firstOrder (tailOrders a b) := by
  simp only [headOf, Prod.mk.injEq] at h
  obtain ⟨hstem, hiterative, htense, hvoice, hmood, hdegree⟩ := h
  have hnone : compStemtype (b.stemtype &&& stemtypeMask) (b.stemtype &&& stemtypeMask) = 0 := by
    simp [compStemtype]
  unfold compGkString headOrders
  rw [hstem, hiterative, htense, hvoice, hmood, hdegree, hnone]
  simp [firstOrder, fieldOrder]

/-- Three variations for a field that the first shape has and the second has not. -/
def clash (s t : Shape) : Variation × Variation × Variation :=
  if s.hasCase ≠ t.hasCase then
    if t.hasPerson && s.hasPerson && t.hasNumber && !s.hasNumber then
      (⟨2, 1, 1, 1, 0, 0⟩, ⟨1, 1, 1, 1, 0, 0⟩, ⟨1, 1, 1, 1, 16, 0⟩)
    else (⟨2, 1, 1, 1, 0, 0⟩, ⟨1, 1, 1, 1, 16, 0⟩, ⟨1, 1, 1, 1, 16, 0⟩)
  else if s.hasCase = false ∧ s.hasGender ≠ t.hasGender then
    if t.hasPerson && s.hasPerson && t.hasNumber && !s.hasNumber then
      (⟨0, 2, 1, 1, 0, 0⟩, ⟨0, 1, 1, 1, 0, 0⟩, ⟨0, 1, 1, 1, 16, 0⟩)
    else (⟨0, 2, 1, 1, 0, 0⟩, ⟨0, 1, 1, 1, 16, 0⟩, ⟨0, 1, 1, 1, 16, 0⟩)
  else if s.hasPerson ≠ t.hasPerson then
    (⟨1, 1, 2, 1, 0, 0⟩, ⟨1, 1, 1, 1, 0, 0⟩, ⟨1, 1, 1, 1, 0, 8⟩)
  else (⟨0, 1, 0, 1, 0, 0⟩, ⟨0, 1, 0, 1, 0, 0⟩, ⟨0, 1, 0, 2, 0, 8⟩)

/-- The two outer variations, of one shape, are ordered against the way through a record of
the other. -/
def Clashes (s t : Shape) : Prop :=
  shapeOf (variant .zero s (clash s t).1) = s ∧ shapeOf (variant .zero t (clash s t).2.1) = t ∧
    shapeOf (variant .zero s (clash s t).2.2) = s ∧
    firstOrder (tailOrders (variant .zero s (clash s t).1) (variant .zero t (clash s t).2.1)) ≤ 0 ∧
    firstOrder (tailOrders (variant .zero t (clash s t).2.1)
      (variant .zero s (clash s t).2.2)) ≤ 0 ∧
    0 < firstOrder (tailOrders (variant .zero s (clash s t).1) (variant .zero s (clash s t).2.2))

instance (s t : Shape) : Decidable (Clashes s t) := inferInstanceAs (Decidable (_ ∧ _ ∧ _ ∧ _ ∧ _ ∧ _))

theorem clashes_of_not_matches :
    ∀ c1 g1 p1 n1 c2 g2 p2 n2 : Bool, ¬ Shape.Matches ⟨c1, g1, p1, n1⟩ ⟨c2, g2, p2, n2⟩ →
      Clashes ⟨c1, g1, p1, n1⟩ ⟨c2, g2, p2, n2⟩ ∨ Clashes ⟨c2, g2, p2, n2⟩ ⟨c1, g1, p1, n1⟩ := by
  decide +kernel

/-- Two shapes that clash under one head leave a set with all such records unordered. -/
theorem not_transitive_of_clashes {records : Set GkString} {g1 g2 : GkString} {s t : Shape}
    (hhead : headOf g1 = headOf g2) (hs : ∀ v, shapeOf (variant g1 s v) = s →
      variant g1 s v ∈ records) (ht : ∀ v, shapeOf (variant g2 t v) = t →
      variant g2 t v ∈ records) (hclash : Clashes s t) : ¬ OrdersRecords records := by
  obtain ⟨hshape1, hshape2, hshape3, hfirst, hsecond, hagainst⟩ := hclash
  intro horders
  have h1 := hs (clash s t).1 hshape1
  have h2 := ht (clash s t).2.1 hshape2
  have h3 := hs (clash s t).2.2 hshape3
  have h12 := compGkString_sameHead
    ((headOf_variant g1 s (clash s t).1).trans (hhead.trans (headOf_variant g2 t (clash s t).2.1).symm))
  have h23 := compGkString_sameHead
    ((headOf_variant g2 t (clash s t).2.1).trans
      (hhead.symm.trans (headOf_variant g1 s (clash s t).2.2).symm))
  have h13 := compGkString_sameHead
    ((headOf_variant g1 s (clash s t).1).trans (headOf_variant g1 s (clash s t).2.2).symm)
  have hle := horders.transitive _ h1 _ h2 _ h3
  rw [h12, h23, h13, tailOrders_variant, tailOrders_variant, tailOrders_variant] at hle
  exact absurd (hle hfirst hsecond) (not_le.mpr hagainst)

/-- The order is a total preorder on the records of a kind, and sorting and insertion keep to
it, exactly when any two of them match once their first six fields tie. A kind says which
first fields occur with which shapes. -/
theorem compGkString_orders_iff
    (kind : UInt32 × ℕ × BitVec 4 × BitVec 3 × BitVec 4 × BitVec 2 → Shape → Prop) :
    OrdersRecords {g | kind (headOf g) (shapeOf g)} ↔
      MatchingRecords {g | kind (headOf g) (shapeOf g)} := by
  constructor
  · intro horders a ha b hb hhead
    by_contra hmatch
    have hin : ∀ g : GkString, kind (headOf g) (shapeOf g) → ∀ v,
        shapeOf (variant g (shapeOf g) v) = shapeOf g →
          variant g (shapeOf g) v ∈ {g | kind (headOf g) (shapeOf g)} := by
      intro g hg v hshape
      change kind (headOf (variant g (shapeOf g) v)) (shapeOf (variant g (shapeOf g) v))
      rw [headOf_variant, hshape]
      exact hg
    rcases clashes_of_not_matches _ _ _ _ _ _ _ _ hmatch with hclash | hclash
    · exact not_transitive_of_clashes hhead (hin a ha) (hin b hb) hclash horders
    · exact not_transitive_of_clashes hhead.symm (hin b hb) (hin a ha) hclash horders
  · exact MatchingRecords.ordersRecords

/-- A Doric nominative and a genitive, and an adverb, which has no case. -/
def nominativeEnding : GkString :=
  { GkString.zero with
    forminfo := { WordForm.zero with case_ := 1, number := 1 }, dialect := 0o200 }

def genitiveEnding : GkString :=
  { GkString.zero with forminfo := { WordForm.zero with case_ := 2, number := 1 } }

def adverbEnding : GkString := { GkString.zero with dialect := 0o10 }

/-- The genitive is before the adverb and the adverb before the nominative, which is before
the genitive. -/
theorem compGkString_cycle : ¬ OrdersRecords Set.univ := by
  intro horders
  have hle := horders.transitive genitiveEnding trivial adverbEnding trivial nominativeEnding trivial
    (by decide +kernel) (by decide +kernel)
  exact absurd hle (by decide +kernel)

end Morpheus
