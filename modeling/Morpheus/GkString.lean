import Morpheus.CString
import Mathlib.Data.BitVec
import Mathlib.Logic.Function.Basic
import Mathlib.Tactic.IntervalCases

/-!
# Morphological records

The `gk_string` record of `gkstring.h` with the operations on its flag bytes
(`morphflags.c`) and on its domain set (`adddomain.c`). Texts are the C strings in
their buffers.
-/
namespace Morpheus

/-- `MAXDOMAINS`. -/
abbrev maxDomains : ℕ := 20

/-- `MORPHFLAG_BYTES`. -/
abbrev morphflagBytes : ℕ := 12

/-- `GROUP_NAME`. -/
abbrev groupName : ℕ := 110

/-- `UNAUGMENTED` -/
def unaugmented : ℕ := 21

/-- The bit-fields of `word_form`. -/
structure WordForm where
  voice : BitVec 3
  mood : BitVec 4
  tense : BitVec 4
  person : BitVec 3
  number : BitVec 3
  case_ : BitVec 6
  degree : BitVec 2
  gender : BitVec 4
  deriving DecidableEq, Repr

/-- The flag bytes `gs_morphflags`, `MORPHFLAG_STORAGE_BYTES` of them; flags are
numbered from 1 to `MORPHFLAG_MAX = 112`. -/
abbrev MorphFlags := Fin 14 → Byte

structure GkString where
  forminfo : WordForm
  stemtype : UInt32
  derivtype : UInt32
  dialect : UInt16
  geogregion : UInt32
  morphflags : MorphFlags
  domains : Bytes
  gkstring : Bytes
  deriving DecidableEq

/-- `gk_word` without its analyses and display options. -/
structure GkWord where
  forminfo : WordForm
  stemtype : UInt32
  derivtype : UInt32
  dialect : UInt16
  geogregion : UInt32
  morphflags : MorphFlags
  domains : Bytes
  stLemma : Bytes
  preverb : GkString
  aug1 : GkString
  stem : GkString
  suffix : GkString
  endstring : GkString
  rawprvb : Bytes
  rawword : Bytes
  workword : Bytes
  crasis : Bytes
  deriving DecidableEq

/-- `gk_analysis` -/
structure GkAnalysis where
  forminfo : WordForm
  stemtype : UInt32
  derivtype : UInt32
  dialect : UInt16
  geogregion : UInt32
  morphflags : MorphFlags
  domains : Bytes
  stLemma : Bytes
  dictform : Bytes
  engform : Bytes
  preverb : GkString
  aug1 : GkString
  stem : GkString
  suffix : GkString
  endstring : GkString
  rawprvb : Bytes
  rawword : Bytes
  workword : Bytes
  crasis : Bytes
  z : Bytes
  deriving DecidableEq

/-- A cleared `word_form`. -/
def WordForm.zero : WordForm := ⟨0, 0, 0, 0, 0, 0, 0, 0⟩

/-- A cleared record. -/
def GkString.zero : GkString := ⟨.zero, 0, 0, 0, 0, fun _ => 0, [], []⟩

def GkWord.zero : GkWord :=
  ⟨.zero, 0, 0, 0, 0, fun _ => 0, [], [], .zero, .zero, .zero, .zero, .zero, [], [], [], []⟩

def GkAnalysis.zero : GkAnalysis :=
  ⟨.zero, 0, 0, 0, 0, fun _ => 0, [], [], [], [], .zero, .zero, .zero, .zero, .zero,
    [], [], [], [], []⟩

/-- `mflag_num_to_bits`: the byte and the bit of a flag number. -/
def mflagNumToBits (n : ℕ) : Option (Fin 14 × Byte) :=
  if h : n = 0 ∨ 112 < n then none
  else if h8 : n % 8 = 0 then some (⟨n / 8 - 1, by omega⟩, 0o200)
  else some (⟨n / 8, by omega⟩, 1 <<< UInt8.ofNat (n % 8 - 1))

/-- `has_morphflag` -/
def hasMorphflag (Mf : MorphFlags) (n : ℕ) : Bool :=
  match mflagNumToBits n with
  | none => false
  | some (index, setbit) => Mf index &&& setbit != 0

/-- `add_morphflag` -/
def addMorphflag (Mf : MorphFlags) (n : ℕ) : MorphFlags :=
  match mflagNumToBits n with
  | none => Mf
  | some (index, setbit) => Function.update Mf index (Mf index ||| setbit)

/-- `zap_morphflag` -/
def zapMorphflag (Mf : MorphFlags) (n : ℕ) : MorphFlags :=
  match mflagNumToBits n with
  | none => Mf
  | some (index, setbit) => Function.update Mf index (Mf index &&& ~~~setbit)

/-- `add_morphflags` -/
def addMorphflags (Mf flags : MorphFlags) : MorphFlags := fun i => Mf i ||| flags i

/-- `Is_group_name` -/
def isGroupName (Mf : MorphFlags) : Bool := hasMorphflag Mf groupName

/-- The bit of flag `k + 1`. -/
def flagAt (Mf : MorphFlags) (k : ℕ) : Bool :=
  if h : k < 112 then (Mf ⟨k / 8, by omega⟩).toBitVec.getLsbD (k % 8) else false

/-- Flag `k + 1` is bit `k % 8` of byte `k / 8`. -/
theorem mflagNumToBits_succ {k : ℕ} (hk : k < 112) :
    mflagNumToBits (k + 1) = some (⟨k / 8, by omega⟩, 1 <<< UInt8.ofNat (k % 8)) := by
  have h : ¬ (k + 1 = 0 ∨ 112 < k + 1) := by omega
  by_cases h8 : (k + 1) % 8 = 0
  · have hi : (k + 1) / 8 - 1 = k / 8 := by omega
    have hb : k % 8 = 7 := by omega
    simp only [mflagNumToBits, h, h8, hi, hb, ↓reduceDIte]
    rfl
  · have hi : (k + 1) / 8 = k / 8 := by omega
    have hb : (k + 1) % 8 - 1 = k % 8 := by omega
    simp [mflagNumToBits, Nat.not_lt.mpr (Nat.succ_le_of_lt hk), h8, hi, hb]

theorem mflagNumToBits_of_gt {k : ℕ} (hk : ¬ k < 112) :
    mflagNumToBits (k + 1) = none := by
  simp only [mflagNumToBits]
  rw [dif_pos]
  omega

private theorem bit_toBitVec {j : ℕ} (hj : j < 8) :
    ((1 : UInt8) <<< UInt8.ofNat j).toBitVec = BitVec.twoPow 8 j := by
  interval_cases j <;> rfl

private theorem and_bit_ne_zero (b : Byte) {j : ℕ} (hj : j < 8) :
    (b &&& 1 <<< UInt8.ofNat j != 0) = b.toBitVec.getLsbD j := by
  have hne : BitVec.twoPow 8 j ≠ 0#8 := by
    intro h0
    have hbit := congrArg (fun x => x.getLsbD j) h0
    simp [hj] at hbit
  have h : (b &&& 1 <<< UInt8.ofNat j) = 0 ↔ b.toBitVec &&& BitVec.twoPow 8 j = 0#8 := by
    rw [← UInt8.toBitVec_inj, UInt8.toBitVec_and, bit_toBitVec hj]
    rfl
  rw [BitVec.and_twoPow] at h
  cases hb : b.toBitVec.getLsbD j with
  | false => simpa [hb] using h
  | true => simpa [hb, hne] using h

theorem hasMorphflag_succ (Mf : MorphFlags) (k : ℕ) :
    hasMorphflag Mf (k + 1) = flagAt Mf k := by
  by_cases hk : k < 112
  · simp only [hasMorphflag, mflagNumToBits_succ hk, flagAt, hk, ↓reduceDIte]
    exact and_bit_ne_zero _ (Nat.mod_lt _ (by norm_num))
  · simp only [hasMorphflag, mflagNumToBits_of_gt hk, flagAt, hk, ↓reduceDIte]

theorem flagAt_of_ge (Mf : MorphFlags) {k : ℕ} (hk : ¬ k < 112) :
    flagAt Mf k = false := by
  simp [flagAt, hk]

/-- Flag bytes are equal when they hold the same flags. -/
theorem morphFlags_ext {Mf Mf' : MorphFlags}
    (h : ∀ k < 112, flagAt Mf k = flagAt Mf' k) : Mf = Mf' := by
  funext i
  apply UInt8.toBitVec_inj.mp
  apply BitVec.eq_of_getLsbD_eq
  intro j hj
  have hk : 8 * (i : ℕ) + j < 112 := by omega
  have hi : (8 * (i : ℕ) + j) / 8 = i := by omega
  have hm : (8 * (i : ℕ) + j) % 8 = j := by omega
  simpa [flagAt, hk, hi, hm] using h _ hk

theorem flagAt_addMorphflag (Mf : MorphFlags) {m k : ℕ} (hm : m < 112) :
    flagAt (addMorphflag Mf (m + 1)) k = (flagAt Mf k || decide (k = m)) := by
  by_cases hk : k < 112
  · simp only [addMorphflag, mflagNumToBits_succ hm, flagAt, hk, ↓reduceDIte]
    by_cases hi : k / 8 = m / 8
    · have hkm : k = m ↔ k % 8 = m % 8 := by omega
      have h8 : m % 8 < 8 := Nat.mod_lt _ (by norm_num)
      simp only [hi, Function.update_self, UInt8.toBitVec_or, BitVec.getLsbD_or]
      rw [bit_toBitVec (Nat.mod_lt _ (by norm_num)), BitVec.getLsbD_twoPow]
      simp [hkm, h8, eq_comm]
    · have hne : k ≠ m := fun h => hi (by rw [h])
      rw [Function.update_of_ne (by simpa [Fin.ext_iff] using hi)]
      simp [hne]
  · have hne : k ≠ m := by omega
    simp [flagAt_of_ge _ hk, hne]

theorem flagAt_zapMorphflag (Mf : MorphFlags) {m k : ℕ} (hm : m < 112) :
    flagAt (zapMorphflag Mf (m + 1)) k = (flagAt Mf k && decide (k ≠ m)) := by
  by_cases hk : k < 112
  · simp only [zapMorphflag, mflagNumToBits_succ hm, flagAt, hk, ↓reduceDIte]
    by_cases hi : k / 8 = m / 8
    · have hkm : k = m ↔ k % 8 = m % 8 := by omega
      have h8 : m % 8 < 8 := Nat.mod_lt _ (by norm_num)
      simp only [hi, Function.update_self, UInt8.toBitVec_and, UInt8.toBitVec_not,
        BitVec.getLsbD_and, BitVec.getLsbD_not]
      rw [bit_toBitVec (Nat.mod_lt _ (by norm_num)), BitVec.getLsbD_twoPow]
      have hk8 : k % 8 < 8 := Nat.mod_lt _ (by norm_num)
      simp [hkm, h8, hk8, eq_comm]
    · have hne : k ≠ m := fun h => hi (by rw [h])
      rw [Function.update_of_ne (by simpa [Fin.ext_iff] using hi)]
      simp [hne]
  · simp [flagAt_of_ge _ hk]

theorem flagAt_addMorphflags (Mf flags : MorphFlags) (k : ℕ) :
    flagAt (addMorphflags Mf flags) k = (flagAt Mf k || flagAt flags k) := by
  by_cases hk : k < 112
  · simp [flagAt, addMorphflags, hk]
  · simp [flagAt_of_ge _ hk]

/-- `add_domain` of `n` to a set: the set afterwards and the return value. -/
def addDomain (domains : Bytes) (n : Int) : Bytes × Int :=
  if n ≤ 0 ∨ 255 < n then (domains, -1)
  else
    let domain := UInt8.ofNat n.toNat
    if maxDomains ≤ domains.length then (domains, -1)
    else if domain ∈ domains then (domains, 0)
    else (domains ++ [domain], 1)

/-- Domains added one after the other. -/
def addDomains (domains : Bytes) (ns : List Int) : Bytes :=
  ns.foldl (fun domains n => (addDomain domains n).1) domains

/-- What `add_domain` keeps: distinct non-zero bytes that fit their buffer. -/
structure DomainSet (domains : Bytes) : Prop where
  nulFree : NulFree domains
  nodup : domains.Nodup
  fits : domains.length ≤ maxDomains

theorem domainSet_nil : DomainSet [] := ⟨nulFree_nil, List.nodup_nil, by simp⟩

theorem DomainSet.addDomain {domains : Bytes} (h : DomainSet domains) (n : Int) :
    DomainSet (addDomain domains n).1 := by
  simp only [Morpheus.addDomain]
  split
  · exact h
  · rename_i hn
    split
    · exact h
    · rename_i hroom
      split
      · exact h
      · rename_i hnew
        have hne : UInt8.ofNat n.toNat ≠ 0 := by
          intro h0
          have h1 := congrArg UInt8.toNat h0
          simp only [UInt8.toNat_ofNat', UInt8.toNat_zero] at h1
          omega
        constructor
        · simp [h.nulFree, hne]
        · rw [List.nodup_append]
          exact ⟨h.nodup, by simp, by
            intro a ha b hb hab
            rw [List.mem_singleton.mp hb] at hab
            exact hnew (hab ▸ ha)⟩
        · simp only [List.length_append, List.length_singleton]
          omega

/-- Domain sets built from a domain set. -/
theorem DomainSet.addDomains {domains : Bytes} (h : DomainSet domains) (ns : List Int) :
    DomainSet (addDomains domains ns) := by
  induction ns generalizing domains with
  | nil => exact h
  | cons n ns ih => exact ih (h.addDomain n)

end Morpheus
