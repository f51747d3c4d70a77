import Morpheus.KeyReadBack

/-!
# Sets of values read back

Dialects, regions, domains and flags have a name for each of their parts. The parts that were
written come together again.
-/
namespace Morpheus

section Masks

/-- Bit `i` of a mask. -/
def maskBit (mf : UInt32) (i : ℕ) : Bool := mf.toBitVec.getLsbD i

theorem maskBit_ext {a b : UInt32} (h : ∀ i, maskBit a i = maskBit b i) : a = b :=
  UInt32.toBitVec_inj.mp (BitVec.eq_of_getLsbD_eq fun i _ => h i)

@[simp] theorem maskBit_and (a b : UInt32) (i : ℕ) :
    maskBit (a &&& b) i = (maskBit a i && maskBit b i) := by
  simp [maskBit]

@[simp] theorem maskBit_or (a b : UInt32) (i : ℕ) :
    maskBit (a ||| b) i = (maskBit a i || maskBit b i) := by
  simp [maskBit]

@[simp] theorem maskBit_zero (i : ℕ) : maskBit 0 i = false := by
  simp [maskBit]

/-- A mask is within another one. -/
theorem and_eq_right_iff {a b : UInt32} :
    a &&& b = b ↔ ∀ i, maskBit b i = true → maskBit a i = true := by
  refine ⟨fun h i hi => ?_, fun h => maskBit_ext fun i => ?_⟩
  · rw [← h, maskBit_and, Bool.and_eq_true] at hi
    exact hi.1
  · rw [maskBit_and]
    cases hi : maskBit b i with
    | false => rw [Bool.and_false]
    | true => rw [h i hi, Bool.and_true]

theorem maskBit_clear (a b : UInt32) (i : ℕ) :
    maskBit (a &&& ~~~b) i = (maskBit a i && !maskBit b i) := by
  rw [maskBit_and]
  by_cases hi : i < 32
  · simp [maskBit, hi]
  · simp [maskBit, BitVec.getLsbD_of_ge _ i (not_lt.mp hi)]

/-- What is left of the bits behind the rows that are written. -/
def maskRest : List MorphArgs → UInt32 → UInt32
  | [], mf => mf
  | mp :: args, mf =>
    if mp.morphFlags ≠ 0 ∧ mf &&& mp.morphFlags = mp.morphFlags then
      maskRest args (mf &&& ~~~mp.morphFlags)
    else maskRest args mf

theorem maskRest_le {args : List MorphArgs} {mf : UInt32} {i : ℕ}
    (h : maskBit (maskRest args mf) i = true) : maskBit mf i = true := by
  induction args generalizing mf with
  | nil => exact h
  | cons mp args ih =>
    unfold maskRest at h
    split_ifs at h
    · have hcleared := ih h
      rw [maskBit_clear, Bool.and_eq_true] at hcleared
      exact hcleared.1
    · exact ih h

/-- A bit of the mask is in a row that is written, or left. -/
theorem maskBit_rows (args : List MorphArgs) (mf : UInt32) (i : ℕ) :
    maskBit mf i = (maskBit (orFlags (maskRows args mf)) i || maskBit (maskRest args mf) i) := by
  induction args generalizing mf with
  | nil => simp [maskRows, maskRest, orFlags]
  | cons mp args ih =>
    unfold maskRows maskRest
    split_ifs with h
    · have hcons : orFlags (mp :: maskRows args (mf &&& ~~~mp.morphFlags)) =
          mp.morphFlags ||| orFlags (maskRows args (mf &&& ~~~mp.morphFlags)) := rfl
      have hin := and_eq_right_iff.mp h.2 i
      rw [hcons, maskBit_or, Bool.or_assoc, ← ih, maskBit_clear]
      cases hbit : maskBit mp.morphFlags i with
      | false => rw [Bool.false_or, Bool.not_false, Bool.and_true]
      | true => rw [hin hbit, Bool.true_or]
    · exact ih mf

/-- No row is left whole. -/
theorem maskRest_row {args : List MorphArgs} {mp : MorphArgs} (h : mp ∈ args)
    (hne : mp.morphFlags ≠ 0) (mf : UInt32) :
    maskRest args mf &&& mp.morphFlags ≠ mp.morphFlags := by
  induction args generalizing mf with
  | nil => cases h
  | cons first args ih =>
    unfold maskRest
    rcases List.mem_cons.mp h with rfl | hmem
    · intro hwhole
      have hbits := and_eq_right_iff.mp hwhole
      split_ifs at hbits with hwritten
      · refine hne (maskBit_ext fun i => ?_)
        rw [maskBit_zero]
        by_contra hbit
        have hset := Bool.eq_true_of_not_eq_false hbit
        have hcleared := maskRest_le (hbits i hset)
        rw [maskBit_clear, hset, Bool.not_true, Bool.and_false] at hcleared
        cases hcleared
      · refine hwritten ⟨hne, and_eq_right_iff.mpr fun i hi => maskRest_le (hbits i hi)⟩
    · split_ifs
      · exact ih hmem _
      · exact ih hmem _

/-- Each bit of a row has a row of its own. -/
def HasSingleRows (args : List MorphArgs) : Prop :=
  ∀ mp ∈ args, ∀ i < 32, maskBit mp.morphFlags i = true →
    ∃ single ∈ args, single.morphFlags = 1 <<< UInt32.ofNat i

theorem orFlags_bit {rows : List MorphArgs} {i : ℕ} (h : maskBit (orFlags rows) i = true) :
    ∃ mp ∈ rows, maskBit mp.morphFlags i = true := by
  induction rows with
  | nil =>
    rw [show orFlags [] = 0 from rfl, maskBit_zero] at h
    cases h
  | cons mp rows ih =>
    rw [show orFlags (mp :: rows) = mp.morphFlags ||| orFlags rows from rfl, maskBit_or,
      Bool.or_eq_true] at h
    rcases h with hbit | hrest
    · exact ⟨mp, List.mem_cons_self, hbit⟩
    · obtain ⟨other, hother, hbit⟩ := ih hrest
      exact ⟨other, List.mem_cons_of_mem _ hother, hbit⟩

theorem maskBit_single {i : ℕ} (hi : i < 32) (j : ℕ) :
    maskBit (1 <<< UInt32.ofNat i) j = decide (j = i) := by
  have hbits : ((1 : UInt32) <<< UInt32.ofNat i).toBitVec = BitVec.twoPow 32 i := by
    interval_cases i <;> rfl
  rw [maskBit, hbits, BitVec.getLsbD_twoPow]
  simp [hi, eq_comm]

/-- A mask of registered rows is written whole. -/
theorem orFlags_maskRows {args rows : List MorphArgs} {mf : UInt32} (hsingle : HasSingleRows args)
    (hrows : rows ⊆ args) (hmf : mf = orFlags rows) : orFlags (maskRows args mf) = mf := by
  refine maskBit_ext fun i => ?_
  rw [maskBit_rows args mf i]
  cases hrest : maskBit (maskRest args mf) i with
  | false => rw [Bool.or_false]
  | true =>
    have hset := maskRest_le hrest
    rw [hmf] at hset
    obtain ⟨mp, hmp, hbit⟩ := orFlags_bit hset
    have hi : i < 32 := by
      by_contra hge
      rw [maskBit, BitVec.getLsbD_of_ge _ i (not_lt.mp hge)] at hbit
      cases hbit
    obtain ⟨single, hin, hflags⟩ := hsingle mp (hrows hmp) i hi hbit
    have hone : maskBit single.morphFlags i = true := by
      rw [hflags, maskBit_single hi]
      exact decide_eq_true rfl
    have hne : single.morphFlags ≠ 0 := by
      intro hzero
      rw [hzero, maskBit_zero] at hone
      cases hone
    refine absurd (and_eq_right_iff.mpr fun j hj => ?_) (maskRest_row hin hne mf)
    rw [hflags, maskBit_single hi, decide_eq_true_eq] at hj
    rw [hj, hrest]

theorem argDialect_single : HasSingleRows argDialect := by
  unfold HasSingleRows
  decide +kernel

theorem argGeogregion_single : HasSingleRows argGeogregion := by
  unfold HasSingleRows
  decide +kernel

theorem addRows_dialect_eq {rows : List MorphArgs} (h : ∀ mp ∈ rows, mp.addVal = .dialect)
    (gstr : GkString) :
    (addRows rows gstr).dialect = gstr.dialect ||| (orFlags rows).toUInt16 := by
  induction rows generalizing gstr with
  | nil => exact (UInt16.or_zero).symm
  | cons mp rows ih =>
    obtain ⟨hmp, hrows⟩ := List.forall_mem_cons.mp h
    have hadd : mp.add gstr = newDialect gstr mp.morphFlags := by
      unfold MorphArgs.add
      rw [hmp]
    have hcons : orFlags (mp :: rows) = mp.morphFlags ||| orFlags rows := rfl
    rw [addRows, List.foldl_cons, hadd]
    refine (ih hrows _).trans ?_
    rw [hcons, UInt32.toUInt16_or, ← UInt16.or_assoc]
    rfl

theorem addRows_region_eq {rows : List MorphArgs} (h : ∀ mp ∈ rows, mp.addVal = .region)
    (gstr : GkString) : (addRows rows gstr).geogregion = gstr.geogregion ||| orFlags rows := by
  induction rows generalizing gstr with
  | nil => exact (UInt32.or_zero).symm
  | cons mp rows ih =>
    obtain ⟨hmp, hrows⟩ := List.forall_mem_cons.mp h
    have hadd : mp.add gstr = newRegion gstr mp.morphFlags := by
      unfold MorphArgs.add
      rw [hmp]
    have hcons : orFlags (mp :: rows) = mp.morphFlags ||| orFlags rows := rfl
    rw [addRows, List.foldl_cons, hadd]
    refine (ih hrows _).trans ?_
    rw [hcons, ← UInt32.or_assoc]
    rfl

variable {tables : KeyTables} {gstr : GkString}

theorem addRows_dialect (h : Registered tables gstr) :
    (addRows (keyRows tables gstr) .zero).dialect = gstr.dialect := by
  obtain ⟨rows, hrows, hflags⟩ := h.dialect
  have hsection : (KeyField.dialect, maskRows argDialect gstr.dialect.toUInt32) ∈
      keySections tables gstr := by simp [keySections]
  have hown := keySections_own hsection
  refine (addRows_section hsection).trans ((addRows_dialect_eq hown _).trans ?_)
  dsimp only
  rw [orFlags_maskRows argDialect_single hrows hflags]
  exact (UInt16.zero_or).trans (UInt16.toUInt16_toUInt32 _)

theorem addRows_region (h : Registered tables gstr) :
    (addRows (keyRows tables gstr) .zero).geogregion = gstr.geogregion := by
  obtain ⟨rows, hrows, hflags⟩ := h.region
  have hsection : (KeyField.region, maskRows argGeogregion gstr.geogregion) ∈
      keySections tables gstr := by simp [keySections]
  have hown := keySections_own hsection
  refine (addRows_section hsection).trans ((addRows_region_eq hown _).trans ?_)
  dsimp only
  rw [orFlags_maskRows argGeogregion_single hrows hflags]
  exact UInt32.zero_or

end Masks

section Domains
variable {tables : KeyTables} {gstr : GkString}

/-- The domains of a set, added in their order, make the set. -/
theorem addDomains_self {domains rest : Bytes} (h : DomainSet (domains ++ rest)) :
    addDomains domains (rest.map fun d => (d.toNat : ℤ)) = domains ++ rest := by
  induction rest generalizing domains with
  | nil => rw [List.map_nil, List.append_nil, addDomains, List.foldl_nil]
  | cons d rest ih =>
    have hnul := (nulFree_cons.mp (nulFree_append.mp h.nulFree).2).1
    have hpos : 0 < d.toNat := Nat.pos_of_ne_zero fun h0 => hnul (UInt8.toNat_inj.mp h0)
    have hlt : d.toNat < 256 := d.toNat_lt
    have hnew : d ∉ domains := fun hmem =>
      (List.nodup_append.mp h.nodup).2.2 d hmem d List.mem_cons_self rfl
    have hfits := h.fits
    rw [List.length_append, List.length_cons] at hfits
    have hrange : ¬ ((d.toNat : ℤ) ≤ 0 ∨ 255 < (d.toNat : ℤ)) := by omega
    have hroom : ¬ maxDomains ≤ domains.length := by omega
    have hadd : (addDomain domains (d.toNat : ℤ)).1 = domains ++ [d] := by
      unfold addDomain
      rw [if_neg hrange]
      dsimp only
      rw [Int.toNat_natCast, UInt8.ofNat_toNat, if_neg hroom, if_neg hnew]
    rw [List.map_cons, addDomains, List.foldl_cons, hadd]
    have hsplit : domains ++ d :: rest = (domains ++ [d]) ++ rest := by
      rw [List.append_assoc, List.singleton_append]
    rw [hsplit] at h ⊢
    exact ih h

/-- A domain of a set that was built is one of the numbers, as long as it is one byte. -/
theorem mem_addDomains {domains : Bytes} {ns : List ℤ} {d : Byte} (h : d ∈ addDomains domains ns) :
    d ∈ domains ∨ ∃ n ∈ ns, n ≤ 255 ∧ d = UInt8.ofNat n.toNat := by
  induction ns generalizing domains with
  | nil => exact .inl h
  | cons n ns ih =>
    rw [addDomains, List.foldl_cons] at h
    rcases ih h with hfirst | ⟨other, hother, hle⟩
    · unfold addDomain at hfirst
      dsimp only at hfirst
      split_ifs at hfirst with hrange hfull hold
      · exact .inl hfirst
      · exact .inl hfirst
      · exact .inl hfirst
      · rcases List.mem_append.mp hfirst with hin | hnew
        · exact .inl hin
        · have hn : n ≤ 255 := by omega
          exact .inr ⟨n, List.mem_cons_self, hn, List.mem_singleton.mp hnew⟩
    · exact .inr ⟨other, List.mem_cons_of_mem _ hother, hle⟩

theorem addRows_domains_eq {rows : List MorphArgs} (h : ∀ mp ∈ rows, mp.addVal = .domain)
    (gstr : GkString) : (addRows rows gstr).domains =
      addDomains gstr.domains (rows.map fun mp => (mp.morphFlags.toNat : ℤ)) := by
  induction rows generalizing gstr with
  | nil => rfl
  | cons mp rows ih =>
    obtain ⟨hmp, hrows⟩ := List.forall_mem_cons.mp h
    have hadd : mp.add gstr = newDomain gstr mp.morphFlags := by
      unfold MorphArgs.add
      rw [hmp]
    rw [addRows, List.foldl_cons, hadd]
    exact ih hrows _

theorem addRows_domains : (addRows (keyRows tables gstr) .zero).domains =
    addDomains [] ((domainRows tables gstr).map fun mp => (mp.morphFlags.toNat : ℤ)) := by
  have hsection : (KeyField.domain, domainRows tables gstr) ∈ keySections tables gstr := by
    simp [keySections]
  have hsame : (addRows (keyRows tables gstr) .zero).domains =
      (addRows (domainRows tables gstr) .zero).domains := addRows_section hsection
  exact hsame.trans (addRows_domains_eq (keySections_own hsection) _)

theorem domainNumber_toNat {d : Byte} (h : d < 128) : (domainNumber d).toNat = d.toNat := by
  unfold domainNumber
  rw [if_pos h, UInt8.toNat_toUInt32]

/-- Domains below 128 are read back. -/
theorem addRows_domains_low (h : Registered tables gstr) (hset : DomainSet gstr.domains)
    (hlow : ∀ d ∈ gstr.domains, d < 128) :
    (addRows (keyRows tables gstr) .zero).domains = gstr.domains := by
  have hnumbers (domains : Bytes) (hin : ∀ d ∈ domains, d ∈ gstr.domains) :
      (domains.filterMap fun p => firstRow (domainNumber p) tables.argDomain).map
        (fun mp => (mp.morphFlags.toNat : ℤ)) = domains.map fun d => (d.toNat : ℤ) := by
    induction domains with
    | nil => rfl
    | cons d domains ih =>
      obtain ⟨hd, hdomains⟩ := List.forall_mem_cons.mp hin
      have hnumber := domainNumber_toNat (hlow d hd)
      have hne : domainNumber d ≠ 0 := by
        intro hzero
        rw [hzero] at hnumber
        have hnul : d = 0 := UInt8.toNat_inj.mp hnumber.symm
        exact hset.nulFree (hnul ▸ hd)
      obtain ⟨mp, hmp, hflags⟩ := h.domains d hd
      obtain ⟨row, hrow⟩ := exists_firstRow hne ⟨mp, hmp, by
        rw [hflags, domainNumber, if_pos (hlow d hd)]⟩
      have hcons := @List.filterMap_cons_some _ _
        (fun p => firstRow (domainNumber p) tables.argDomain) d domains row hrow
      rw [hcons, List.map_cons, List.map_cons, ih hdomains,
        (firstRow_mem hrow).2, hnumber]
  have hself := @addDomains_self [] gstr.domains hset
  rw [addRows_domains, domainRows, hnumbers _ fun d hd => hd]
  exact hself

/-- A domain from 128 on is never read back. -/
theorem addRows_domains_high {d : Byte} (h : d ∈ (addRows (keyRows tables gstr) .zero).domains) :
    d < 128 := by
  rw [addRows_domains] at h
  rcases mem_addDomains h with hnil | ⟨n, hn, hle, rfl⟩
  · cases hnil
  · obtain ⟨mp, hmp, rfl⟩ := List.mem_map.mp hn
    obtain ⟨p, -, hp⟩ := List.mem_filterMap.mp hmp
    rw [(firstRow_mem hp).2] at hle ⊢
    by_cases hlow : p < 128
    · rw [Int.toNat_natCast, domainNumber_toNat hlow, UInt8.ofNat_toNat]
      exact hlow
    · exfalso
      have hbig : 0xFFFFFF00 ≤ (domainNumber p).toNat := by
        unfold domainNumber
        rw [if_neg hlow, UInt32.toNat_or]
        exact Nat.left_le_or
      omega

end Domains

section Flags
variable {tables : KeyTables} {gstr : GkString}

/-- The flags of rows are added. -/
theorem addRows_flags_eq {rows : List MorphArgs}
    (h : ∀ mp ∈ rows, mp.addVal = .morphflags ∧ ∃ m < 112, mp.morphFlags = UInt32.ofNat (m + 1))
    {k : ℕ} (hk : k < 112) (gstr : GkString) : flagAt (addRows rows gstr).morphflags k =
      (flagAt gstr.morphflags k || rows.any fun mp => mp.morphFlags = UInt32.ofNat (k + 1)) := by
  induction rows generalizing gstr with
  | nil => rw [List.any_nil, Bool.or_false, addRows, List.foldl_nil]
  | cons mp rows ih =>
    obtain ⟨⟨hmp, m, hm, hflags⟩, hrows⟩ := List.forall_mem_cons.mp h
    have hnumber (n : ℕ) (hn : n < 112) : (UInt32.ofNat (n + 1)).toNat = n + 1 := by
      rw [UInt32.toNat_ofNat', Nat.mod_eq_of_lt (by omega)]
    have hadd : (mp.add gstr).morphflags = addMorphflag gstr.morphflags (m + 1) := by
      unfold MorphArgs.add
      rw [hmp]
      dsimp only
      rw [newMorphflags, hflags, hnumber m hm]
    have hsame : decide (mp.morphFlags = UInt32.ofNat (k + 1)) = decide (k = m) := by
      refine decide_eq_decide.mpr ⟨fun heq => ?_, fun heq => by rw [hflags, heq]⟩
      have hnat := congrArg UInt32.toNat heq
      rw [hflags, hnumber m hm, hnumber k hk] at hnat
      omega
    rw [addRows, List.foldl_cons]
    refine (ih hrows _).trans ?_
    rw [hadd, flagAt_addMorphflag _ hm, List.any_cons, hsame, Bool.or_assoc]

/-- The flags of the first `MORPHFLAG_BYTES` bytes are read back, and no others. -/
theorem addRows_morphflags (h : Registered tables gstr) {k : ℕ} (hk : k < 112) :
    flagAt (addRows (keyRows tables gstr) .zero).morphflags k =
      (flagAt gstr.morphflags k && decide (k < 8 * morphflagBytes)) := by
  have hsection : (KeyField.morphflags, flagRows gstr) ∈ keySections tables gstr := by
    simp [keySections]
  have hsame : (addRows (keyRows tables gstr) .zero).morphflags =
      (addRows (flagRows gstr) .zero).morphflags := addRows_section hsection
  have hrow {mp : MorphArgs} (hmp : mp ∈ flagRows gstr) : ∃ m < 8 * morphflagBytes,
      flagAt gstr.morphflags m = true ∧ mp.morphFlags = UInt32.ofNat (m + 1) := by
    obtain ⟨m, hm, hfirst⟩ := List.mem_filterMap.mp hmp
    split_ifs at hfirst with hflag
    exact ⟨m, List.mem_range.mp hm, hflag, (firstRow_mem hfirst).2⟩
  have hnone : flagAt GkString.zero.morphflags k = false := by
    unfold flagAt
    rw [dif_pos hk]
    exact BitVec.getLsbD_zero
  have hflags : ∀ mp ∈ flagRows gstr, mp.addVal = .morphflags ∧
      ∃ m < 112, mp.morphFlags = UInt32.ofNat (m + 1) := fun mp hmp => by
    obtain ⟨m, hm, -, heq⟩ := hrow hmp
    exact ⟨keySections_own hsection mp hmp, m, hm.trans (by decide), heq⟩
  rw [hsame, addRows_flags_eq hflags hk, hnone, Bool.false_or]
  refine Bool.eq_iff_iff.mpr ⟨fun hany => ?_, fun hboth => ?_⟩
  · obtain ⟨mp, hmp, heq⟩ := List.any_eq_true.mp hany
    obtain ⟨m, hm, hflag, hvalue⟩ := hrow hmp
    have hall : m < 112 := hm.trans (by decide)
    have hnat := congrArg UInt32.toNat (hvalue.symm.trans (of_decide_eq_true heq))
    rw [UInt32.toNat_ofNat', UInt32.toNat_ofNat', Nat.mod_eq_of_lt (by omega),
      Nat.mod_eq_of_lt (by omega)] at hnat
    have hmk : m = k := by omega
    rw [← hmk, hflag, Bool.true_and, decide_eq_true_eq]
    exact hm
  · rw [Bool.and_eq_true, decide_eq_true_eq] at hboth
    obtain ⟨mp, hmp, hvalue⟩ := h.morphflags k hboth.1
    have hne : UInt32.ofNat (k + 1) ≠ 0 := by
      intro hzero
      have hnat := congrArg UInt32.toNat hzero
      rw [UInt32.toNat_ofNat', Nat.mod_eq_of_lt (by omega)] at hnat
      exact Nat.succ_ne_zero k hnat
    obtain ⟨row, hfirst⟩ := exists_firstRow hne ⟨mp, hmp, hvalue⟩
    refine List.any_eq_true.mpr ⟨row, List.mem_filterMap.mpr ⟨k, List.mem_range.mpr hboth.2, ?_⟩,
      decide_eq_true (firstRow_mem hfirst).2⟩
    rw [if_pos hboth.1, hfirst]

end Flags

end Morpheus
