import Morpheus.KeyMasks

/-!
# Round trip of the keys of a stem

The keys that `dump_curstem` writes for a record give the record again when `ScanAsciiKeys` reads
them, except for flags that `MorphNames` does not reach and for domains that `DomainNames` takes for
negative.
-/
namespace Morpheus

section Scan
variable {tables : KeyTables} {gstr : GkString}

/-- The keys that `ScanAsciiKeys` does not look up. -/
def reservedKeys : List Bytes := [ascii "not", ascii "crasis", ascii "pb", ascii "rpb"]

theorem keyTurn_row (honce : tables.NamesOnce) {mp : MorphArgs} (h : mp ∈ tables.definitions)
    (hkey : mp.morphKey ∉ reservedKeys) (scan : KeyReading) (following : Bytes) :
    keyTurn tables scan mp.morphKey following = .next (scan.update mp.add) false := by
  simp only [reservedKeys, List.mem_cons, List.not_mem_nil, or_false, not_or] at hkey
  obtain ⟨hnot, hcrasis, hpb, hrpb⟩ := hkey
  have hflag : getGkFlag tables mp.morphKey scan = some (scan.update mp.add) := by
    unfold getGkFlag
    rw [matchMorphKey_eq honce h]
  unfold keyTurn
  rw [if_neg hnot, if_neg hcrasis, if_neg hpb, if_neg hrpb, hflag, Option.getD_some]

/-- The names of rows set the values of the rows. -/
theorem scanWords_rows (honce : tables.NamesOnce) {rows : List MorphArgs}
    (hrows : ∀ mp ∈ rows, mp ∈ tables.definitions ∧ mp.morphKey ∉ reservedKeys)
    {scan : KeyReading} (hwant : scan.avoiding = false) :
    scanWords tables (rows.map MorphArgs.morphKey) false scan =
      { scan with want := addRows rows scan.want } := by
  induction rows generalizing scan with
  | nil => rfl
  | cons mp rows ih =>
    obtain ⟨⟨hmp, hkey⟩, hrest⟩ := List.forall_mem_cons.mp hrows
    have hupdate : scan.update mp.add = { scan with want := mp.add scan.want } := by
      unfold KeyReading.update
      rw [hwant]
      rfl
    rw [List.map_cons, scanWords, keyTurn_row honce hmp hkey, hupdate]
    exact ih hrest hwant

/-- Moving the preverb flags keeps each flag in one of the two places. -/
theorem addMorphflags_xferPrvbflags (wordMf prvbMf : MorphFlags) :
    addMorphflags (xferPrvbflags wordMf prvbMf).1 (xferPrvbflags wordMf prvbMf).2 =
      addMorphflags wordMf prvbMf := by
  unfold xferPrvbflags
  have hrange : ∀ k ∈ List.range 112, k < 112 := fun k hk => List.mem_range.mp hk
  revert hrange
  generalize List.range 112 = places
  intro hrange
  induction places generalizing wordMf prvbMf with
  | nil => rfl
  | cons k places ih =>
    obtain ⟨hk, hplaces⟩ := List.forall_mem_cons.mp hrange
    rw [List.foldl_cons]
    split_ifs with hmove
    · rw [ih _ _ hplaces]
      rw [Bool.and_eq_true, hasMorphflag_succ] at hmove
      refine morphFlags_ext fun j _ => ?_
      rw [flagAt_addMorphflags, flagAt_addMorphflags, flagAt_zapMorphflag _ hk,
        flagAt_addMorphflag _ hk]
      by_cases hjk : j = k
      · rw [hjk, hmove.2, decide_eq_true (rfl : k = k), Bool.or_true, Bool.or_true, Bool.true_or]
      · rw [decide_eq_true (show j ≠ k from hjk), decide_eq_false hjk, Bool.and_true,
          Bool.or_false]
    · exact ih _ _ hplaces

/-- What `ScanAsciiKeys` makes of the text of a record, read into empty records. -/
def readKeys (tables : KeyTables) (text : Bytes) (avoid : Option GkString) : KeyReading :=
  scanAsciiKeys tables (colonsToBlanks text) .zero .zero avoid

/-- The record is read back, its preverb flags where they are moved. -/
structure ReadsBack (gstr : GkString) (read : KeyReading) : Prop where
  stemtype : read.want.stemtype = gstr.stemtype
  derivtype : read.want.derivtype = gstr.derivtype
  forminfo : read.want.forminfo = gstr.forminfo
  dialect : read.want.dialect = gstr.dialect
  geogregion : read.want.geogregion = gstr.geogregion
  domains : read.want.domains = gstr.domains
  morphflags : (read.want.morphflags, read.gkword.preverb.morphflags) =
    xferPrvbflags gstr.morphflags fun _ => 0

/-- The written names are read as they are: no delimiter stands in them, and none has a meaning
of its own. -/
def PlainNames (tables : KeyTables) (gstr : GkString) : Prop :=
  ∀ mp ∈ keyRows tables gstr, 58 ∉ mp.morphKey ∧ mp.morphKey ∉ reservedKeys

/-- The text of a record sets what its written rows set. -/
theorem readKeys_eq (honce : tables.NamesOnce) (hplain : PlainNames tables gstr)
    {buf text : Bytes} {capacity : ℕ}
    (hwritten : sprintGkFlags tables gstr buf capacity [58] false = some (buf ++ text))
    (hfits : text.length < longString) (avoid : Option GkString) :
    readKeys tables text avoid =
      rearrangeMorphflags ⟨.zero, [], addRows (keyRows tables gstr) .zero, avoid, false⟩ := by
  obtain ⟨text', hsplit, hpieces⟩ := sprintGkFlags_pieces hwritten
  obtain rfl := List.append_cancel_left hsplit
  have hnames : ∀ name ∈ (keyRows tables gstr).map MorphArgs.morphKey, IsPlainName name := by
    intro name hname
    obtain ⟨mp, hmp, rfl⟩ := List.mem_map.mp hname
    exact ⟨(definitions_key (keyRows_subset hmp)).1, (hplain mp hmp).1⟩
  have hlength : (colonsToBlanks text).length < longString := by
    unfold colonsToBlanks
    rwa [List.length_map]
  unfold readKeys scanAsciiKeys
  rw [xstrncpy_of_lt hlength, keyWords_pieces hpieces hnames, scanWords_rows honce
    (fun mp hmp => ⟨keyRows_subset hmp, (hplain mp hmp).2⟩) rfl]
  rfl

/-- The flags of the record that is read are those of the rows. -/
theorem readKeys_morphflags (honce : tables.NamesOnce) (hplain : PlainNames tables gstr)
    {buf text : Bytes} {capacity : ℕ}
    (hwritten : sprintGkFlags tables gstr buf capacity [58] false = some (buf ++ text))
    (hfits : text.length < longString) (avoid : Option GkString) :
    ((readKeys tables text avoid).want.morphflags,
      (readKeys tables text avoid).gkword.preverb.morphflags) =
        xferPrvbflags (addRows (keyRows tables gstr) .zero).morphflags fun _ => 0 := by
  have hzero : xferPrvbflags (fun _ => 0) (fun _ => 0) = (fun _ => 0, fun _ => 0) := by
    decide +kernel
  rw [readKeys_eq honce hplain hwritten hfits]
  unfold rearrangeMorphflags
  rw [show GkWord.zero.morphflags = fun _ => 0 from rfl,
    show GkWord.zero.preverb.morphflags = fun _ => 0 from rfl, hzero]

/-- A record that is read back has no flag behind the bytes that `MorphNames` writes. -/
theorem ReadsBack.flag_low (honce : tables.NamesOnce) (h : Registered tables gstr)
    (hplain : PlainNames tables gstr) {buf text : Bytes} {capacity : ℕ}
    (hwritten : sprintGkFlags tables gstr buf capacity [58] false = some (buf ++ text))
    (hfits : text.length < longString) {avoid : Option GkString}
    (hread : ReadsBack gstr (readKeys tables text avoid)) {k : ℕ}
    (hk : flagAt gstr.morphflags k = true) : k < 8 * morphflagBytes := by
  have hflags := readKeys_morphflags honce hplain hwritten hfits avoid
  have hsame := congrArg (fun mf : MorphFlags × MorphFlags => addMorphflags mf.1 mf.2)
    (hflags.symm.trans hread.morphflags)
  rw [addMorphflags_xferPrvbflags, addMorphflags_xferPrvbflags] at hsame
  have hlt : k < 112 := by
    by_contra hge
    rw [flagAt_of_ge _ hge] at hk
    cases hk
  have hflag := congrArg (fun mf => flagAt mf k) hsame
  rw [flagAt_addMorphflags, flagAt_addMorphflags, addRows_morphflags h hlt, hk] at hflag
  have hnone : flagAt (fun _ => 0) k = false := by
    unfold flagAt
    rw [dif_pos hlt]
    exact BitVec.getLsbD_zero
  rw [hnone, Bool.or_false, Bool.or_false, Bool.true_and, decide_eq_true_eq] at hflag
  exact hflag

/-- A stem record is read back from its keys exactly when its flags are within the bytes that
`MorphNames` writes and its domains are no negative `char`. -/
theorem stemKeys_readBack (honce : tables.NamesOnce) (h : Registered tables gstr)
    (hset : DomainSet gstr.domains) (hplain : PlainNames tables gstr) {buf text : Bytes}
    {capacity : ℕ}
    (hwritten : sprintGkFlags tables gstr buf capacity [58] false = some (buf ++ text))
    (hfits : text.length < longString) (avoid : Option GkString) :
    ReadsBack gstr (readKeys tables text avoid) ↔
      (∀ k, flagAt gstr.morphflags k = true → k < 8 * morphflagBytes) ∧
        ∀ d ∈ gstr.domains, d < 128 := by
  have hflags := readKeys_morphflags honce hplain hwritten hfits avoid
  have hwant {α : Type} (field : GkString → α)
      (hfield : ∀ gstr mf, field { gstr with morphflags := mf } = field gstr) :
      field (readKeys tables text avoid).want = field (addRows (keyRows tables gstr) .zero) := by
    rw [readKeys_eq honce hplain hwritten hfits]
    exact hfield _ _
  constructor
  · intro hread
    refine ⟨fun k hk => hread.flag_low honce h hplain hwritten hfits hk, fun d hd => ?_⟩
    rw [← hread.domains, hwant GkString.domains fun _ _ => rfl] at hd
    exact addRows_domains_high hd
  · rintro ⟨hlow, hdomains⟩
    have hall : (addRows (keyRows tables gstr) .zero).morphflags = gstr.morphflags := by
      refine morphFlags_ext fun k hk => ?_
      rw [addRows_morphflags h hk]
      cases hflag : flagAt gstr.morphflags k with
      | false => rfl
      | true => rw [decide_eq_true (hlow k hflag), Bool.true_and]
    exact {
      stemtype := (hwant GkString.stemtype fun _ _ => rfl).trans (addRows_stemtype h)
      derivtype := (hwant GkString.derivtype fun _ _ => rfl).trans (addRows_derivtype h)
      forminfo := (hwant GkString.forminfo fun _ _ => rfl).trans (addRows_forminfo h)
      dialect := (hwant GkString.dialect fun _ _ => rfl).trans (addRows_dialect h)
      geogregion := (hwant GkString.geogregion fun _ _ => rfl).trans (addRows_region h)
      domains := (hwant GkString.domains fun _ _ => rfl).trans (addRows_domains_low h hset hdomains)
      morphflags := by rw [hflags, hall] }

end Scan

/-- A table of stem types with `hs_ou`. -/
def groupTables : KeyTables where
  stemtypes := [(ascii "hs_ou", 0o10106)]
  derivtypes := []
  domains := [(ascii "*hom.", 18)]
  isKey row hrow := by
    have hrows : row = (ascii "hs_ou", 0o10106) ∨ row = (ascii "*hom.", 18) := by simpa using hrow
    rcases hrows with rfl | rfl
    · exact ⟨⟨by decide +kernel, by decide +kernel⟩, by decide +kernel⟩
    · exact ⟨⟨by decide +kernel, by decide +kernel⟩, by decide +kernel⟩

/-- A masculine stem in Homer. -/
def maleStem : GkString :=
  { GkString.zero with
    forminfo := { WordForm.zero with gender := 1 }
    stemtype := 0o10106
    domains := [18] }

/-- The stem of a group of men. -/
def groupStem : GkString :=
  { maleStem with morphflags := addMorphflag maleStem.morphflags groupName }

/-- Only names of one length are compared. -/
theorem KeyTables.namesOnce_of_lengths {tables : KeyTables} (bound : ℕ)
    (hshort : ∀ mp ∈ tables.definitions, mp.morphKey.length < bound)
    (h : ∀ n < bound, (tables.definitions.filter fun mp => mp.morphKey.length == n).Pairwise
      fun mp other => mp.morphKey = other.morphKey → mp = other) : tables.NamesOnce := by
  intro mp hmp other hother heq
  have hsymm : Std.Symm fun mp other : MorphArgs => mp.morphKey = other.morphKey → mp = other :=
    ⟨fun _ _ hsame heq => (hsame heq.symm).symm⟩
  have hboth := List.Pairwise.forall_of_forall (fun _ _ _ => rfl)
    (h mp.morphKey.length (hshort mp hmp))
  exact hboth (List.mem_filter.mpr ⟨hmp, by simp⟩) (List.mem_filter.mpr ⟨hother, by simp [heq]⟩) heq

theorem groupTables_once : groupTables.NamesOnce :=
  KeyTables.namesOnce_of_lengths 24 (by decide +kernel) (by decide +kernel)

/-- Flags that are decided one by one. -/
theorem named_flags {gstr : GkString} (h : ∀ k < 112, flagAt gstr.morphflags k = true →
    ∃ mp ∈ argMorphflags, mp.morphFlags = UInt32.ofNat (k + 1)) (k : ℕ)
    (hk : flagAt gstr.morphflags k = true) :
    ∃ mp ∈ argMorphflags, mp.morphFlags = UInt32.ofNat (k + 1) := by
  refine h k ?_ hk
  by_contra hge
  rw [flagAt_of_ge _ hge] at hk
  cases hk

theorem registered_maleStem : Registered groupTables maleStem where
  stemtype := .inr (by decide +kernel)
  derivtype := .inl rfl
  tense := .inl rfl
  mood := .inl rfl
  voice := .inl rfl
  gender := .inr (by decide +kernel)
  case_ := .inl rfl
  degree := .inl rfl
  person := .inl rfl
  number := .inl rfl
  dialect := ⟨[], List.nil_subset _, rfl⟩
  region := ⟨[], List.nil_subset _, rfl⟩
  domains := by decide +kernel
  morphflags := named_flags (by decide +kernel)

theorem registered_groupStem : Registered groupTables groupStem :=
  { registered_maleStem with morphflags := named_flags (by decide +kernel) }

theorem plainNames_group : PlainNames groupTables maleStem ∧ PlainNames groupTables groupStem := by
  unfold PlainNames
  decide +kernel

theorem domainSet_maleStem : DomainSet maleStem.domains := by
  refine ⟨?_, ?_, ?_⟩
  · decide
  · decide
  · decide

/-- The stem without the flag is read back. -/
theorem maleStem_readBack :
    ReadsBack maleStem (readKeys groupTables (ascii ":hs_ou:masc:*hom.") none) := by
  have hwritten : sprintGkFlags groupTables maleStem [] 40960 [58] false =
      some ([] ++ ascii ":hs_ou:masc:*hom.") := by decide +kernel
  refine (stemKeys_readBack groupTables_once registered_maleStem domainSet_maleStem
    plainNames_group.1 hwritten (by decide +kernel) none).mpr ⟨fun k hk => ?_, by decide +kernel⟩
  have hnone : flagAt maleStem.morphflags k = false := by
    by_cases hlt : k < 112
    · unfold flagAt
      rw [dif_pos hlt]
      exact BitVec.getLsbD_zero
    · exact flagAt_of_ge _ hlt
  rw [hnone] at hk
  cases hk

/-- The stem of a group loses the flag of it: the text is that of any stem of a man. -/
theorem groupStem_notReadBack : groupTables.NamesOnce ∧ Registered groupTables groupStem ∧
    sprintGkFlags groupTables groupStem [] 40960 [58] false = some (ascii ":hs_ou:masc:*hom.") ∧
      ¬ ReadsBack groupStem (readKeys groupTables (ascii ":hs_ou:masc:*hom.") none) := by
  have hwritten : sprintGkFlags groupTables groupStem [] 40960 [58] false =
      some (ascii ":hs_ou:masc:*hom.") := by decide +kernel
  refine ⟨groupTables_once, registered_groupStem, hwritten, fun hread => ?_⟩
  have hlow := @ReadsBack.flag_low _ _ groupTables_once registered_groupStem plainNames_group.2 []
    _ _ hwritten (by decide +kernel) none hread 109 (by decide +kernel)
  exact absurd hlow (by decide)

end Morpheus
