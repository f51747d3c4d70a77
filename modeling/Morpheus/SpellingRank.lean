import Morpheus.SpellingRetries

/-!
# The rank of a spelling

Every retry makes the rank of the word smaller: an elided vowel takes an apostrophe away, `exs`
for `ex` is made once, the others shorten the word or replace a `u`, an `i` or a final `n`.
-/
namespace Morpheus

/-- A letter that a retry replaces by `v`, `V`, `j` or `J`. -/
def isRespelled (c : Byte) : Bool := c == 85 || c == 117 || c == 73 || c == 105

/-- The word begins with `ex` and a letter before which an `s` can be put in. -/
def exStart (word : Bytes) : Bool := (ascii "cpt").any fun c => [101, 120, c].isPrefixOf word

/-- What every retry makes smaller: an elided vowel takes an apostrophe away, the `s` of `exs`
stops its own retry, the other retries shorten the word or replace a letter. -/
def spellingRank (word : Bytes) : ℕ :=
  32 * word.count 39 + 3 * (exStart word).toNat + 2 * word.length + word.countP isRespelled +
    (if word.getLast? = some 110 then 1 else 0) + 1

theorem exStart_iff {word : Bytes} :
    exStart word = true ↔ ∃ c ∈ ascii "cpt", [101, 120, c] <+: word := by
  simp [exStart]

theorem exStart_prefix {word longer : Bytes} (h : word <+: longer) :
    (exStart word).toNat ≤ (exStart longer).toNat := by
  apply Bool.toNat_le_toNat
  intro hstart
  obtain ⟨c, hc, hbegins⟩ := exStart_iff.mp hstart
  exact exStart_iff.mpr ⟨c, hc, hbegins.trans h⟩

/-- A shorter beginning of a word has a smaller rank. -/
theorem spellingRank_prefix {word longer : Bytes} (h : word <+: longer) :
    spellingRank word + 2 * (longer.length - word.length) ≤
      spellingRank longer + if word = longer then 0 else 1 := by
  have hex := exStart_prefix h
  have hcount := h.sublist.count_le 39
  have hrespelled := h.sublist.countP_le (p := isRespelled)
  have hlength := h.length_le
  unfold spellingRank
  by_cases hsame : word = longer
  · subst hsame
    simp
  · rw [if_neg hsame]
    split_ifs <;> omega

theorem spellingRank_le {word longer : Bytes} (h : word <+: longer) :
    spellingRank word ≤ spellingRank longer := by
  have hrank := spellingRank_prefix h
  by_cases hsame : word = longer
  · rw [hsame]
  · have hlength : word.length < longer.length := by
      apply lt_of_le_of_ne h.length_le
      intro heq
      exact hsame (h.eq_of_length heq)
    rw [if_neg hsame] at hrank
    omega

theorem spellingRank_lt {word longer : Bytes} (h : word <+: longer)
    (hlength : word.length < longer.length) : spellingRank word < spellingRank longer := by
  have hrank := spellingRank_prefix h
  have hne : word ≠ longer := by
    intro heq
    rw [heq] at hlength
    omega
  rw [if_neg hne] at hrank
  omega

theorem spellingRank_xstrncpy (word : Bytes) (len : ℕ) :
    spellingRank (xstrncpy word len) ≤ spellingRank word :=
  spellingRank_le (List.take_prefix _ _)

/-- Every letter is the same, or one that is respelled was. -/
def Respelling (word old : Bytes) : Prop :=
  List.Forall₂ (fun c d : Byte => c = d ∨
    isRespelled d = true ∧ (c = 118 ∨ c = 86 ∨ c = 106 ∨ c = 74)) word old

theorem Respelling.refl (word : Bytes) : Respelling word word :=
  List.forall₂_same.mpr fun _ _ => .inl (Eq.refl _)

theorem Respelling.count_eq {word old : Bytes} (h : Respelling word old) :
    word.count 39 = old.count 39 := by
  induction h with
  | nil => rfl
  | @cons c d word old hcd _ ih =>
    rw [List.count_cons, List.count_cons, ih]
    congr 1
    rcases hcd with rfl | ⟨hd, hc⟩
    · rfl
    · have hd39 : (d == 39) = false := by
        rw [beq_eq_false_iff_ne]
        intro heq
        rw [heq] at hd
        exact absurd hd (by decide)
      have hc39 : (c == 39) = false := by
        rcases hc with rfl | rfl | rfl | rfl <;> decide
      rw [hd39, hc39]

theorem Respelling.countP_le {word old : Bytes} (h : Respelling word old) :
    word.countP isRespelled + (if word = old then 0 else 1) ≤ old.countP isRespelled := by
  induction h with
  | nil => exact Nat.le_refl _
  | @cons c d word old hcd _ ih =>
    rw [List.countP_cons, List.countP_cons]
    rcases hcd with rfl | ⟨hd, hc⟩
    · have htail : (c :: word = c :: old) = (word = old) := by simp
      simp only [htail]
      omega
    · have hcfalse : isRespelled c = false := by
        rcases hc with rfl | rfl | rfl | rfl <;> decide
      rw [hd, hcfalse]
      simp only [if_true, Bool.false_eq_true, if_false]
      split_ifs at ih ⊢ <;> omega

theorem Respelling.getLast? {word old : Bytes} (h : Respelling word old)
    (hlast : word.getLast? = some 110) : old.getLast? = some 110 := by
  induction h with
  | nil => exact hlast
  | @cons c d word old hcd htail ih =>
    cases htail with
    | nil =>
      rcases hcd with rfl | ⟨-, hc⟩
      · exact hlast
      · rcases hc with rfl | rfl | rfl | rfl <;> exact absurd hlast (by decide)
    | cons _ _ =>
      rw [List.getLast?_cons_cons] at hlast ⊢
      exact ih hlast

theorem Respelling.exStart {word old : Bytes} (h : Respelling word old) :
    (Morpheus.exStart word).toNat ≤ (Morpheus.exStart old).toNat := by
  apply Bool.toNat_le_toNat
  intro hstart
  obtain ⟨c, hc, s, rfl⟩ := exStart_iff.mp hstart
  have hkept : ∀ a b : Byte, (a = b ∨ isRespelled b = true ∧
      (a = 118 ∨ a = 86 ∨ a = 106 ∨ a = 74)) → (a ≠ 118 ∧ a ≠ 86 ∧ a ≠ 106 ∧ a ≠ 74) → b = a := by
    intro a b hab hne
    rcases hab with hab | ⟨-, hab⟩
    · exact hab.symm
    · tauto
  have hletter : c ≠ 118 ∧ c ≠ 86 ∧ c ≠ 106 ∧ c ≠ 74 := by
    have hall : ((ascii "cpt").all fun c => c != 118 && c != 86 && c != 106 && c != 74) = true := by
      decide
    simpa [and_assoc] using List.all_eq_true.mp hall c hc
  obtain ⟨b1, old, h1, h2, rfl⟩ := List.forall₂_cons_left_iff.mp h
  obtain ⟨b2, old, h3, h4, rfl⟩ := List.forall₂_cons_left_iff.mp h2
  obtain ⟨b3, old, h5, h6, rfl⟩ := List.forall₂_cons_left_iff.mp h4
  rw [hkept _ _ h1 (by decide), hkept _ _ h3 (by decide), hkept _ _ h5 hletter]
  exact exStart_iff.mpr ⟨c, hc, old, rfl⟩

/-- The letters of `ex-` are not replaced. -/
theorem exStart_of_respelling {s old : Bytes} (h : Respelling s old) (hold : exStart old = true) :
    exStart s = true := by
  obtain ⟨c, hc, rest, rfl⟩ := exStart_iff.mp hold
  have hkept : ∀ a b : Byte, (a = b ∨ isRespelled b = true ∧
      (a = 118 ∨ a = 86 ∨ a = 106 ∨ a = 74)) → isRespelled b = false → a = b := by
    intro a b hab hb
    rcases hab with hab | ⟨hrespelled, -⟩
    · exact hab
    · rw [hb] at hrespelled
      cases hrespelled
  have hletter : isRespelled c = false := by
    have hall : ((ascii "cpt").all fun c => isRespelled c == false) = true := by decide
    simpa using List.all_eq_true.mp hall c hc
  obtain ⟨a1, s, h1, h2, rfl⟩ := List.forall₂_cons_right_iff.mp h
  obtain ⟨a2, s, h3, h4, rfl⟩ := List.forall₂_cons_right_iff.mp h2
  obtain ⟨a3, s, h5, h6, rfl⟩ := List.forall₂_cons_right_iff.mp h4
  rw [hkept _ _ h1 (by decide), hkept _ _ h3 (by decide), hkept _ _ h5 hletter]
  exact exStart_iff.mpr ⟨c, hc, s, rfl⟩

theorem exStart_respelling {s old : Bytes} (h : Respelling s old) : exStart s = exStart old := by
  cases hold : exStart old with
  | true => exact exStart_of_respelling h hold
  | false =>
    have hle := h.exStart
    rw [hold] at hle
    exact Bool.toNat_eq_zero.mp (Nat.le_zero.mp hle)

/-- A word with fewer respelled letters has a smaller rank. -/
theorem Respelling.rank_lt {word old : Bytes} (h : Respelling word old) (hne : word ≠ old) :
    spellingRank word < spellingRank old := by
  have hlength := h.length_eq
  have hcount := h.count_eq
  have hcountP := h.countP_le
  have hex := h.exStart
  rw [if_neg hne] at hcountP
  unfold spellingRank
  by_cases hlast : word.getLast? = some 110
  · rw [if_pos hlast, if_pos (h.getLast? hlast)]
    omega
  · rw [if_neg hlast]
    split_ifs <;> omega

/-- `u2v` respells the word, and says so. -/
theorem u2vFrom_respelling (spelling : Spelling) (half1 word : Bytes) :
    Respelling (u2vFrom spelling half1 word).1 word ∧
      ((u2vFrom spelling half1 word).2 ≠ 0 → (u2vFrom spelling half1 word).1 ≠ word) := by
  induction word generalizing half1 with
  | nil => exact ⟨.nil, fun h => absurd rfl h⟩
  | cons c s ih =>
    unfold u2vFrom
    dsimp only
    cases hchanges : c == 117 && latVow (s.headD 0) &&
        (latVow (half1.getLastD 0) || spelling.isRawpreverb half1 || spelling.chckend s) with
    | false =>
      simp only [Bool.false_eq_true, if_false, Nat.zero_add]
      obtain ⟨hrest, hne⟩ := ih (half1 ++ [c])
      refine ⟨.cons (.inl rfl) hrest, fun hcount heq => ?_⟩
      exact hne hcount (List.cons.inj heq).2
    | true =>
      simp only [if_true]
      have hc : c = 117 := by
        simp only [Bool.and_eq_true, beq_iff_eq] at hchanges
        exact hchanges.1.1
      subst hc
      refine ⟨.cons (.inr ⟨by decide, .inl rfl⟩) (ih _).1, fun _ heq => ?_⟩
      exact absurd (List.cons.inj heq).1 (by decide)

theorem u2v_respelling (spelling : Spelling) (word : Bytes) :
    Respelling (u2v spelling word).1 word ∧
      ((u2v spelling word).2 ≠ 0 → (u2v spelling word).1 ≠ word) := by
  cases word with
  | nil => exact ⟨.nil, fun h => absurd rfl h⟩
  | cons c s =>
    unfold u2v
    dsimp only
    cases hchanges : (c == 85 || c == 117) && latVow (s.headD 0) with
    | false =>
      simp only [Bool.false_eq_true, if_false, Nat.zero_add]
      obtain ⟨hrest, hne⟩ := u2vFrom_respelling spelling [c] s
      refine ⟨.cons (.inl rfl) hrest, fun hcount heq => ?_⟩
      exact hne hcount (List.cons.inj heq).2
    | true =>
      simp only [if_true]
      have hc : c = 85 ∨ c = 117 := by
        simp only [Bool.and_eq_true, Bool.or_eq_true, beq_iff_eq] at hchanges
        exact hchanges.1
      rcases hc with rfl | rfl
      · refine ⟨.cons (.inr ⟨by decide, .inr (.inl (by decide))⟩)
          (u2vFrom_respelling spelling _ s).1, fun _ heq => ?_⟩
        exact absurd (List.cons.inj heq).1 (by decide)
      · refine ⟨.cons (.inr ⟨by decide, .inl (by decide)⟩)
          (u2vFrom_respelling spelling _ s).1, fun _ heq => ?_⟩
        exact absurd (List.cons.inj heq).1 (by decide)

theorem italianU_respelling {word : Bytes} (h : word.any (fun c => c == 85 || c == 117) = true) :
    Respelling (word.map fun c => if c = 85 then 86 else if c = 117 then 118 else c) word ∧
      (word.map fun c => if c = 85 then 86 else if c = 117 then 118 else c) ≠ word := by
  have hletter : ∀ c : Byte, (if c = 85 then 86 else if c = 117 then 118 else c) = c ∨
      isRespelled c = true ∧ ((if c = 85 then 86 else if c = 117 then 118 else c) = 118 ∨
        (if c = 85 then 86 else if c = 117 then 118 else c) = 86 ∨
        (if c = 85 then 86 else if c = 117 then 118 else c) = 106 ∨
        (if c = 85 then 86 else if c = 117 then 118 else c) = 74) := by
    intro c
    by_cases h85 : c = 85
    · subst h85
      right
      decide
    · by_cases h117 : c = 117
      · subst h117
        right
        decide
      · rw [if_neg h85, if_neg h117]
        left
        rfl
  constructor
  · unfold Respelling
    rw [List.forall₂_map_left_iff]
    exact List.forall₂_same.mpr fun c _ => hletter c
  · intro heq
    obtain ⟨c, hc, hu⟩ := List.any_eq_true.mp h
    have hfixed : (if c = 85 then 86 else if c = 117 then 118 else c) = c :=
      List.map_eq_map_iff.mp (heq.trans (List.map_id _).symm) c hc
    simp only [Bool.or_eq_true, beq_iff_eq] at hu
    rcases hu with rfl | rfl <;> exact absurd hfixed (by decide)

theorem jSpellings_respelling {before word spelling : Bytes}
    (h : spelling ∈ jSpellings before word) :
    Respelling spelling (before ++ word) ∧ spelling ≠ before ++ word := by
  induction word generalizing before with
  | nil => cases h
  | cons c s ih =>
    unfold jSpellings at h
    rcases List.mem_append.mp h with h | h
    · split_ifs at h with hj
      · rw [List.mem_singleton] at h
        subst h
        have hc : c = 105 := by
          unfold latinCanRetryJ at hj
          split at hj
          · rename_i heq
            obtain ⟨rfl, -⟩ := List.cons.inj heq
            simp only [Bool.and_eq_true, beq_iff_eq] at hj
            exact hj.1
          · cases hj
        subst hc
        constructor
        · exact List.rel_append (Respelling.refl before)
            (.cons (.inr ⟨by decide, .inr (.inr (.inl rfl))⟩) (Respelling.refl s))
        · intro heq
          exact absurd (List.cons.inj (List.append_cancel_left heq)).1 (by decide)
      · cases h
    · have hrest := ih h
      rw [List.append_assoc] at hrest
      exact hrest

theorem cmpend_some {word ending stem : Bytes} (h : cmpend word ending = some stem) :
    ending <:+ word ∧ ending ≠ [] ∧ ending.length < word.length ∧
      stem = word.take (word.length - ending.length) := by
  unfold cmpend at h
  split_ifs at h with hend
  exact ⟨hend.2.2, hend.1, hend.2.1, (Option.some.inj h).symm⟩

theorem cmpend_isSome {word ending : Bytes} (h : (cmpend word ending).isSome = true) :
    ending <:+ word ∧ ending.length < word.length := by
  obtain ⟨stem, hstem⟩ := Option.isSome_iff_exists.mp h
  obtain ⟨hsuffix, -, hlength, -⟩ := cmpend_some hstem
  exact ⟨hsuffix, hlength⟩

theorem spellingRank_take {word : Bytes} {n : ℕ} (h : n < word.length) :
    spellingRank (word.take n) < spellingRank word := by
  apply spellingRank_lt (List.take_prefix _ _)
  rw [List.length_take]
  omega

theorem spellingRank_dropLast {word : Bytes} (h : word ≠ []) :
    spellingRank word.dropLast < spellingRank word := by
  apply spellingRank_lt (List.dropLast_prefix _)
  have hlength := List.length_pos_iff.mpr h
  rw [List.length_dropLast]
  omega

/-- A last letter before which no `s` can be put in. -/
theorem exStart_concat {stem : Bytes} {c : Byte} (hc : c ∉ ascii "cpt") :
    exStart (stem ++ [c]) = exStart stem := by
  apply Bool.eq_iff_iff.mpr
  constructor
  · intro hstart
    obtain ⟨d, hd, hbegins⟩ := exStart_iff.mp hstart
    rcases List.prefix_concat_iff.mp hbegins with heq | hstem
    · have hlast := congrArg List.getLast? heq
      simp only [List.getLast?_append, List.getLast?_cons_cons, List.getLast?_singleton,
        Option.some_or] at hlast
      rw [Option.some.inj hlast] at hd
      exact absurd hd hc
    · exact exStart_iff.mpr ⟨d, hd, hstem⟩
  · intro hstart
    obtain ⟨d, hd, hbegins⟩ := exStart_iff.mp hstart
    exact exStart_iff.mpr ⟨d, hd, hbegins.trans (List.prefix_append _ _)⟩

/-- The `s` for a final `n`. -/
theorem spellingRank_finalN (stem : Bytes) :
    spellingRank (stem ++ [115]) < spellingRank (stem ++ [110]) := by
  have hex : (exStart (stem ++ [115])).toNat = (exStart (stem ++ [110])).toNat := by
    rw [exStart_concat (by decide), exStart_concat (by decide)]
  unfold spellingRank
  simp only [List.count_append, List.length_append, List.countP_append, List.getLast?_append,
    List.getLast?_singleton, Option.some_or, List.length_singleton]
  have h1 : List.count 39 [(115 : Byte)] = 0 := by decide
  have h2 : List.count 39 [(110 : Byte)] = 0 := by decide
  have h3 : List.countP isRespelled [(115 : Byte)] = 0 := by decide
  have h4 : List.countP isRespelled [(110 : Byte)] = 0 := by decide
  rw [h1, h2, h3, h4, if_neg (by decide), if_pos trivial]
  omega

theorem latinExpandEx_some {word s : Bytes} {capacity : ℕ}
    (h : latinExpandEx word capacity = some s) :
    ∃ c ∈ ascii "cpt", ∃ rest, word = 101 :: 120 :: c :: rest ∧
      s = 101 :: 120 :: 115 :: c :: rest := by
  unfold latinExpandEx at h
  split_ifs at h with hlength hex
  obtain ⟨hstart, hthird⟩ := hex
  match word, hlength, hstart, hthird, h with
  | a :: b :: c :: rest, _, hstart, hthird, h =>
    obtain ⟨ha, hb⟩ : a = 101 ∧ b = 120 := by
      have hlist : [a, b] = [101, 120] := hstart
      exact ⟨(List.cons.inj hlist).1, (List.cons.inj (List.cons.inj hlist).2).1⟩
    refine ⟨c, by simpa using hthird, rest, by rw [ha, hb], ?_⟩
    rw [← Option.some.inj h, ha, hb]
    rfl
  | [], hlength, _, _, _ => simp at hlength
  | [_], hlength, _, _, _ => simp at hlength
  | [_, _], hlength, _, _, _ => simp at hlength

theorem exStart_of_latinExpandEx {s t : Bytes} {capacity : ℕ}
    (h : latinExpandEx s capacity = some t) : exStart s = true ∧ s.length < capacity - 1 := by
  obtain ⟨c, hc, rest, hs, -⟩ := latinExpandEx_some h
  refine ⟨exStart_iff.mpr ⟨c, hc, rest, hs.symm⟩, ?_⟩
  unfold latinExpandEx at h
  split_ifs at h with hlength
  omega

/-- The `s` that was put in stops its own retry. -/
theorem exStart_expanded (rest : Bytes) : exStart (101 :: 120 :: 115 :: rest) = false := by
  apply Bool.eq_false_iff.mpr
  intro hstart
  obtain ⟨d, hd, tail, htail⟩ := exStart_iff.mp hstart
  obtain ⟨hds, -⟩ := List.cons.inj (List.cons.inj (List.cons.inj htail).2).2
  rw [hds] at hd
  exact absurd hd (by decide)

theorem spellingRank_expandEx {word s : Bytes} {capacity : ℕ}
    (h : latinExpandEx word capacity = some s) : spellingRank s < spellingRank word := by
  obtain ⟨c, hc, rest, rfl, rfl⟩ := latinExpandEx_some h
  have hold : exStart (101 :: 120 :: c :: rest) = true := exStart_iff.mpr ⟨c, hc, rest, rfl⟩
  have hnew := exStart_expanded (c :: rest)
  unfold spellingRank
  rw [hold, hnew]
  simp only [List.count_cons, List.countP_cons, List.length_cons, List.getLast?_cons_cons]
  have h115 : isRespelled 115 = false := by decide
  rw [h115]
  simp only [Bool.toNat_true, Bool.toNat_false]
  have h39 : ((115 : Byte) == 39) = false := by decide
  rw [h39]
  simp only [Bool.false_eq_true, if_false]
  omega

section Plans
variable (spelling : Spelling) (saveword : Bytes)

/-- The retries of a place have spellings of a smaller rank than a bound. -/
def Plan.Below (plan : Plan) (rank : ℕ) : Prop :=
  ∀ word empty, spellingRank word ≤ rank → ∀ retry ∈ plan word empty,
    spellingRank retry.spelling < rank

theorem enclitics_below (rank : ℕ) : Plan.Below (enclitics spelling) rank := by
  intro word empty hword retry hretry
  obtain ⟨enclitic, -, hfound⟩ := List.mem_filterMap.mp hretry
  obtain ⟨stem, hstem, rfl⟩ := Option.map_eq_some_iff.mp hfound
  obtain ⟨-, hne, hlength, rfl⟩ := cmpend_some hstem
  apply (spellingRank_take ?_).trans_le hword
  have hpos := List.length_pos_iff.mpr hne
  omega

theorem ne_nil_of_cmpend {word ending : Bytes} (h : (cmpend word ending).isSome = true) :
    word ≠ [] := by
  obtain ⟨-, hlength⟩ := cmpend_isSome h
  exact List.length_pos_iff.mp (by omega)

theorem prodelision_below (rank : ℕ) : Plan.Below (prodelision spelling) rank := by
  intro word empty hword retry hretry
  unfold prodelision at hretry
  split_ifs at hretry with happlies
  · obtain ⟨ending, -, hend⟩ := List.any_eq_true.mp happlies.2
    have hpos := List.length_pos_iff.mpr (ne_nil_of_cmpend hend)
    rw [List.mem_singleton.mp hretry]
    exact (spellingRank_take (by omega)).trans_le hword
  · cases hretry

theorem ustRetry_below (rank : ℕ) : Plan.Below (ustRetry spelling) rank := by
  intro word empty hword retry hretry
  unfold ustRetry at hretry
  split_ifs at hretry with happlies
  · rw [List.mem_singleton.mp hretry]
    exact (spellingRank_dropLast (ne_nil_of_cmpend happlies.2)).trans_le hword
  · cases hretry

theorem istRetry_below (rank : ℕ) : Plan.Below (istRetry spelling) rank := by
  intro word empty hword retry hretry
  unfold istRetry at hretry
  split_ifs at hretry with happlies
  · have hne : word ≠ [] := by
      rcases happlies.2 with hend | hend <;> exact ne_nil_of_cmpend hend
    have hfirst := spellingRank_dropLast hne
    rcases List.mem_cons.mp hretry with rfl | hretry
    · exact hfirst.trans_le hword
    · rw [List.mem_singleton.mp hretry]
      have hsecond := spellingRank_le (List.dropLast_prefix word.dropLast)
      exact (hsecond.trans_lt hfirst).trans_le hword
  · cases hretry

theorem finalN_below (rank : ℕ) : Plan.Below (finalN spelling) rank := by
  intro word empty hword retry hretry
  unfold finalN at hretry
  split_ifs at hretry with happlies
  · obtain ⟨⟨stem, rfl⟩, -⟩ := cmpend_isSome happlies.2.2
    have hn : ascii "n" = [110] := by decide
    rw [hn] at hword hretry
    rw [List.dropLast_concat] at hretry
    rcases List.mem_cons.mp hretry with rfl | hretry
    · exact (spellingRank_finalN stem).trans_le hword
    · rw [List.mem_singleton.mp hretry]
      refine (spellingRank_lt (List.prefix_append stem [110]) ?_).trans_le hword
      rw [List.length_append]
      exact Nat.lt_succ_self _
  · cases hretry

theorem uRetry_below {rank : ℕ} (hrank : spellingRank saveword ≤ rank) :
    Plan.Below (uRetry spelling saveword) rank := by
  intro word empty hword retry hretry
  unfold uRetry at hretry
  split_ifs at hretry with happlies
  · obtain ⟨hrespelling, hne⟩ := u2v_respelling spelling saveword
    rw [List.mem_singleton.mp hretry]
    exact (hrespelling.rank_lt (hne happlies.2)).trans_le hrank
  · cases hretry

theorem italianU_below {rank : ℕ} (hrank : spellingRank saveword ≤ rank) :
    Plan.Below (italianU spelling saveword) rank := by
  intro word empty hword retry hretry
  unfold italianU at hretry
  split_ifs at hretry with happlies
  · obtain ⟨hrespelling, hne⟩ := italianU_respelling happlies.2.2
    rw [List.mem_singleton.mp hretry]
    exact (hrespelling.rank_lt hne).trans_le hrank
  · cases hretry

/-- The word from which one `i` after the other is replaced has a `J` for its capital `I`. -/
theorem jRetry_respelling {s : Bytes}
    (h : s ∈ (if (saveword.headD 0 == 73) = true then
        [if (saveword.headD 0 == 73) = true then 74 :: saveword.tail else saveword] else []) ++
      jSpellings [] (if (saveword.headD 0 == 73) = true then 74 :: saveword.tail else saveword)) :
    Respelling s saveword := by
  cases hfirst : saveword.headD 0 == 73 with
  | false =>
    rw [hfirst] at h
    simp only [Bool.false_eq_true, if_false, List.nil_append] at h
    exact (jSpellings_respelling h).1
  | true =>
    rw [hfirst] at h
    simp only [if_true] at h
    obtain ⟨rest, rfl⟩ : ∃ rest, saveword = 73 :: rest := by
      cases saveword with
      | nil => exact absurd hfirst (by decide)
      | cons c rest =>
        have hc : c = 73 := by simpa using hfirst
        exact ⟨rest, by rw [hc]⟩
    have hj : isRespelled 73 = true ∧ ((74 : Byte) = 118 ∨ (74 : Byte) = 86 ∨ (74 : Byte) = 106 ∨
        (74 : Byte) = 74) := by decide
    rcases List.mem_append.mp h with h | h
    · rw [List.mem_singleton.mp h]
      exact .cons (.inr hj) (Respelling.refl rest)
    · obtain ⟨c, tail, hc, htail, rfl⟩ :=
        List.forall₂_cons_right_iff.mp (jSpellings_respelling h).1
      rcases hc with rfl | ⟨hc, -⟩
      · exact .cons (.inr hj) htail
      · exact absurd hc (by decide)

theorem jRetry_below {rank : ℕ} (hrank : spellingRank saveword ≤ rank) :
    Plan.Below (jRetry spelling saveword) rank := by
  intro word empty hword retry hretry
  unfold jRetry at hretry
  apply LT.lt.trans_le ?_ hrank
  split_ifs at hretry with hlatin
  · obtain ⟨s, hs, rfl⟩ := List.mem_map.mp hretry
    cases hfirst : saveword.headD 0 == 73 with
    | false =>
      rw [hfirst] at hs
      simp only [Bool.false_eq_true, if_false, List.nil_append] at hs
      obtain ⟨hrespelling, hne⟩ := jSpellings_respelling hs
      exact hrespelling.rank_lt hne
    | true =>
      rw [hfirst] at hs
      simp only [if_true] at hs
      obtain ⟨rest, rfl⟩ : ∃ rest, saveword = 73 :: rest := by
        cases saveword with
        | nil => exact absurd hfirst (by decide)
        | cons c rest =>
          have hc : c = 73 := by simpa using hfirst
          exact ⟨rest, by rw [hc]⟩
      have hj : spellingRank (74 :: rest) < spellingRank (73 :: rest) := by
        apply Respelling.rank_lt
        · exact .cons (.inr ⟨by decide, .inr (.inr (.inr rfl))⟩) (Respelling.refl rest)
        · intro heq
          exact absurd (List.cons.inj heq).1 (by decide)
      rcases List.mem_append.mp hs with hs | hs
      · rw [List.mem_singleton.mp hs]
        exact hj
      · obtain ⟨hrespelling, hne⟩ := jSpellings_respelling hs
        exact (hrespelling.rank_lt hne).trans hj
  · cases hretry

theorem exRetry_below (rank : ℕ) : Plan.Below (exRetry spelling) rank := by
  intro word empty hword retry hretry
  unfold exRetry at hretry
  split_ifs at hretry with happlies
  · obtain ⟨s, hs, rfl⟩ := List.mem_map.mp hretry
    exact (spellingRank_expandEx (Option.mem_toList.mp hs)).trans_le hword
  · cases hretry

/-- A retry shortens the word, puts `s` for its final `n`, replaces letters, or expands `ex-`. -/
theorem retry_cases {plan : Plan} (h : plan ∈ plans spelling saveword) {word : Bytes} {empty : Bool}
    {retry : Retry} (hretry : retry ∈ plan word empty) :
    retry.spelling <+: word ∨ (∃ stem, word = stem ++ [110] ∧ retry.spelling = stem ++ [115]) ∨
      Respelling retry.spelling saveword ∨
        latinExpandEx word maxWordSize = some retry.spelling := by
  simp only [plans, List.mem_cons, List.not_mem_nil, or_false] at h
  rcases h with rfl | rfl | rfl | rfl | rfl | rfl | rfl | rfl | rfl
  · obtain ⟨enclitic, -, hfound⟩ := List.mem_filterMap.mp hretry
    obtain ⟨stem, hstem, rfl⟩ := Option.map_eq_some_iff.mp hfound
    obtain ⟨-, -, -, rfl⟩ := cmpend_some hstem
    exact .inl (List.take_prefix _ _)
  · unfold prodelision at hretry
    split_ifs at hretry with happlies
    · rw [List.mem_singleton.mp hretry]
      exact .inl (List.take_prefix _ _)
    · cases hretry
  · unfold ustRetry at hretry
    split_ifs at hretry with happlies
    · rw [List.mem_singleton.mp hretry]
      exact .inl (List.dropLast_prefix _)
    · cases hretry
  · unfold istRetry at hretry
    split_ifs at hretry with happlies
    · rcases List.mem_cons.mp hretry with rfl | hretry
      · exact .inl (List.dropLast_prefix _)
      · rw [List.mem_singleton.mp hretry]
        exact .inl ((List.dropLast_prefix _).trans (List.dropLast_prefix _))
    · cases hretry
  · unfold finalN at hretry
    split_ifs at hretry with happlies
    · obtain ⟨⟨stem, rfl⟩, -⟩ := cmpend_isSome happlies.2.2
      have hn : ascii "n" = [110] := by decide
      rw [hn] at hretry ⊢
      rw [List.dropLast_concat] at hretry
      rcases List.mem_cons.mp hretry with rfl | hretry
      · exact .inr (.inl ⟨stem, rfl, rfl⟩)
      · rw [List.mem_singleton.mp hretry]
        exact .inl (List.prefix_append _ _)
    · cases hretry
  · unfold uRetry at hretry
    split_ifs at hretry with happlies
    · rw [List.mem_singleton.mp hretry]
      exact .inr (.inr (.inl (u2v_respelling spelling saveword).1))
    · cases hretry
  · unfold italianU at hretry
    split_ifs at hretry with happlies
    · rw [List.mem_singleton.mp hretry]
      exact .inr (.inr (.inl (italianU_respelling happlies.2.2).1))
    · cases hretry
  · unfold jRetry at hretry
    split_ifs at hretry with hlatin
    · obtain ⟨s, hs, rfl⟩ := List.mem_map.mp hretry
      exact .inr (.inr (.inl (jRetry_respelling saveword hs)))
    · cases hretry
  · unfold exRetry at hretry
    split_ifs at hretry with happlies
    · obtain ⟨s, hs, rfl⟩ := List.mem_map.mp hretry
      exact .inr (.inr (.inr (Option.mem_toList.mp hs)))
    · cases hretry

/-- Every retry of `checkstring3` has a smaller rank than the word it was entered with. -/
theorem plans_below {plan : Plan} (h : plan ∈ plans spelling saveword) {rank : ℕ}
    (hrank : spellingRank saveword ≤ rank) : plan.Below rank := by
  simp only [plans, List.mem_cons, List.not_mem_nil, or_false] at h
  rcases h with rfl | rfl | rfl | rfl | rfl | rfl | rfl | rfl | rfl
  · exact enclitics_below spelling _
  · exact prodelision_below spelling _
  · exact ustRetry_below spelling _
  · exact istRetry_below spelling _
  · exact finalN_below spelling _
  · exact uRetry_below spelling saveword hrank
  · exact italianU_below spelling saveword hrank
  · exact jRetry_below spelling saveword hrank
  · exact exRetry_below spelling _

end Plans

theorem betaTolower_length (word : Bytes) : (betaTolower word).length ≤ word.length := by
  unfold betaTolower
  split_ifs
  · exact Nat.le_refl _
  · have hsplit : (word.takeWhile fun c => !isAlpha c).length +
        (word.dropWhile fun c => !isAlpha c).length = word.length := by
      rw [← List.length_append, List.takeWhile_append_dropWhile]
    cases hdrop : word.dropWhile fun c => !isAlpha c with
    | nil => exact Nat.le_refl _
    | cons c s =>
      rw [hdrop, List.length_cons] at hsplit
      dsimp only
      rw [List.length_cons, List.length_append, List.length_tail]
      omega

theorem lowerFirst_length (language : ℤ) (word : Bytes) :
    (lowerFirst language word).length ≤ word.length := by
  unfold lowerFirst
  split_ifs
  · cases word with
    | nil => exact Nat.le_refl _
    | cons c s => exact Nat.le_refl _
  · exact betaTolower_length word

theorem lowerAll_length (word : Bytes) : (lowerAll word).length ≤ word.length := by
  induction word with
  | nil => exact Nat.le_refl _
  | cons c s ih => exact Nat.succ_le_succ ih

theorem upperFirst_length (word : Bytes) : (upperFirst word).length ≤ word.length := by
  cases word with
  | nil => exact Nat.le_refl _
  | cons c s => exact Nat.le_refl _

theorem hasTt_count {word s : Bytes} (h : hasTt word = some s) : s.count 116 < word.count 116 := by
  induction word generalizing s with
  | nil => cases h
  | cons c word ih =>
    unfold hasTt at h
    by_cases htt : c = 116 ∧ word.headD 0 = 116
    · rw [if_pos htt] at h
      obtain ⟨rfl, hhead⟩ := htt
      cases word with
      | nil => exact absurd hhead (by decide)
      | cons d word =>
        rw [← Option.some.inj h, List.tail_cons, List.headD_cons] at *
        rw [hhead]
        simp only [List.count_cons]
        have hs : ((115 : Byte) == 116) = false := by decide
        have ht : ((116 : Byte) == 116) = true := by decide
        rw [hs, ht]
        simp only [Bool.false_eq_true, if_false, if_true]
        omega
    · rw [if_neg htt] at h
      obtain ⟨rest, hrest, rfl⟩ := Option.map_eq_some_iff.mp h
      have hless := ih hrest
      rw [List.count_cons, List.count_cons]
      omega

/-- The spelling with a vowel for the apostrophe. -/
theorem addApostrvowel_eq (word vow : Bytes) :
    ∃ marks ∈ [[], [47], [94], [47, 94]],
      addApostrvowel word vow = word.dropLast ++ vow ++ (marks : Bytes) := by
  have happend : ∀ candidate mark with_ : Bytes,
      appendText candidate maxWordSize mark = some with_ → with_ = candidate ++ mark := by
    intro candidate mark with_ h
    unfold appendText at h
    split_ifs at h
    exact (Option.some.inj h).symm
  have hgetD : ∀ (marks : List Bytes) (candidate : Option Bytes), [] ∈ marks →
      (∀ s, candidate = some s → ∃ mark ∈ marks, s = word.dropLast ++ vow ++ mark) →
        ∃ mark ∈ marks, candidate.getD (word.dropLast ++ vow) = word.dropLast ++ vow ++ mark := by
    intro marks candidate hnil hsome
    cases candidate with
    | none => exact ⟨[], hnil, (List.append_nil _).symm⟩
    | some s => exact hsome s rfl
  unfold addApostrvowel
  dsimp only
  by_cases hlong : (word.dropLast ++ vow).length ≥ maxWordSize
  · rw [if_pos hlong]
    exact ⟨[], by simp, (List.append_nil _).symm⟩
  · rw [if_neg hlong]
    apply hgetD _ _ (by simp)
    intro s hs
    have haccent : ∀ candidate : Bytes,
        (if (word.dropLast ++ vow).any isAccent = true then some (word.dropLast ++ vow)
          else appendText (word.dropLast ++ vow) maxWordSize [47]) = some candidate →
        candidate = word.dropLast ++ vow ∨ candidate = word.dropLast ++ vow ++ [47] := by
      intro candidate h
      split_ifs at h
      · exact .inl (Option.some.inj h).symm
      · exact .inr (happend _ _ _ h)
    generalize (if (word.dropLast ++ vow).any isAccent = true then some (word.dropLast ++ vow)
      else appendText (word.dropLast ++ vow) maxWordSize [47]) = accented at hs haccent
    by_cases hmark : vow.headD 0 = 117 ∨ vow.headD 0 = 105 ∨ vow.headD 0 = 97
    · rw [if_pos hmark] at hs
      obtain ⟨candidate, hcandidate, hs⟩ := Option.bind_eq_some_iff.mp hs
      rw [happend _ _ _ hs]
      rcases haccent candidate hcandidate with rfl | rfl
      · exact ⟨[94], by simp, rfl⟩
      · exact ⟨[47, 94], by simp, by simp⟩
    · rw [if_neg hmark] at hs
      rcases haccent s hs with rfl | rfl
      · exact ⟨[], by simp, (List.append_nil _).symm⟩
      · exact ⟨[47], by simp, rfl⟩

/-- What the retries of an elided word make smaller. -/
def elisionRank (word : Bytes) : ℕ :=
  32 * word.count 39 + 2 * word.length + word.countP isRespelled

/-- The accent and the aspirated consonant that `checkapostr` takes away before it calls itself. -/
def elisionMarks (word : Bytes) : ℕ :=
  (if word.countP isAccent = 0 then 0 else 2) + (unaspirate word).toList.length

theorem addApostrvowel_rank {word old : Bytes} {vow : Bytes × Bool} {numSylls : ℕ}
    (hword : word.dropLast <+: old.dropLast) (hlast : old.getLast? = some 39)
    (hvow : vow ∈ elidedVowels numSylls) :
    spellingRank (addApostrvowel word vow.1) + 20 ≤ elisionRank old := by
  obtain ⟨init, rfl⟩ : ∃ init, old = init ++ [39] := by
    obtain ⟨init, hinit⟩ := List.getLast?_eq_some_iff.mp hlast
    exact ⟨init, hinit⟩
  rw [List.dropLast_concat] at hword
  obtain ⟨marks, hmarks, heq⟩ := addApostrvowel_eq word vow.1
  have hcount := hword.sublist.count_le 39
  have hrespelled := hword.sublist.countP_le (p := isRespelled)
  have hlength := hword.length_le
  have hex : (exStart (addApostrvowel word vow.1)).toNat ≤ 1 := Bool.toNat_le _
  have hadded : (vow.1 ++ marks).count 39 = 0 ∧ (vow.1 ++ marks).length ≤ 4 ∧
      (vow.1 ++ marks).countP isRespelled ≤ 1 := by
    have hall : ((elidedVowels 0 ++ elidedVowels 1).all fun vow =>
        [[], [47], [94], [47, 94]].all fun marks => decide ((vow.1 ++ marks).count 39 = 0 ∧
          (vow.1 ++ marks).length ≤ 4 ∧ (vow.1 ++ marks).countP isRespelled ≤ 1)) = true := by
      decide
    have hsylls : vow ∈ elidedVowels 0 ++ elidedVowels 1 := by
      unfold elidedVowels at hvow
      split_ifs at hvow
      · exact List.mem_append_right _ hvow
      · exact List.mem_append_left _ hvow
    simpa using List.all_eq_true.mp (List.all_eq_true.mp hall vow hsylls) marks hmarks
  unfold spellingRank elisionRank
  rw [heq] at hex ⊢
  rw [List.append_assoc] at hex ⊢
  simp only [List.count_append, List.length_append, List.countP_append, List.length_singleton] at *
  have h39 : List.count 39 [(39 : Byte)] = 1 := by decide
  have hrespelled39 : List.countP isRespelled [(39 : Byte)] = 0 := by decide
  rw [h39, hrespelled39]
  split_ifs <;> omega

theorem unaspirate_cases {word s : Bytes} (h : unaspirate word = some s) :
    ∃ p c r c' r', word = (p :: c :: r).reverse ∧ s = (p :: c' :: r').reverse ∧
      c ∈ ascii "qxf" ∧ c' ∈ ascii "tkp" ∧ (r' = r ∨ ∃ t, r = 120 :: t ∧ r' = 107 :: t) := by
  obtain ⟨back, rfl⟩ : ∃ back, word = back.reverse := ⟨word.reverse, (List.reverse_reverse _).symm⟩
  unfold unaspirate at h
  rw [List.reverse_reverse] at h
  match back, h with
  | p :: c :: r, h =>
    dsimp only at h
    by_cases hq : c = 113
    · subst hq
      rw [if_pos rfl] at h
      refine ⟨p, 113, r, 116, _, rfl, (Option.some.inj h).symm, by decide, by decide, ?_⟩
      by_cases hx : r.headD 0 = 120
      · right
        cases r with
        | nil => exact absurd hx (by decide)
        | cons d t => exact ⟨t, by rw [← hx]; rfl, by rw [if_pos hx]; rfl⟩
      · left
        rw [if_neg hx]
    · rw [if_neg hq] at h
      by_cases hx : c = 120
      · subst hx
        rw [if_pos rfl] at h
        exact ⟨p, 120, r, 107, r, rfl, (Option.some.inj h).symm, by decide, by decide, .inl rfl⟩
      · rw [if_neg hx] at h
        by_cases hf : c = 102
        · subst hf
          rw [if_pos rfl] at h
          exact ⟨p, 102, r, 112, r, rfl, (Option.some.inj h).symm, by decide, by decide, .inl rfl⟩
        · rw [if_neg hf] at h
          cases h

/-- A word whose consonant is no longer aspirated, with the same marks otherwise. -/
theorem unaspirate_some {word s : Bytes} (h : unaspirate word = some s) :
    unaspirate s = none ∧ s.getLast? = word.getLast? ∧ s.length = word.length ∧
      ∀ p : Byte → Bool, ((ascii "qxftkp").all fun c => !p c) = true →
        s.countP p = word.countP p := by
  obtain ⟨p, c, r, c', r', rfl, rfl, hc, hc', hr⟩ := unaspirate_cases h
  refine ⟨?_, by simp, ?_, fun q hq => ?_⟩
  · unfold unaspirate
    rw [List.reverse_reverse]
    have htkp : ascii "tkp" = [116, 107, 112] := by decide
    rw [htkp] at hc'
    simp only [List.mem_cons, List.not_mem_nil, or_false] at hc'
    rcases hc' with rfl | rfl | rfl <;> rfl
  · rcases hr with rfl | ⟨t, rfl, rfl⟩ <;> simp
  · have hletter : ∀ d ∈ ascii "qxf" ++ ascii "tkp", q d = false := by
      intro d hd
      have hd : d ∈ ascii "qxftkp" := hd
      simpa using List.all_eq_true.mp hq d hd
    have hcfalse := hletter c (List.mem_append_left _ hc)
    have hcfalse' := hletter c' (List.mem_append_right _ hc')
    have hx := hletter 120 (by decide)
    have hk := hletter 107 (by decide)
    rw [List.countP_reverse, List.countP_reverse]
    rcases hr with rfl | ⟨t, rfl, rfl⟩
    · simp only [List.countP_cons, hcfalse, hcfalse']
    · simp only [List.countP_cons, hcfalse, hcfalse', hx, hk]

theorem unaspirate_rank {word s : Bytes} (h : unaspirate word = some s) :
    elisionRank s = elisionRank word ∧ elisionMarks s < elisionMarks word := by
  obtain ⟨hnone, -, hlength, hcount⟩ := unaspirate_some h
  have h39 : s.count 39 = word.count 39 := hcount (· == 39) (by decide)
  have hrespelled := hcount isRespelled (by decide)
  have haccent := hcount isAccent (by decide)
  constructor
  · unfold elisionRank
    rw [h39, hlength, hrespelled]
  · unfold elisionMarks
    rw [haccent, hnone, h]
    simp

theorem isAccent_of_ultimaAccent {word : Bytes} (h : ultimaAccent word = true) :
    word.countP isAccent ≠ 0 := by
  unfold ultimaAccent at h
  rw [Bool.and_eq_true] at h
  obtain ⟨-, haccent⟩ := h
  cases hrest : (word.reverse.takeWhile fun c => !isVowel c).reverse.dropWhile
      isBreathOrQuant with
  | nil =>
    rw [hrest] at haccent
    exact absurd haccent (by decide)
  | cons c t =>
    rw [hrest] at haccent
    have hmem : c ∈ word := by
      have hdrop : c ∈ (word.reverse.takeWhile fun c => !isVowel c).reverse := by
        apply (List.dropWhile_suffix isBreathOrQuant).subset
        rw [hrest]
        exact List.mem_cons_self
      have htake := (List.takeWhile_prefix _).subset (List.mem_reverse.mp hdrop)
      exact List.mem_reverse.mp htake
    have hpos := List.countP_pos_iff.mpr ⟨c, hmem, haccent⟩
    omega

theorem stripacc_rank {word longer : Bytes} (hword : word <+: longer)
    (h : ultimaAccent word = true) :
    elisionRank (stripacc word) ≤ elisionRank longer ∧
      elisionMarks (stripacc word) < elisionMarks longer := by
  have hsub : (stripacc word).Sublist longer := List.filter_sublist.trans hword.sublist
  have hcount := hsub.count_le 39
  have hrespelled := hsub.countP_le (p := isRespelled)
  have hlength := hsub.length_le
  have hstripped : (stripacc word).countP isAccent = 0 := by
    rw [List.countP_eq_zero]
    intro c hc
    have hkept := List.of_mem_filter hc
    simpa using hkept
  have haccent : longer.countP isAccent ≠ 0 := by
    have hle := hword.sublist.countP_le (p := isAccent)
    have hpos := isAccent_of_ultimaAccent h
    omega
  constructor
  · unfold elisionRank
    omega
  · unfold elisionMarks
    rw [hstripped, if_pos rfl, if_neg haccent]
    have hone : ∀ o : Option Bytes, o.toList.length ≤ 1 := by
      intro o
      cases o <;> simp
    have hle := hone (unaspirate (stripacc word))
    omega

theorem dropLast_prefix_dropLast {word longer : Bytes} (h : word <+: longer) :
    word.dropLast <+: longer.dropLast := by
  have hlength := h.length_le
  apply List.prefix_of_prefix_length_le ((List.dropLast_prefix word).trans h)
    (List.dropLast_prefix longer)
  rw [List.length_dropLast, List.length_dropLast]
  omega

theorem elisionRank_le {word : Bytes} (hlast : word.getLast? = some 39) :
    elisionRank word + elisionMarks word + 1 ≤ spellingRank word + 3 ∧
      34 ≤ elisionRank word := by
  obtain ⟨init, rfl⟩ := List.getLast?_eq_some_iff.mp hlast
  have hone : ∀ o : Option Bytes, o.toList.length ≤ 1 := by
    intro o
    cases o <;> simp
  have hle := hone (unaspirate (init ++ [39]))
  have h39 : List.count 39 [(39 : Byte)] = 1 := by decide
  constructor
  · unfold elisionMarks spellingRank elisionRank
    split_ifs <;> omega
  · unfold elisionRank
    rw [List.count_append, h39, List.length_append, List.length_singleton]
    omega

end Morpheus
