import Morpheus.Syllables

/-!
# Standard spelling

`standword` repairs the breathings of a double r, throws junk away and leaves one accent, an acute
or a circumflex. Its steps look at the word one after another.
-/
namespace Morpheus

section Definitions

/-- `Is_junk` -/
def isJunk (c : Byte) : Bool := [44, 46, 58, 59, 34, 60, 62, 91, 93, 94, 45].contains c

/-- `zap_rr_breath` -/
def zapRrBreath : Bytes → Bytes
  | [] => []
  | c :: s => c :: zapRrFrom s

/-- The loop of `standword` over the rest of the word; `atWord` tells whether it is at the first
byte of the word. An accent takes the accents behind it away, a grave one becomes acute. -/
def standwordFrom (atWord : Bool) : Bytes → Bytes
  | [] => []
  | c :: s =>
    let s' := if isAccent c then stripacc s else s
    let c' := if c = 92 then 47 else c
    if c' = 42 ∧ !atWord then standwordFrom false s'
    else if isJunk c' then standwordFrom false s'
    else c' :: standwordFrom false s'
  termination_by s => s.length
  decreasing_by
  all_goals
    have hlength := List.length_filter_le (fun c => !isAccent c) s
    simp only [stripacc, List.length_cons]
    split <;> omega

/-- `standword` -/
def standword (word : Bytes) : Bytes :=
  let word := zapRrBreath (stripdiaer word)
  let a := word.dropWhile isJunk
  standwordFrom (a.length == word.length) a

end Definitions

section Kept
variable {before before' s t word : Bytes} {c : Byte}

/-- `standword` throws this byte away behind `before`: junk, a `*` that is not the first byte, or an
accent after another one. -/
def discards (before : Bytes) (c : Byte) : Bool :=
  isJunk c || (c == 42 && before != []) || (isAccent c && before.any isAccent)

/-- The accent that `standword` writes for a grave. -/
def acute (c : Byte) : Byte := if c = 92 then 47 else c

/-- What `standword` keeps of the bytes behind `before`. -/
def keptFrom : Bytes → Bytes → Bytes
  | _, [] => []
  | before, c :: s => (if discards before c then [] else [acute c]) ++ keptFrom (before ++ [c]) s

theorem acute_eq_star : acute c = 42 ↔ c = 42 := by
  revert c
  refine @forall_byte _ ?_
  decide +kernel

theorem isJunk_acute (c : Byte) : isJunk (acute c) = isJunk c := by
  revert c
  refine @forall_byte _ ?_
  decide +kernel

theorem plain_of_junk (c : Byte) (h : isJunk c = true) :
    isAccent c = false ∧ c ≠ 42 ∧ c ≠ 43 ∧ c ≠ 114 := by
  revert c
  refine @forall_byte _ ?_
  decide +kernel

theorem standwordFrom_cons (atWord : Bool) (c : Byte) (s : Bytes) :
    standwordFrom atWord (c :: s) =
      (if (c = 42 ∧ atWord = false) ∨ isJunk c = true then [] else [acute c]) ++
        standwordFrom false (if isAccent c then stripacc s else s) := by
  have hstar : (if c = 92 then (47 : Byte) else c) = 42 ↔ c = 42 := acute_eq_star
  have hjunk : isJunk (if c = 92 then (47 : Byte) else c) = isJunk c := isJunk_acute c
  rw [standwordFrom]
  generalize (if isAccent c = true then stripacc s else s) = s'
  simp only [hstar, hjunk, Bool.not_eq_true']
  by_cases hinner : c = 42 ∧ atWord = false
  · simp [hinner]
  · by_cases hj : isJunk c = true <;> simp [hinner, hj, acute]

theorem discards_iff (h : (before.any isAccent && isAccent c) = false) :
    discards before c = true ↔ (c = 42 ∧ (before == []) = false) ∨ isJunk c = true := by
  rw [Bool.and_comm] at h
  simp only [discards, h, Bool.or_false, Bool.or_eq_true, Bool.and_eq_true, beq_iff_eq, bne]
  rw [Bool.not_eq_true']
  exact or_comm

/-- The loop of `standword` keeps what the account of the bytes before says. -/
theorem standwordFrom_eq (before s : Bytes) :
    standwordFrom (before == []) (if before.any isAccent then stripacc s else s) =
      keptFrom before s := by
  induction s generalizing before with
  | nil =>
    have hnil : (if before.any isAccent then stripacc [] else []) = ([] : Bytes) := by
      split <;> rfl
    rw [hnil, standwordFrom, keptFrom]
  | cons c s ih =>
    have hlater := ih (before ++ [c])
    have hstart : (before ++ [c] == []) = false := by simp
    have hany : (before ++ [c]).any isAccent = (before.any isAccent || isAccent c) := by simp
    rw [hstart, hany] at hlater
    rw [keptFrom, ← hlater]
    by_cases hbefore : before.any isAccent = true
    · rw [if_pos hbefore, hbefore, Bool.true_or, if_pos rfl]
      by_cases hacc : isAccent c = true
      · have hstrip : stripacc (c :: s) = stripacc s := by simp [stripacc, hacc]
        have hstart' : (before == []) = false := by
          cases before with
          | nil => simp at hbefore
          | cons b before => rfl
        rw [hstrip, hstart', if_pos (by simp [discards, hacc, hbefore]), List.nil_append]
      · have hstrip : stripacc (c :: s) = c :: stripacc s := by simp [stripacc, hacc]
        rw [hstrip, standwordFrom_cons, if_neg hacc]
        simp only [@discards_iff before c (by simp [hacc])]
    · rw [Bool.not_eq_true] at hbefore
      rw [if_neg (by simp [hbefore]), standwordFrom_cons, hbefore, Bool.false_or]
      simp only [@discards_iff before c (by simp [hbefore])]

theorem keptFrom_append (before s t : Bytes) :
    keptFrom before (s ++ t) = keptFrom before s ++ keptFrom (before ++ s) t := by
  induction s generalizing before with
  | nil => simp [keptFrom]
  | cons c s ih => rw [List.cons_append, keptFrom, keptFrom, ih]; simp

theorem keptFrom_junk {junk : Bytes} (h : ∀ c ∈ junk, isJunk c = true) (before s : Bytes) :
    keptFrom before (junk ++ s) = keptFrom (before ++ junk) s := by
  induction junk generalizing before with
  | nil => simp
  | cons c junk ih =>
    have hc : discards before c = true := by simp [discards, h c (by simp)]
    rw [List.cons_append, keptFrom, if_pos hc, List.nil_append, ih fun d hd => h d (by simp [hd])]
    simp

theorem standword_eq (word : Bytes) : standword word = keptFrom [] (zapRrBreath (stripdiaer word)) := by
  rw [standword]
  generalize zapRrBreath (stripdiaer word) = x
  have hsplit := List.takeWhile_append_dropWhile (p := isJunk) (l := x)
  have hjunk : ∀ c ∈ x.takeWhile isJunk, isJunk c = true := fun c hc => List.mem_takeWhile_imp hc
  have hplain : (x.takeWhile isJunk).any isAccent = false := by
    rw [List.any_eq_false]
    exact fun c hc => by simp [(plain_of_junk c (hjunk c hc)).1]
  have hstart : ((x.dropWhile isJunk).length == x.length) = (x.takeWhile isJunk == []) := by
    have hlength := congrArg List.length hsplit
    rw [List.length_append] at hlength
    rw [Bool.eq_iff_iff, beq_iff_eq, beq_iff_eq, ← List.length_eq_zero_iff]
    omega
  have heq := standwordFrom_eq (x.takeWhile isJunk) (x.dropWhile isJunk)
  rw [hplain, if_neg (by simp), ← hstart] at heq
  conv_rhs => rw [← hsplit, keptFrom_junk hjunk, List.nil_append]
  exact heq

theorem keptFrom_congr (hstart : (before == []) = (before' == []))
    (hany : before.any isAccent = before'.any isAccent) (s : Bytes) :
    keptFrom before s = keptFrom before' s := by
  induction s generalizing before before' with
  | nil => rfl
  | cons c s ih =>
    have hdiscards : discards before c = discards before' c := by
      simp only [discards, bne, hstart, hany]
    rw [keptFrom, keptFrom, hdiscards, @ih (before ++ [c]) (before' ++ [c]) (by cases before <;> cases before' <;> rfl) (by simp [hany])]

end Kept

section Doubled
variable {before s t word : Bytes} {c : Byte}

/-- The `r)r(` that `zap_rr_breath` looks for. -/
def rrBreath : Bytes := [114, 41, 114, 40]

theorem take_three_iff (s : Bytes) : (c = 114 ∧ s.take 3 = [41, 114, 40]) ↔ rrBreath <+: c :: s := by
  rw [rrBreath, List.cons_prefix_cons, List.prefix_iff_eq_take]
  simp only [List.length_cons, List.length_nil]
  constructor
  · rintro ⟨rfl, h⟩
    exact ⟨rfl, h.symm⟩
  · rintro ⟨rfl, h⟩
    exact ⟨rfl, h.symm⟩

theorem zapRrFrom_prefix (t : Bytes) :
    zapRrFrom (114 :: 41 :: 114 :: 40 :: t) = 114 :: zapRrFrom (114 :: t) := by
  rw [zapRrFrom]
  simp

theorem zapRrFrom_plain (h : ¬rrBreath <+: c :: s) : zapRrFrom (c :: s) = c :: zapRrFrom s := by
  rw [zapRrFrom, if_neg fun hmatch => h ((take_three_iff s).mp hmatch)]

theorem zapRrFrom_sublist (s : Bytes) : (zapRrFrom s).Sublist s := by
  fun_induction zapRrFrom s with
  | case1 => exact List.Sublist.refl _
  | case2 c s h ih =>
    obtain ⟨rfl, h⟩ := h
    have hsplit := List.take_append_drop 3 s
    rw [h] at hsplit
    rw [← hsplit]
    refine List.Sublist.cons_cons _ ?_
    have hkept : ((114 : Byte) :: s.drop 3).Sublist (41 :: 114 :: 40 :: s.drop 3) :=
      .cons _ (.cons_cons _ (.cons _ (.refl _)))
    exact ih.trans hkept
  | case3 c s h ih => exact ih.cons_cons c

/-- `zap_rr_breath` leaves a text as it is when there is no `r)r(` in it. -/
theorem zapRrFrom_eq_self (s : Bytes) : zapRrFrom s = s ↔ ¬rrBreath <:+: s := by
  induction s with
  | nil => simp [zapRrFrom, rrBreath]
  | cons c s ih =>
    rw [List.infix_cons_iff, not_or]
    by_cases hmatch : rrBreath <+: c :: s
    · simp only [hmatch, not_true_eq_false, false_and, iff_false]
      obtain ⟨t, ht⟩ := hmatch
      rw [← ht, rrBreath, List.cons_append, List.cons_append, List.cons_append, List.cons_append,
        List.nil_append, zapRrFrom_prefix]
      intro heq
      have hlength := (zapRrFrom_sublist (114 :: t)).length_le
      have := congrArg List.length heq
      simp only [List.length_cons] at this hlength
      omega
    · rw [zapRrFrom_plain hmatch, List.cons.injEq, ih]
      simp [hmatch]

theorem zapRrBreath_eq_self (s : Bytes) : zapRrBreath s = s ↔ ¬rrBreath <:+: s.tail := by
  cases s with
  | nil => simp [zapRrBreath, rrBreath]
  | cons c s => rw [zapRrBreath, List.cons.injEq, zapRrFrom_eq_self]; simp

end Doubled

section Standard
variable {before s t word : Bytes} {c : Byte}

/-- A text from which `standword` throws nothing away. -/
structure Standard (s : Bytes) : Prop where
  diaeresis : 43 ∉ s
  junk : ∀ c ∈ s, isJunk c = false
  star : 42 ∉ s.tail
  grave : 92 ∉ s
  accents : naccents s ≤ 1

theorem acute_ne_grave (c : Byte) : acute c ≠ 92 := by
  revert c
  refine @forall_byte _ ?_
  decide +kernel

theorem acute_eq_diaeresis (c : Byte) : acute c = 43 ↔ c = 43 := by
  revert c
  refine @forall_byte _ ?_
  decide +kernel

theorem isAccent_acute (c : Byte) : isAccent (acute c) = isAccent c := by
  revert c
  refine @forall_byte _ ?_
  decide +kernel

theorem keptFrom_mem {d : Byte} (h : d ∈ keptFrom before s) :
    isJunk d = false ∧ d ≠ 92 ∧ (before ≠ [] → d ≠ 42) ∧ ∃ c ∈ s, d = acute c := by
  induction s generalizing before with
  | nil => simp [keptFrom] at h
  | cons c s ih =>
    rw [keptFrom, List.mem_append] at h
    rcases h with h | h
    · by_cases hc : discards before c = true
      · simp [hc] at h
      · rw [if_neg hc, List.mem_singleton] at h
        subst h
        simp only [discards, Bool.or_eq_true, not_or, Bool.and_eq_true, beq_iff_eq, bne_iff_ne,
          not_and, Bool.not_eq_true] at hc
        refine ⟨by rw [isJunk_acute]; exact hc.1.1, acute_ne_grave c, fun hbefore h42 => ?_,
          c, by simp, rfl⟩
        exact hc.1.2 (acute_eq_star.mp h42) hbefore
    · obtain ⟨hjunk, hgrave, hstar, d', hd', heq⟩ := ih h
      exact ⟨hjunk, hgrave, fun _ => hstar (by simp), d', by simp [hd'], heq⟩

theorem naccents_keptFrom (before s : Bytes) :
    naccents (keptFrom before s) ≤ if before.any isAccent then 0 else 1 := by
  induction s generalizing before with
  | nil => simp [keptFrom, naccents]
  | cons c s ih =>
    have hrest := ih (before ++ [c])
    have hany : (before ++ [c]).any isAccent = (before.any isAccent || isAccent c) := by simp
    have hone : ((if discards before c = true then [] else [acute c]) : Bytes).countP isAccent ≤
        if (isAccent c && !before.any isAccent) = true then 1 else 0 := by
      by_cases hc : discards before c = true
      · simp [hc]
      · have hboth : (isAccent c && before.any isAccent) = false := by
          rw [discards, Bool.or_eq_true, not_or] at hc
          exact Bool.eq_false_iff.mpr hc.2
        rw [if_neg hc, List.countP_singleton, isAccent_acute]
        cases hacc : isAccent c <;> cases hbefore : before.any isAccent <;> simp_all
    rw [hany] at hrest
    rw [keptFrom]
    simp only [naccents, List.countP_append] at hrest ⊢
    cases hbefore : before.any isAccent <;> cases hacc : isAccent c <;>
      rw [hbefore, hacc] at hrest hone <;>
      simp only [Bool.or_self, Bool.or_false, Bool.or_true, Bool.and_self, Bool.and_false,
        Bool.and_true, Bool.not_true, Bool.not_false, Bool.false_eq_true, if_true, if_false]
        at hrest hone ⊢ <;>
      omega

theorem zapRrBreath_sublist (s : Bytes) : (zapRrBreath s).Sublist s := by
  cases s with
  | nil => exact .refl _
  | cons c s => exact (zapRrFrom_sublist s).cons_cons c

theorem standword_standard (word : Bytes) : Standard (standword word) := by
  rw [standword_eq]
  have hsub := zapRrBreath_sublist (stripdiaer word)
  generalize zapRrBreath (stripdiaer word) = x at hsub
  refine ⟨fun h43 => ?_, fun c hc => (keptFrom_mem hc).1, fun h42 => ?_,
    fun h92 => (keptFrom_mem h92).2.1 rfl, naccents_keptFrom [] x⟩
  · obtain ⟨-, -, -, c, hc, heq⟩ := keptFrom_mem h43
    have hc43 := (acute_eq_diaeresis c).mp heq.symm
    have hmem := hsub.subset hc
    simp [stripdiaer, hc43] at hmem
  · cases x with
    | nil => simp [keptFrom] at h42
    | cons c s =>
      have hlater : 42 ∈ keptFrom ([] ++ [c]) s := by
        rw [keptFrom] at h42
        split at h42
        · exact List.mem_of_mem_tail h42
        · exact h42
      exact (keptFrom_mem hlater).2.2.1 (by simp) rfl

theorem Standard.zap (h : Standard s) : Standard (zapRrBreath s) := by
  have hsub := zapRrBreath_sublist s
  refine ⟨fun h43 => h.diaeresis (hsub.subset h43), fun c hc => h.junk c (hsub.subset hc), ?_,
    fun h92 => h.grave (hsub.subset h92), hsub.countP_le.trans h.accents⟩
  cases s with
  | nil => exact h.star
  | cons c s => exact fun h42 => h.star ((zapRrFrom_sublist s).subset h42)

theorem keptFrom_eq_self (hbefore : before ≠ []) (hjunk : ∀ c ∈ s, isJunk c = false) (hstar : 42 ∉ s)
    (hgrave : 92 ∉ s) (haccents : naccents (before ++ s) ≤ 1) : keptFrom before s = s := by
  induction s generalizing before with
  | nil => rfl
  | cons c s ih =>
    have hc : acute c = c := if_neg fun h92 => hgrave (by simp [h92])
    have hstar' : c ≠ 42 := fun h42 => hstar (by simp [h42])
    have hone : (isAccent c && before.any isAccent) = false := by
      by_contra hboth
      rw [Bool.not_eq_false, Bool.and_eq_true] at hboth
      have hpos : 0 < before.countP isAccent := List.countP_pos_iff.mpr (by simpa using hboth.2)
      simp only [naccents, List.countP_append, List.countP_cons_of_pos hboth.1] at haccents
      omega
    have hkeep : discards before c = false := by
      simp [discards, hjunk c (by simp), hstar', hone]
    rw [keptFrom, hkeep, if_neg (by simp), hc, ih (by simp) (fun d hd => hjunk d (by simp [hd]))
      (fun h42 => hstar (by simp [h42])) (fun h92 => hgrave (by simp [h92])) (by simpa using haccents)]
    rfl

theorem Standard.kept (h : Standard s) : keptFrom [] s = s := by
  cases s with
  | nil => rfl
  | cons c s =>
    have hc : acute c = c := if_neg fun h92 => h.grave (by simp [h92])
    have hkeep : discards [] c = false := by simp [discards, h.junk c (by simp)]
    have hrest := @keptFrom_eq_self ([] ++ [c]) s (by simp)
      (fun d hd => h.junk d (by simp [hd])) h.star (fun h92 => h.grave (by simp [h92]))
      (by simpa using h.accents)
    rw [keptFrom, hkeep, if_neg (by simp), hc, hrest]
    rfl

theorem standword_standword (word : Bytes) :
    standword (standword word) = zapRrBreath (standword word) := by
  have hstandard := standword_standard word
  have hdiaer : stripdiaer (standword word) = standword word := by
    rw [stripdiaer, List.filter_eq_self]
    intro c hc
    have hne : c ≠ 43 := fun h43 => hstandard.diaeresis (h43 ▸ hc)
    simpa using hne
  rw [standword_eq (standword word), hdiaer, hstandard.zap.kept]

end Standard
section Idempotence
variable {before s t u word x g : Bytes} {c d : Byte}

/-- `standword` throws all of a text away behind `before`. -/
def Discarded (before g : Bytes) : Prop :=
  ∀ a c b, g = a ++ c :: b → discards (before ++ a) c = true

/-- Behind the first byte that is kept, the letters of `r)r(` follow each other with bytes that
`standword` throws away between them. -/
def BrokenRr (x : Bytes) : Prop :=
  ∃ front g₁ g₂ g₃ rest, x = front ++ 114 :: (g₁ ++ 41 :: (g₂ ++ 114 :: (g₃ ++ 40 :: rest))) ∧
    ¬Discarded [] front ∧ Discarded (front ++ [114]) g₁ ∧
    Discarded (front ++ [114] ++ g₁ ++ [41]) g₂ ∧
    Discarded (front ++ [114] ++ g₁ ++ [41] ++ g₂ ++ [114]) g₃

theorem keptFrom_eq_nil (before g : Bytes) : keptFrom before g = [] ↔ Discarded before g := by
  induction g generalizing before with
  | nil => simp [keptFrom, Discarded]
  | cons c g ih =>
    rw [keptFrom, List.append_eq_nil_iff, ih]
    constructor
    · rintro ⟨hc, hg⟩ a d b heq
      cases a with
      | nil =>
        rw [List.nil_append, List.cons.injEq] at heq
        obtain ⟨rfl, -⟩ := heq
        by_contra hd
        rw [List.append_nil] at hd
        rw [if_neg hd] at hc
        simp at hc
      | cons e a =>
        rw [List.cons_append, List.cons.injEq] at heq
        obtain ⟨rfl, heq⟩ := heq
        simpa using hg a d b heq
    · intro h
      have hc : discards before c = true := by simpa using h [] c g rfl
      exact ⟨if_pos hc, fun a d b heq => by simpa using h (c :: a) d b (by rw [heq]; rfl)⟩

theorem keptFrom_eq_append (h : keptFrom before s = u ++ t) :
    ∃ p q, s = p ++ q ∧ keptFrom before p = u ∧ keptFrom (before ++ p) q = t := by
  induction s generalizing before u with
  | nil =>
    rw [keptFrom, eq_comm, List.append_eq_nil_iff] at h
    exact ⟨[], [], rfl, h.1.symm, h.2.symm⟩
  | cons c s ih =>
    rw [keptFrom] at h
    by_cases hc : discards before c = true
    · rw [if_pos hc, List.nil_append] at h
      obtain ⟨p, q, rfl, hp, hq⟩ := ih h
      exact ⟨c :: p, q, rfl, by rw [keptFrom, if_pos hc, hp, List.nil_append], by simpa using hq⟩
    · rw [if_neg hc] at h
      cases u with
      | nil => exact ⟨[], c :: s, rfl, rfl, by simpa [keptFrom, hc] using h⟩
      | cons e u =>
        rw [List.singleton_append, List.cons_append, List.cons.injEq] at h
        obtain ⟨p, q, rfl, hp, hq⟩ := ih h.2
        exact ⟨c :: p, q, rfl, by rw [keptFrom, if_neg hc, hp, h.1, List.singleton_append],
          by simpa using hq⟩

theorem acute_eq (hd : d ≠ 47) (h : acute c = d) : c = d := by
  by_cases hc : c = 92
  · rw [hc] at h
    exact absurd h.symm hd
  · rwa [acute, if_neg hc] at h

theorem keptFrom_eq_cons (hd : d ≠ 47) (h : keptFrom before s = d :: t) :
    ∃ g q, s = g ++ d :: q ∧ Discarded before g ∧ keptFrom (before ++ g ++ [d]) q = t := by
  induction s generalizing before with
  | nil => simp [keptFrom] at h
  | cons c s ih =>
    rw [keptFrom] at h
    by_cases hc : discards before c = true
    · rw [if_pos hc, List.nil_append] at h
      obtain ⟨g, q, rfl, hg, hq⟩ := ih h
      refine ⟨c :: g, q, rfl, ?_, by simpa using hq⟩
      rw [← keptFrom_eq_nil] at hg ⊢
      rw [keptFrom, if_pos hc, hg, List.nil_append]
    · rw [if_neg hc, List.singleton_append, List.cons.injEq] at h
      obtain rfl := acute_eq hd h.1
      exact ⟨[], s, rfl, (keptFrom_eq_nil before []).mp rfl, by simpa using h.2⟩

theorem keptFrom_gap (hg : Discarded before g) (hd : discards (before ++ g) d = false)
    (hacute : acute d = d) : keptFrom before (g ++ d :: s) = d :: keptFrom (before ++ g ++ [d]) s := by
  rw [keptFrom_append, (keptFrom_eq_nil before g).mpr hg, List.nil_append, keptFrom, hd,
    if_neg (by simp), hacute]
  rfl

theorem discards_letter (hd : d = 114 ∨ d = 41 ∨ d = 40) : discards before d = false := by
  rcases hd with rfl | rfl | rfl <;> simp [discards, isJunk, isAccent]

theorem brokenRr_iff (x : Bytes) : BrokenRr x ↔ rrBreath <:+: (keptFrom [] x).tail := by
  constructor
  · rintro ⟨front, g₁, g₂, g₃, rest, rfl, hfront, h₁, h₂, h₃⟩
    have hkept : keptFrom front (114 :: (g₁ ++ 41 :: (g₂ ++ 114 :: (g₃ ++ 40 :: rest)))) =
        rrBreath ++ keptFrom (front ++ [114] ++ g₁ ++ [41] ++ g₂ ++ [114] ++ g₃ ++ [40]) rest := by
      have h₀ := @keptFrom_gap front (g₁ ++ 41 :: (g₂ ++ 114 :: (g₃ ++ 40 :: rest))) [] 114
        ((keptFrom_eq_nil front []).mp rfl) (discards_letter (by simp)) rfl
      rw [List.nil_append, List.append_nil] at h₀
      rw [h₀, keptFrom_gap h₁ (discards_letter (by simp)) rfl,
        keptFrom_gap h₂ (discards_letter (by simp)) rfl,
        keptFrom_gap h₃ (discards_letter (by simp)) rfl]
      rfl
    rw [← keptFrom_eq_nil] at hfront
    obtain ⟨e, a, ha⟩ := List.exists_cons_of_ne_nil hfront
    rw [keptFrom_append, List.nil_append, ha, hkept]
    exact ⟨a, keptFrom (front ++ [114] ++ g₁ ++ [41] ++ g₂ ++ [114] ++ g₃ ++ [40]) rest, by simp⟩
  · rintro ⟨a, b, hab⟩
    have hne : keptFrom [] x ≠ [] := by
      intro hnil
      rw [hnil] at hab
      simp [rrBreath] at hab
    obtain ⟨e, y, hy⟩ := List.exists_cons_of_ne_nil hne
    rw [hy, List.tail_cons] at hab
    have hsplit : keptFrom [] x = (e :: a) ++ (114 :: 41 :: 114 :: 40 :: b) := by
      rw [hy, ← hab]
      simp [rrBreath]
    obtain ⟨p, q, rfl, hp, hq⟩ := keptFrom_eq_append hsplit
    rw [List.nil_append] at hq
    obtain ⟨g₀, q, rfl, h₀, hq⟩ := keptFrom_eq_cons (by decide) hq
    obtain ⟨g₁, q, rfl, h₁, hq⟩ := keptFrom_eq_cons (by decide) hq
    obtain ⟨g₂, q, rfl, h₂, hq⟩ := keptFrom_eq_cons (by decide) hq
    obtain ⟨g₃, q, rfl, h₃, -⟩ := keptFrom_eq_cons (by decide) hq
    refine ⟨p ++ g₀, g₁, g₂, g₃, q, by simp, ?_, h₁, h₂, h₃⟩
    rw [← keptFrom_eq_nil, keptFrom_append, hp]
    simp

/-- Standardising a word again changes nothing exactly when no `r)r(` is broken up in it by bytes
that are thrown away after `zap_rr_breath` has looked at the word. -/
theorem standword_idempotent_iff (word : Bytes) :
    standword (standword word) = standword word ↔ ¬BrokenRr (zapRrBreath (stripdiaer word)) := by
  rw [standword_standword, zapRrBreath_eq_self, brokenRr_iff, standword_eq]

/-- A word with a hyphen between its two `r`. -/
theorem standword_hyphen : ¬∀ word, standword (standword word) = standword word := by
  intro h
  have heq := h (ascii "a)nanti/r)-r(hton")
  have hdiaer : stripdiaer (ascii "a)nanti/r)-r(hton") = ascii "a)nanti/r)-r(hton" := by
    decide +kernel
  have hzap : zapRrBreath (ascii "a)nanti/r)-r(hton") = ascii "a)nanti/r)-r(hton" :=
    (zapRrBreath_eq_self _).mpr (by decide +kernel)
  rw [standword_standword, zapRrBreath_eq_self, standword_eq, hdiaer, hzap] at heq
  exact heq (by decide +kernel)

end Idempotence

section Prefixed
variable {junk s t word : Bytes} {c : Byte}

theorem zapRrFrom_front (h : ∀ c ∈ junk, c ≠ 114) (s : Bytes) :
    zapRrFrom (junk ++ s) = junk ++ zapRrFrom s := by
  induction junk with
  | nil => rfl
  | cons c junk ih =>
    have hc : ¬rrBreath <+: c :: (junk ++ s) := by
      rw [rrBreath, List.cons_prefix_cons, not_and]
      exact fun h114 => absurd h114.symm (h c (by simp))
    rw [List.cons_append, zapRrFrom_plain hc, ih fun d hd => h d (by simp [hd])]
    rfl

theorem standword_junk (hjunk : ∀ c ∈ junk, isJunk c = true) (hne : junk ≠ []) (word : Bytes) :
    standword (junk ++ word) = keptFrom junk (zapRrFrom (stripdiaer word)) := by
  have hplain := fun c hc => plain_of_junk c (hjunk c hc)
  have hdiaer : stripdiaer (junk ++ word) = junk ++ stripdiaer word := by
    rw [stripdiaer, List.filter_append, List.filter_eq_self.mpr]
    · rfl
    · exact fun c hc => by simpa using (hplain c hc).2.2.1
  have hzap : zapRrBreath (junk ++ stripdiaer word) = junk ++ zapRrFrom (stripdiaer word) := by
    cases junk with
    | nil => exact absurd rfl hne
    | cons c junk =>
      rw [List.cons_append, zapRrBreath, zapRrFrom_front fun d hd => (hplain d (by simp [hd])).2.2.2]
      rfl
  rw [standword_eq, hdiaer, hzap, keptFrom_junk hjunk, List.nil_append]

theorem keptFrom_junk_first (hjunk : ∀ c ∈ junk, isJunk c = true) (hc : c ≠ 42) (s : Bytes) :
    keptFrom junk (c :: s) = keptFrom [] (c :: s) := by
  have hany : junk.any isAccent = false := by
    rw [List.any_eq_false]
    exact fun d hd => by simp [(plain_of_junk d (hjunk d hd)).1]
  have hdiscards : discards junk c = discards [] c := by simp [discards, hc, hany]
  have hrest := @keptFrom_congr (junk ++ [c]) ([] ++ [c])
    (by cases junk <;> rfl) (by simp [hany]) s
  rw [keptFrom, keptFrom, hdiscards, hrest]

theorem standword_star (s : Bytes) (hs : stripdiaer word = 42 :: s) : 42 ∈ standword word := by
  rw [standword_eq, hs, zapRrBreath, keptFrom, if_neg (by simp [discards, isJunk, isAccent])]
  simp [acute]

theorem standword_rrBreath (t : Bytes) (hs : stripdiaer word = 114 :: 41 :: t) :
    ∃ u, standword word = 114 :: 41 :: u := by
  have h41 : ¬rrBreath <+: 41 :: t := by
    rw [rrBreath, List.cons_prefix_cons, not_and]
    exact fun h114 => absurd h114 (by decide)
  rw [standword_eq, hs, zapRrBreath, zapRrFrom_plain h41, keptFrom,
    discards_letter (by simp), if_neg (by simp), keptFrom, discards_letter (by simp),
    if_neg (by simp)]
  exact ⟨_, rfl⟩

theorem zapRrFrom_head (s : Bytes) : ∃ u, zapRrFrom (114 :: s) = 114 :: u := by
  rw [zapRrFrom]
  split
  · exact ⟨_, rfl⟩
  · exact ⟨_, rfl⟩

theorem keptFrom_rr (before t : Bytes) :
    ∃ u, keptFrom before (zapRrFrom (rrBreath ++ t)) = 114 :: 114 :: u := by
  obtain ⟨u, hu⟩ := zapRrFrom_head t
  have hzap : zapRrFrom (rrBreath ++ t) = 114 :: 114 :: u := by
    rw [rrBreath, List.cons_append, List.cons_append, List.cons_append, List.cons_append,
      List.nil_append, zapRrFrom_prefix, hu]
  rw [hzap, keptFrom, discards_letter (by simp), if_neg (by simp), keptFrom,
    discards_letter (by simp), if_neg (by simp)]
  exact ⟨_, rfl⟩

/-- Junk in front of a word changes nothing exactly when there is none, or the word begins neither
with `*` nor with `r)r(`. -/
theorem standword_junk_iff (junk word : Bytes) (hjunk : ∀ c ∈ junk, isJunk c = true) :
    standword (junk ++ word) = standword word ↔
      junk = [] ∨ (stripdiaer word).headD 0 ≠ 42 ∧ ¬rrBreath <+: stripdiaer word := by
  by_cases hne : junk = []
  · simp [hne]
  rw [standword_junk hjunk hne]
  constructor
  · refine fun heq => .inr ⟨fun hstar => ?_, fun hrr => ?_⟩
    · cases hword : stripdiaer word with
      | nil =>
        rw [hword] at hstar
        exact absurd hstar (by decide)
      | cons c s =>
        rw [hword, List.headD_cons] at hstar
        have hmem := standword_star s (hstar ▸ hword)
        rw [← heq] at hmem
        exact (keptFrom_mem hmem).2.2.1 hne rfl
    · obtain ⟨t, ht⟩ := hrr
      obtain ⟨u, hu⟩ := @standword_rrBreath word (114 :: 40 :: t) (by rw [← ht]; rfl)
      obtain ⟨u', hu'⟩ := keptFrom_rr junk t
      rw [ht] at hu'
      rw [hu', hu] at heq
      simp at heq
  · rintro (hnil | ⟨hstar, hrr⟩)
    · exact absurd hnil hne
    · rw [standword_eq]
      cases hword : stripdiaer word with
      | nil =>
        rw [zapRrFrom]
        rfl
      | cons c s =>
        rw [hword] at hstar hrr
        rw [zapRrFrom_plain hrr, zapRrBreath, keptFrom_junk_first hjunk (by simpa using hstar)]

theorem standword_junk_iff_plain : standword (ascii "[lo/gos") = standword (ascii "lo/gos") :=
  (standword_junk_iff [91] (ascii "lo/gos") (by decide +kernel)).mpr
    (.inr ⟨by decide +kernel, by decide +kernel⟩)

/-- A bracket in front of a capital letter takes the capital mark away. -/
theorem standword_bracket :
    ¬∀ junk word, (∀ c ∈ junk, isJunk c = true) → standword (junk ++ word) = standword word := by
  intro h
  have heq := h [91] (ascii "*)axilleu/s") (by decide +kernel)
  have hmem := @standword_star (ascii "*)axilleu/s") (ascii ")axilleu/s") (by decide +kernel)
  rw [← heq, standword_junk (by decide +kernel) (by decide +kernel)] at hmem
  exact (keptFrom_mem hmem).2.2.1 (by decide +kernel) rfl

end Prefixed

end Morpheus
