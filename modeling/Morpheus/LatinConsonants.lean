import Morpheus.SpellingRank

/-!
# The consonant u

`u2v` writes `v` for a `u` in front of a vowel. The end of the word passes for a vowel, so a `u`
that ends the word may be respelled as well.
-/
namespace Morpheus

def vowelLetters : Bytes := ascii "aeiouAEIOU"

/-- A spelling with `v` for some of the `u` that stand in front of a vowel. -/
inductive ConsonantRespelling : Bytes → Bytes → Prop
  | nil : ConsonantRespelling [] []
  | kept (c : Byte) {s t : Bytes} : ConsonantRespelling s t → ConsonantRespelling (c :: s) (c :: t)
  | respelt {v : Byte} {s t : Bytes} : v ∈ vowelLetters → ConsonantRespelling (v :: s) t →
      ConsonantRespelling (117 :: v :: s) (118 :: t)

/-- What `u2v` is to do: it replaces letters in front of a vowel, `U` at the beginning only, and
leaves the length, the other letters and a `u` at the end; it counts its changes. -/
structure RespellsConsonants (word result : Bytes) (nchanges : ℕ) : Prop where
  spelled : ConsonantRespelling word result ∨
    ∃ v ∈ vowelLetters, ∃ s t, word = 85 :: v :: s ∧ result = 86 :: t ∧
      ConsonantRespelling (v :: s) t
  length_eq : result.length = word.length
  counted : nchanges ≠ 0 ↔ result ≠ word
  final : result.getLast? = word.getLast?

/-- The tests for a `u` behind `half1` and in front of `s`. -/
def acceptsConsonant (spelling : Spelling) (half1 s : Bytes) : Bool :=
  latVow (half1.getLastD 0) || spelling.isRawpreverb half1 || spelling.chckend s

def u2vLetter (spelling : Spelling) (half1 : Bytes) (c : Byte) (s : Bytes) : Byte :=
  if c == 117 && latVow (s.headD 0) && acceptsConsonant spelling half1 s then 118 else c

def u2vInitial (c : Byte) (s : Bytes) : Byte :=
  if (c == 85 || c == 117) && latVow (s.headD 0) then (if c == 85 then 86 else 118) else c

/-- The `half1` of the scan when it comes to the last letter. -/
def half1From (spelling : Spelling) : Bytes → Bytes → Bytes
  | half1, c :: d :: s => half1From spelling (half1 ++ [u2vLetter spelling half1 c (d :: s)]) (d :: s)
  | half1, _ => half1

/-- The last letter is respelled: a `U` or `u` that is the whole word, or a `u` that one of the
tests accepts. -/
def respellsFinal (spelling : Spelling) : Bytes → Bool
  | [] => false
  | [c] => c == 85 || c == 117
  | c :: s =>
    s.getLast? == some 117 && acceptsConsonant spelling (half1From spelling [u2vInitial c s] s) []

section Scan
variable {spelling : Spelling} {half1 word s t : Bytes} {c d : Byte}

theorem u2vFrom_cons (spelling : Spelling) (half1 : Bytes) (c : Byte) (s : Bytes) :
    (u2vFrom spelling half1 (c :: s)).1 = u2vLetter spelling half1 c s ::
      (u2vFrom spelling (half1 ++ [u2vLetter spelling half1 c s]) s).1 := rfl

theorem u2v_cons (spelling : Spelling) (c : Byte) (s : Bytes) :
    (u2v spelling (c :: s)).1 = u2vInitial c s :: (u2vFrom spelling [u2vInitial c s] s).1 := rfl

theorem mem_vowelLetters (hvowel : latVow d = true) (hd : d ≠ 0) : d ∈ vowelLetters := by
  simpa [latVow, vowelLetters, hd] using hvowel

theorem ConsonantRespelling.length_eq (h : ConsonantRespelling s t) : t.length = s.length := by
  induction h with
  | nil => rfl
  | kept c _ ih => rw [List.length_cons, List.length_cons, ih]
  | respelt _ _ ih => rw [List.length_cons, List.length_cons, ih]

theorem ConsonantRespelling.getLast? (h : ConsonantRespelling s t) : t.getLast? = s.getLast? := by
  induction h with
  | nil => rfl
  | kept c hrest ih => rw [List.getLast?_cons, List.getLast?_cons, ih]
  | @respelt v s t _ hrest ih =>
    have hne : t ≠ [] := by
      intro hnil
      have hlength := hrest.length_eq
      rw [hnil] at hlength
      cases hlength
    obtain ⟨d, t, rfl⟩ := List.exists_cons_of_ne_nil hne
    rw [List.getLast?_cons_cons, List.getLast?_cons_cons, ih]

theorem consonantRespelling_kept :
    ConsonantRespelling (c :: s) (c :: t) ↔ ConsonantRespelling s t := by
  constructor
  · intro h
    cases h with
    | kept _ hrest => exact hrest
  · exact .kept c

theorem consonantRespelling_respelt (hd : d ∈ vowelLetters) :
    ConsonantRespelling (117 :: d :: s) (118 :: t) ↔ ConsonantRespelling (d :: s) t := by
  constructor
  · intro h
    cases h with
    | respelt _ hrest => exact hrest
  · exact .respelt hd

theorem u2vLetter_inner (hd : d ≠ 0) :
    u2vLetter spelling half1 c (d :: s) = c ∨
      c = 117 ∧ d ∈ vowelLetters ∧ u2vLetter spelling half1 c (d :: s) = 118 := by
  unfold u2vLetter
  split_ifs with h
  · simp only [Bool.and_eq_true, beq_iff_eq, List.headD_cons] at h
    exact .inr ⟨h.1.1, mem_vowelLetters h.1.2 hd, rfl⟩
  · exact .inl rfl

theorem u2vInitial_inner (hd : d ≠ 0) :
    u2vInitial c (d :: s) = c ∨ d ∈ vowelLetters ∧
      (c = 117 ∧ u2vInitial c (d :: s) = 118 ∨ c = 85 ∧ u2vInitial c (d :: s) = 86) := by
  unfold u2vInitial
  split_ifs with h hupper
  · simp only [Bool.and_eq_true, List.headD_cons] at h
    exact .inr ⟨mem_vowelLetters h.2 hd, .inr ⟨beq_iff_eq.mp hupper, rfl⟩⟩
  · simp only [Bool.and_eq_true, Bool.or_eq_true, List.headD_cons, hupper, Bool.false_eq_true,
      false_or, beq_iff_eq] at h
    exact .inr ⟨mem_vowelLetters h.2 hd, .inl ⟨h.1, rfl⟩⟩
  · exact .inl rfl

/-- Only the last letter can be respelled wrongly. -/
theorem u2vFrom_spelled_iff (hnul : 0 ∉ word) :
    ConsonantRespelling word (u2vFrom spelling half1 word).1 ↔
      ¬ (word.getLast? = some 117 ∧
        acceptsConsonant spelling (half1From spelling half1 word) [] = true) := by
  induction word generalizing half1 with
  | nil => exact ⟨fun _ h => absurd h.1.symm (Option.some_ne_none _), fun _ => .nil⟩
  | cons c s ih =>
    rw [u2vFrom_cons]
    cases s with
    | nil =>
      have hletter : u2vLetter spelling half1 c [] =
          if c = 117 ∧ acceptsConsonant spelling half1 [] = true then 118 else c := by
        simp [u2vLetter, latVow]
      have hhalf1 : half1From spelling half1 [c] = half1 := rfl
      rw [hletter, hhalf1, List.getLast?_singleton, Option.some.injEq]
      split_ifs with h
      · refine ⟨fun hspelled => ?_, fun hno => absurd h hno⟩
        rw [h.1] at hspelled
        cases hspelled
      · exact ⟨fun _ => h, fun _ => .kept c .nil⟩
    | cons d s =>
      have hd : d ≠ 0 := by
        rintro rfl
        exact hnul (by simp)
      have htail : 0 ∉ d :: s := fun h => hnul (List.mem_cons_of_mem c h)
      have hrest := @ih (half1 ++ [u2vLetter spelling half1 c (d :: s)]) htail
      rw [List.getLast?_cons_cons, half1From, ← hrest]
      have hinner : u2vLetter spelling half1 c (d :: s) = c ∨
          c = 117 ∧ d ∈ vowelLetters ∧ u2vLetter spelling half1 c (d :: s) = 118 :=
        u2vLetter_inner hd
      rcases hinner with hsame | ⟨rfl, hvowel, hchanged⟩
      · rw [hsame, consonantRespelling_kept]
      · rw [hchanged, consonantRespelling_respelt hvowel]

theorem u2vFrom_counted (spelling : Spelling) (half1 word : Bytes) :
    (u2vFrom spelling half1 word).2 ≠ 0 ↔ (u2vFrom spelling half1 word).1 ≠ word := by
  refine ⟨(u2vFrom_respelling spelling half1 word).2, fun hne hzero => hne ?_⟩
  clear hne
  induction word generalizing half1 with
  | nil => rfl
  | cons c s ih =>
    unfold u2vFrom at hzero ⊢
    dsimp only at hzero ⊢
    split_ifs at hzero ⊢ with h
    · omega
    · rw [ih _ (by omega)]

theorem u2v_counted (spelling : Spelling) (word : Bytes) :
    (u2v spelling word).2 ≠ 0 ↔ (u2v spelling word).1 ≠ word := by
  refine ⟨(u2v_respelling spelling word).2, fun hne hzero => hne ?_⟩
  cases word with
  | nil => rfl
  | cons c s =>
    unfold u2v at hzero ⊢
    dsimp only at hzero ⊢
    split_ifs at hzero ⊢ with h
    · omega
    · omega
    · have hrest := (not_congr (u2vFrom_counted spelling [c] s)).mp (by omega)
      rw [not_not.mp hrest]

end Scan

theorem ConsonantRespelling.behind {c d x : Byte} {s t : Bytes}
    (h : ConsonantRespelling (c :: d :: s) (x :: t)) : ConsonantRespelling (d :: s) t := by
  cases h with
  | kept _ hrest => exact hrest
  | respelt _ hrest => exact hrest

theorem respellsFinal_cons (spelling : Spelling) (c d : Byte) (s : Bytes) :
    respellsFinal spelling (c :: d :: s) = ((d :: s).getLast? == some 117 &&
      acceptsConsonant spelling (half1From spelling [u2vInitial c (d :: s)] (d :: s)) []) := rfl

/-- `u2v` does what it is to do unless it respells the last letter. -/
theorem u2v_respells_iff (spelling : Spelling) (word : Bytes) (hnul : 0 ∉ word) :
    RespellsConsonants word (u2v spelling word).1 (u2v spelling word).2 ↔
      respellsFinal spelling word = false := by
  have hlength := (u2v_respelling spelling word).1.length_eq
  have hcounted := u2v_counted spelling word
  rcases word with _ | ⟨c, _ | ⟨d, s⟩⟩
  · exact iff_of_true ⟨.inl .nil, rfl, hcounted, rfl⟩ rfl
  · have hresult : (u2v spelling [c]).1 = [u2vInitial c []] := rfl
    constructor
    · intro hdone
      have hfinal := hdone.final
      rw [hresult, List.getLast?_singleton, List.getLast?_singleton, Option.some.injEq] at hfinal
      by_contra hchanged
      rw [Bool.not_eq_false, respellsFinal, Bool.or_eq_true, beq_iff_eq, beq_iff_eq] at hchanged
      rcases hchanged with rfl | rfl
      · exact absurd hfinal (by decide)
      · exact absurd hfinal (by decide)
    · intro hkept
      have hletter : u2vInitial c [] = c := by
        rw [respellsFinal] at hkept
        simp [u2vInitial, hkept]
      rw [hletter] at hresult
      rw [hresult] at hcounted ⊢
      exact ⟨.inl (.kept c .nil), rfl, hcounted, rfl⟩
  · have hd : d ≠ 0 := by
      rintro rfl
      exact hnul (by simp)
    have hkept : respellsFinal spelling (c :: d :: s) = false ↔
        ConsonantRespelling (d :: s) (u2vFrom spelling [u2vInitial c (d :: s)] (d :: s)).1 := by
      rw [u2vFrom_spelled_iff fun h => hnul (List.mem_cons_of_mem c h), ← Bool.not_eq_true,
        respellsFinal_cons, Bool.and_eq_true, beq_iff_eq]
    rw [hkept, u2v_cons]
    constructor
    · intro hdone
      rcases hdone.spelled with hspelled | ⟨v, -, rest, t, hword, hresult, hspelled⟩
      · exact hspelled.behind
      · rw [(List.cons.inj hresult).2, (List.cons.inj hword).2]
        exact hspelled
    · intro hrest
      refine ⟨?_, hlength, hcounted, ?_⟩
      · rcases u2vInitial_inner (c := c) (s := s) hd with hsame | ⟨hvowel, hchanged⟩
        · rw [hsame] at hrest ⊢
          exact .inl (.kept c hrest)
        · rcases hchanged with ⟨rfl, hchanged⟩ | ⟨rfl, hchanged⟩
          · rw [hchanged] at hrest ⊢
            exact .inl (.respelt hvowel hrest)
          · rw [hchanged] at hrest ⊢
            exact .inr ⟨d, hvowel, s, _, rfl, rfl, hrest⟩
      · rw [List.getLast?_cons, hrest.getLast?, List.getLast?_cons_cons, List.getLast?_cons,
          Option.getD_some]

/-- The oracles answer no. -/
def silentSpelling : Spelling := ⟨latin, false, fun _ => (0, []), fun _ => (0, []), fun _ => (0, []),
  fun _ => false, fun _ => false⟩

theorem u2v_respells_uideo :
    RespellsConsonants (ascii "uideo") (u2v silentSpelling (ascii "uideo")).1
      (u2v silentSpelling (ascii "uideo")).2 :=
  (u2v_respells_iff silentSpelling (ascii "uideo") (by decide)).mpr (by decide)

/-- The end of `seu` passes for a vowel. -/
theorem u2v_seu : ¬ RespellsConsonants (ascii "seu") (u2v silentSpelling (ascii "seu")).1
    (u2v silentSpelling (ascii "seu")).2 := by
  intro h
  exact absurd h.final (by decide)

end Morpheus
