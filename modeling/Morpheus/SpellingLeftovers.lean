import Morpheus.SpellingDictionary

/-!
# Retries of a Latin word

The spellings that an activation of `checkstring3` tries for a Latin word, against the spellings
that a single retry makes of the word it was entered with. A retry that failed leaves its spelling
in the record, and the retry that expands `ex-` reads it there.
-/
namespace Morpheus

section
variable (spelling : Spelling) (word : Bytes)

/-- The spellings of a place for a word without analyses. -/
def Plan.spellings (plan : Plan) (word : Bytes) : List Bytes :=
  (plan word true).map Retry.spelling

/-- The stems in front of enclitics. -/
def encliticStems : List Bytes := (enclitics spelling).spellings word

/-- The respellings of a word by the retries in front of the one of `i` and `j`. -/
def earlySpellings : List Bytes :=
  (prodelision spelling).spellings word ++ (ustRetry spelling).spellings word ++
    (istRetry spelling).spellings word ++ (finalN spelling).spellings word ++
    (uRetry spelling word).spellings word

/-- The respellings with `J` for the first letter and with `j` for one `i`. -/
def singleJ : List Bytes :=
  (if word.headD 0 == 73 then [74 :: word.tail] else []) ++ jSpellings [] word

/-- The spellings that one retry makes of a word. -/
def singleRespellings : List Bytes :=
  earlySpellings spelling word ++ singleJ word ++ (exRetry spelling).spellings word

/-- The retries of an activation that was entered with a word: every spelling is one that a
single retry makes of that word, and when nothing was found, each of these has been tried. -/
def RetriesFresh (spelling : Spelling) (fuel : ℕ) (gkword : SpellWord) : Prop :=
  ∃ act, (activation spelling (checkstring4 spelling fuel) (checkstring3 spelling fuel)
      (checkapostr spelling fuel) gkword).final = some act ∧
    (∀ attempt ∈ act.tried, attempt.1 ∈ encliticStems spelling gkword.workword ++
      singleRespellings spelling gkword.workword) ∧
    (act.rval = 0 → act.gkword.analyses = [] →
      ∀ s ∈ singleRespellings spelling gkword.workword, (s, 0) ∈ act.tried)

/-- The spelling in the record when the retry of `ex-` is reached and all before it have failed. -/
def leftover : Bytes :=
  (earlySpellings spelling word ++ (jRetry spelling word).spellings word).getLastD word

/-- No `J` at the beginning of a word with an `i` to be replaced, and no `ex-` to be expanded in
the spelling of another retry. -/
def NoLeftover : Prop :=
  (word.headD 0 = 73 → jSpellings [] word = []) ∧
    (leftover spelling word = word ∨ latinExpandEx (leftover spelling word) maxWordSize = none)

end

section Contractions
variable {spelling : Spelling} {word : Bytes}

theorem cmpend_reverse {ending : Bytes} (h : (cmpend word ending).isSome = true) :
    ∃ rest, word.reverse = ending.reverse ++ rest := by
  obtain ⟨⟨rest, hrest⟩, -⟩ := cmpend_isSome h
  exact ⟨rest.reverse, by rw [← hrest, List.reverse_append]⟩

/-- The retries for a final `st` need a `t`, and a letter before the `st`. -/
theorem prodelision_ends {empty : Bool} (h : prodelision spelling word empty ≠ []) :
    ∃ c rest, word.reverse = 116 :: 115 :: c :: rest ∧ (c = 97 ∨ c = 101 ∨ c = 109) := by
  unfold prodelision at h
  split_ifs at h with happlies
  · obtain ⟨ending, hending, hend⟩ := List.any_eq_true.mp happlies.2
    obtain ⟨rest, hrest⟩ := cmpend_reverse hend
    simp only [List.mem_cons, List.not_mem_nil, or_false] at hending
    rcases hending with rfl | rfl | rfl | rfl | rfl | rfl
    · exact ⟨97, rest, hrest, .inl rfl⟩
    · exact ⟨101, rest, hrest, .inr (.inl rfl)⟩
    · exact ⟨109, 117 :: rest, hrest, .inr (.inr rfl)⟩
    · exact ⟨109, 97 :: rest, hrest, .inr (.inr rfl)⟩
    · exact ⟨109, 101 :: rest, hrest, .inr (.inr rfl)⟩
    · exact ⟨109, 111 :: rest, hrest, .inr (.inr rfl)⟩
  · exact absurd rfl h

theorem ustRetry_ends {empty : Bool} (h : ustRetry spelling word empty ≠ []) :
    ∃ rest, word.reverse = 116 :: 115 :: 117 :: rest := by
  unfold ustRetry at h
  split_ifs at h with happlies
  · exact cmpend_reverse happlies.2
  · exact absurd rfl h

theorem istRetry_ends {empty : Bool} (h : istRetry spelling word empty ≠ []) :
    ∃ c rest, word.reverse = 116 :: 115 :: c :: rest ∧ (c = 105 ∨ c = 111) := by
  unfold istRetry at h
  split_ifs at h with happlies
  · rcases happlies.2 with hend | hend
    · obtain ⟨rest, hrest⟩ := cmpend_reverse hend
      exact ⟨105, rest, hrest, .inl rfl⟩
    · obtain ⟨rest, hrest⟩ := cmpend_reverse hend
      exact ⟨111, rest, hrest, .inr rfl⟩
  · exact absurd rfl h

theorem finalN_ends {empty : Bool} (h : finalN spelling word empty ≠ []) :
    ∃ rest, word.reverse = 110 :: rest := by
  unfold finalN at h
  split_ifs at h with happlies
  · exact cmpend_reverse happlies.2.2
  · exact absurd rfl h

/-- A word that does not end in `st` or `n` has no retry for its final letters. -/
theorem contractions_none {c : Byte} {rest : Bytes} (hword : word.reverse = c :: rest)
    (hc : c ≠ 116 ∧ c ≠ 110) (empty : Bool) :
    ustRetry spelling word empty = [] ∧ istRetry spelling word empty = [] ∧
      finalN spelling word empty = [] := by
  refine ⟨?_, ?_, ?_⟩
  · by_contra hne
    obtain ⟨tail, htail⟩ := ustRetry_ends hne
    rw [hword] at htail
    exact hc.1 (List.cons.inj htail).1
  · by_contra hne
    obtain ⟨d, tail, htail, -⟩ := istRetry_ends hne
    rw [hword] at htail
    exact hc.1 (List.cons.inj htail).1
  · by_contra hne
    obtain ⟨tail, htail⟩ := finalN_ends hne
    rw [hword] at htail
    exact hc.2 (List.cons.inj htail).1

/-- The letter in front of a final `st` decides which retry applies. -/
theorem contractions_st (spelling : Spelling) {c : Byte} {rest : Bytes} (hword : word.reverse = 116 :: 115 :: c :: rest)
    (empty : Bool) :
    (c ≠ 117 → ustRetry spelling word empty = []) ∧
      (c ≠ 105 ∧ c ≠ 111 → istRetry spelling word empty = []) ∧ finalN spelling word empty = [] := by
  refine ⟨fun hc => ?_, fun hc => ?_, ?_⟩
  · by_contra hne
    obtain ⟨tail, htail⟩ := ustRetry_ends hne
    rw [hword] at htail
    exact hc (List.cons.inj (List.cons.inj (List.cons.inj htail).2).2).1
  · by_contra hne
    obtain ⟨d, tail, htail, hd⟩ := istRetry_ends hne
    rw [hword] at htail
    have hcd := (List.cons.inj (List.cons.inj (List.cons.inj htail).2).2).1
    rw [← hcd] at hd
    exact hd.elim hc.1 hc.2
  · by_contra hne
    obtain ⟨tail, htail⟩ := finalN_ends hne
    rw [hword] at htail
    exact absurd (List.cons.inj htail).1 (by decide)

theorem reverse_take_sub (front : Bytes) {tail : Bytes} (hword : word.reverse = front ++ tail) :
    (word.take (word.length - front.length)).reverse = tail := by
  rw [← List.drop_reverse, hword, List.drop_left]

/-- The retries of final letters that apply to a word, and to what they leave of it. -/
theorem contractions_exclusive (spelling : Spelling) (word : Bytes) :
    (∃ x, prodelision spelling word = (fun _ => [{ spelling := x }]) ∧
        ∀ empty, ∀ w ∈ [x, word], ustRetry spelling w empty = [] ∧ istRetry spelling w empty = [] ∧
          finalN spelling w empty = []) ∨
      (prodelision spelling word = (fun _ => []) ∧
        ((∃ x, ustRetry spelling word = (fun _ => [{ spelling := x }]) ∧
          ∀ empty, ∀ w ∈ [x, word], istRetry spelling w empty = [] ∧
            finalN spelling w empty = []) ∨
        (ustRetry spelling word = (fun _ => []) ∧
          ((∃ x y, istRetry spelling word = (fun _ => [{ spelling := x, adds := true, returns := false },
              { spelling := y, adds := true }]) ∧
            ∀ empty, ∀ w ∈ [y, word], finalN spelling w empty = []) ∨
          istRetry spelling word = fun _ => [])))) := by
  by_cases hprodelision : prodelision spelling word true = []
  swap
  · left
    obtain ⟨c, rest, hword, hc⟩ := prodelision_ends hprodelision
    have hleft := reverse_take_sub [116, 115] hword
    refine ⟨word.take (word.length - 2), ?_, fun empty w hw => ?_⟩
    · funext empty
      unfold prodelision at hprodelision ⊢
      split_ifs at hprodelision ⊢ with happlies
      · rfl
      · exact absurd rfl hprodelision
    · rcases List.mem_cons.mp hw with rfl | hw
      · exact contractions_none hleft (by rcases hc with rfl | rfl | rfl <;> decide) empty
      · rw [List.mem_singleton.mp hw]
        obtain ⟨hust, hist, hn⟩ := contractions_st spelling hword empty
        refine ⟨hust ?_, hist ?_, hn⟩ <;> rcases hc with rfl | rfl | rfl <;> decide
  right
  refine ⟨?_, ?_⟩
  · funext empty
    exact hprodelision
  by_cases hust : ustRetry spelling word true = []
  swap
  · left
    obtain ⟨rest, hword⟩ := ustRetry_ends hust
    have hleft : word.dropLast.reverse = 115 :: 117 :: rest := by
      rw [List.dropLast_eq_take]
      exact reverse_take_sub [116] hword
    refine ⟨word.dropLast, ?_, fun empty w hw => ?_⟩
    · funext empty
      unfold ustRetry at hust ⊢
      split_ifs at hust ⊢ with happlies
      · rfl
      · exact absurd rfl hust
    · rcases List.mem_cons.mp hw with rfl | hw
      · exact (contractions_none hleft (by decide) empty).2
      · rw [List.mem_singleton.mp hw]
        obtain ⟨-, hist, hn⟩ := contractions_st spelling hword empty
        exact ⟨hist (by decide), hn⟩
  right
  refine ⟨?_, ?_⟩
  · funext empty
    exact hust
  by_cases hist : istRetry spelling word true = []
  swap
  · left
    obtain ⟨c, rest, hword, hc⟩ := istRetry_ends hist
    have hleft : word.dropLast.dropLast.reverse = c :: rest := by
      rw [List.dropLast_eq_take, List.dropLast_eq_take, List.take_take, List.length_take]
      have hmin : min (min (word.length - 1) word.length - 1) (word.length - 1) =
          word.length - 2 := by omega
      rw [hmin]
      exact reverse_take_sub [116, 115] hword
    refine ⟨word.dropLast, word.dropLast.dropLast, ?_, fun empty w hw => ?_⟩
    · funext empty
      unfold istRetry at hist ⊢
      split_ifs at hist ⊢ with happlies
      · rfl
      · exact absurd rfl hist
    · rcases List.mem_cons.mp hw with rfl | hw
      · exact (contractions_none hleft (by rcases hc with rfl | rfl <;> decide) empty).2.2
      · rw [List.mem_singleton.mp hw]
        exact (contractions_st spelling hword empty).2.2
  right
  funext empty
  exact hist

end Contractions

end Morpheus
