import Morpheus.LostActivations

/-!
# Elisions that lose count

`checkapostr` adds what its calls return. When one of them loses count the others find nothing, and
the sum is as wrong as the value of that call.
-/
namespace Morpheus

section Elision
variable {spelling : Spelling} {Invariant : SpellWord → Prop} {word : Bytes} {n k : ℕ}

/-- Between the calls of `checkapostr`: the return value so far, the word, and what the lookups
keep. -/
def Standing (n : ℕ) (word : Bytes) (Invariant : SpellWord → Prop) (state : ℕ × SpellWord) : Prop :=
  state.1 = n ∧ state.2.workword = word ∧ Invariant state.2

/-- The calls of `checkapostr` for a word find nothing. -/
structure FindsNothing (Invariant : SpellWord → Prop) (check3 apostr : Check) (word : Bytes) :
    Prop where
  vowel : ∀ vow ∈ elidedVowels (nsylls word), ∀ g : SpellWord,
    g.workword = addApostrvowel word vow.1 → Invariant g →
      ComesBack Invariant (fun rval => rval = 0) check3 g
  unaspirated : ∀ plain, unaspirate word = some plain → ∀ g : SpellWord, g.workword = plain →
    Invariant g → ComesBack Invariant (fun rval => rval = 0) apostr g
  unaccented : ultimaAccent word = true → ∀ g : SpellWord, g.workword = stripacc word →
    Invariant g → ComesBack Invariant (fun rval => rval = 0) apostr g

theorem findsNothing (hkeeps : Keeps spelling Invariant fun rval => rval = 0) {fuel : ℕ}
    (hlast : word.getLast? = some 39) (hrank : elisionRank word + elisionMarks word < fuel + 20) :
    FindsNothing Invariant (checkstring3 spelling fuel) (checkapostr spelling fuel) word := by
  obtain ⟨hcheck3, hapostr⟩ := spelling_settles hkeeps fuel
  obtain ⟨-, hle⟩ := elisionRank_le hlast
  constructor
  · intro vow hvow g hg hinvariant
    have hless := addApostrvowel_rank (List.prefix_refl _) hlast hvow
    exact (hcheck3 g (by rw [hg]; omega) hinvariant).comesBack
  · intro plain hplain g hg hinvariant
    obtain ⟨hsame, hmarks⟩ := unaspirate_rank hplain
    exact (hapostr g (by omega) (fun _ => by rw [hg]; omega) hinvariant).comesBack
  · intro haccent g hg hinvariant
    obtain ⟨hsame, hmarks⟩ := stripacc_rank (List.prefix_refl _) haccent
    exact (hapostr g (by omega) (fun _ => by rw [hg]; omega) hinvariant).comesBack

theorem accumulate_stands {check : Check} {enter leave : SpellWord → SpellWord}
    {state : ℕ × SpellWord} (hstate : Standing n word Invariant state)
    (hcheck : ComesBack Invariant (fun rval => rval = 0) check (enter state.2))
    (hleave : ∀ g, Invariant g → (leave g).workword = word ∧ Invariant (leave g)) :
    ∃ next, accumulate check enter leave state = some next ∧ Standing n word Invariant next := by
  obtain ⟨found, hfound, hzero, hinvariant⟩ := hcheck
  refine ⟨(state.1 + found.1, leave found.2), ?_, ?_, hleave found.2 hinvariant⟩
  · unfold accumulate
    rw [hfound]
    rfl
  · change state.1 + found.1 = n
    rw [hzero, Nat.add_zero]
    exact hstate.1

section
variable {check3 apostr : Check} (hkeeps : Keeps spelling Invariant fun rval => rval = 0)
  (hlength : word.length < maxWordSize) (hnothing : FindsNothing Invariant check3 apostr word)
include hkeeps hlength hnothing

theorem tryUnaspirated_stands {gkword : SpellWord} (hword : gkword.workword = word)
    (hinvariant : Invariant gkword) :
    ∃ start, tryUnaspirated apostr word gkword = some start ∧ Standing 0 word Invariant start := by
  unfold tryUnaspirated
  rw [hword]
  cases hasp : unaspirate word with
  | none => exact ⟨_, rfl, rfl, hword, hinvariant⟩
  | some plain =>
    have hstart : Standing 0 word Invariant (0, gkword) := ⟨rfl, hword, hinvariant⟩
    apply accumulate_stands hstart
      (hnothing.unaspirated plain hasp _ rfl (hkeeps.workword _ _ hinvariant))
    exact fun g hg => ⟨xstrncpy_of_lt hlength, hkeeps.workword _ _ hg⟩

theorem tryVowels_stand {vows : List (Bytes × Bool)} (hvows : vows ⊆ elidedVowels (nsylls word))
    {state : ℕ × SpellWord} (hstate : Standing n word Invariant state) :
    ∃ last, vows.foldlM (tryVowel check3 word) state = some last ∧ Standing n word Invariant last := by
  apply foldlM_some _ hstate
  intro vow hvow state hstate
  obtain ⟨-, hword, hinvariant⟩ := id hstate
  unfold tryVowel
  apply accumulate_stands hstate
  · apply hnothing.vowel vow (hvows hvow)
    · dsimp only
      rw [hword]
    · exact hkeeps.morphflags _ _ (hkeeps.workword _ _ hinvariant)
  · exact fun g hg =>
      ⟨xstrncpy_of_lt hlength, hkeeps.morphflags _ _ (hkeeps.workword _ _ hg)⟩

theorem tryUnaccented_stands {state : ℕ × SpellWord} (hstate : Standing n word Invariant state) :
    ∃ last, tryUnaccented apostr word state = some last ∧ Standing n word Invariant last := by
  unfold tryUnaccented
  by_cases hultima : state.1 = 0 ∧ ultimaAccent word = true
  · rw [if_pos hultima]
    apply accumulate_stands hstate
      (hnothing.unaccented hultima.2 _ rfl (hkeeps.workword _ _ hstate.2.2))
    exact fun g hg => ⟨xstrncpy_of_lt hlength, hkeeps.workword _ _ hg⟩
  · rw [if_neg hultima]
    exact ⟨state, rfl, hstate⟩

end

/-- `checkapostr` in its three parts. -/
theorem elision_parts {check3 apostr : Check} {gkword : SpellWord} (hlength : word.length < maxWordSize)
    (hlast : word.getLast? = some 39) (hword : gkword.workword = word) {start state last : ℕ × SpellWord}
    (hstart : tryUnaspirated apostr word gkword = some start) (hleft : start.2.workword = word)
    (hvowels : (elidedVowels (nsylls word)).foldlM (tryVowel check3 word) start = some state)
    (haccent : tryUnaccented apostr word state = some last) :
    elision check3 apostr gkword = some last := by
  unfold elision
  rw [hword, if_pos hlast, xstrncpy_of_lt hlength]
  dsimp only
  rw [hstart, Option.bind_some, hleft, hvowels, Option.bind_some, haccent]

/-- What is left of the answer when `checkapostr` has lost count. -/
theorem loses_of_standing {checks : ℕ → GkAnalysis → Check} {gkword : SpellWord} {anal : GkAnalysis}
    {found last : ℕ × SpellWord} (hk : gkword.lookups ≤ k) (hcount : ¬ Tallied found)
    (hlast : checks k anal gkword = some last)
    (hstands : Standing found.1 word (Stays k found.2.analyses) last) : Loses checks gkword := by
  obtain ⟨hrval, -, hlookups, hanalyses⟩ := hstands
  refine ⟨k, anal, last, hk, hlast, ?_, hlookups⟩
  unfold Tallied at hcount ⊢
  rw [hrval, hanalyses]
  exact hcount

/-- A call of `checkapostr` that loses count. -/
theorem accumulate_loses {check : Check} {enter leave : SpellWord → SpellWord}
    {state found : ℕ × SpellWord} (hzero : state.1 = 0) (hfound : check (enter state.2) = some found)
    (hlookups : k < found.2.lookups)
    (hleave : ∀ g, (leave g).workword = word ∧ (leave g).analyses = g.analyses ∧
      (leave g).lookups = g.lookups) :
    ∃ next, accumulate check enter leave state = some next ∧
      Standing found.1 word (Stays k found.2.analyses) next := by
  obtain ⟨hword, hanalyses, hsame⟩ := hleave found.2
  refine ⟨(state.1 + found.1, leave found.2), ?_, ?_, hword, ?_, hanalyses⟩
  · unfold accumulate
    rw [hfound]
    rfl
  · change state.1 + found.1 = found.1
    rw [hzero, Nat.zero_add]
  · rw [hsame]
    exact hlookups

/-- `checkapostr` loses count when this happens for a word that it makes. -/
theorem loses_elision {s : Bytes} (helides : Elides word s)
    (hs : ∀ fuel, spellingRank s < fuel → ∀ g : SpellWord, g.workword = s → g.analyses = [] →
      Loses (checkOnce spelling fuel) g) (fuel : ℕ)
    (hfuel : elisionRank word + elisionMarks word < fuel + 19) (hlength : word.length < maxWordSize)
    {gkword : SpellWord} (hword : gkword.workword = word) (hanalyses : gkword.analyses = []) :
    Loses (apostrOnce spelling fuel) gkword := by
  induction helides generalizing fuel gkword with
  | @vowel word vow hlast hvow =>
    obtain ⟨-, hpositive⟩ := elisionRank_le hlast
    obtain ⟨fuel, rfl⟩ : ∃ more, fuel = more + 1 := ⟨fuel - 1, by omega⟩
    have hless := addApostrvowel_rank (List.prefix_refl _) hlast hvow
    obtain ⟨front, back, hsplit⟩ := List.append_of_mem hvow
    have hsilent := keeps_silent (emptyDictionary_silent spelling) []
    have hnothing := findsNothing hsilent hlast (by omega : elisionRank word + elisionMarks word < fuel + 20)
    obtain ⟨start, hstart, hstands⟩ := tryUnaspirated_stands hsilent hlength hnothing hword
      ⟨Nat.zero_le _, hanalyses⟩
    obtain ⟨middle, hmiddle, hzero, hleft, -, hnone⟩ := tryVowels_stand hsilent hlength hnothing
      (by rw [hsplit]; exact List.subset_append_left _ _) hstands
    have hentered : addApostrvowel middle.2.workword vow.1 = addApostrvowel word vow.1 := by
      rw [hleft]
    obtain ⟨k, anal, found, hk, hfound, hcount, hlookups⟩ := hs fuel (by omega)
      { middle.2 with
        workword := addApostrvowel middle.2.workword vow.1
        morphflags := if vow.2 then addMorphflag middle.2.morphflags poetic
          else middle.2.morphflags } hentered hnone
    obtain ⟨hgrows, hsame⟩ := tryUnaspirated_follows (apostrOnce_follows spelling fuel k anal) hstart
    obtain ⟨hgrows', hsame'⟩ := tryVowels_follow (checkOnce_follows spelling fuel k anal) hmiddle
    have hkeeps := keeps_oneShot spelling k anal found.2.analyses
    have hrest := findsNothing hkeeps hlast (by omega : elisionRank word + elisionMarks word < fuel + 20)
    obtain ⟨next, hnext, hlost⟩ : ∃ next, tryVowel (checkOnce spelling fuel k anal) word middle vow =
        some next ∧ Standing found.1 word (Stays k found.2.analyses) next := by
      unfold tryVowel
      exact accumulate_loses hzero hfound hlookups fun g => ⟨xstrncpy_of_lt hlength, rfl, rfl⟩
    obtain ⟨state, hstate, hlost⟩ := tryVowels_stand hkeeps hlength hrest
      (by rw [hsplit]; exact fun v hv => List.mem_append_right _ (List.mem_cons_of_mem _ hv)) hlost
    obtain ⟨last, hend, hlost⟩ := tryUnaccented_stands hkeeps hlength hrest hlost
    have hvowels : (elidedVowels (nsylls word)).foldlM (tryVowel (checkOnce spelling fuel k anal) word)
        start = some state := by
      rw [hsplit, List.foldlM_append, hsame' hk, Option.bind_eq_bind, Option.bind_some,
        List.foldlM_cons, hnext]
      exact hstate
    have hcall : apostrOnce spelling (fuel + 1) k anal gkword = some last := by
      unfold apostrOnce
      rw [checkapostr]
      exact elision_parts hlength hlast hword (hsame (hgrows'.trans hk)) hstands.2.1 hvowels hend
    exact loses_of_standing (hgrows.trans (hgrows'.trans hk)) hcount hcall hlost
  | @unaspirated word plain s hlast hplain _ ih =>
    obtain ⟨-, hpositive⟩ := elisionRank_le hlast
    obtain ⟨fuel, rfl⟩ : ∃ more, fuel = more + 1 := ⟨fuel - 1, by omega⟩
    obtain ⟨hrank, hmarks⟩ := unaspirate_rank hplain
    obtain ⟨-, -, hsize, -⟩ := unaspirate_some hplain
    have hentered : ({ gkword with workword := plain } : SpellWord).workword = plain := rfl
    obtain ⟨k, anal, found, hk, hfound, hcount, hlookups⟩ := ih hs fuel
      (by omega) (by rw [hsize]; exact hlength) hentered hanalyses
    have hkeeps := keeps_oneShot spelling k anal found.2.analyses
    have hrest := findsNothing hkeeps hlast (by omega : elisionRank word + elisionMarks word < fuel + 20)
    obtain ⟨start, hstart, hlost⟩ : ∃ next,
        tryUnaspirated (apostrOnce spelling fuel k anal) word gkword = some next ∧
          Standing found.1 word (Stays k found.2.analyses) next := by
      unfold tryUnaspirated
      rw [hword, hplain]
      exact accumulate_loses rfl hfound hlookups fun g => ⟨xstrncpy_of_lt hlength, rfl, rfl⟩
    obtain ⟨-, hleft, -⟩ := id hlost
    obtain ⟨state, hstate, hlost⟩ := tryVowels_stand hkeeps hlength hrest (List.Subset.refl _) hlost
    obtain ⟨last, hend, hlost⟩ := tryUnaccented_stands hkeeps hlength hrest hlost
    have hcall : apostrOnce spelling (fuel + 1) k anal gkword = some last := by
      unfold apostrOnce
      rw [checkapostr]
      exact elision_parts hlength hlast hword hstart hleft hstate hend
    exact loses_of_standing hk hcount hcall hlost
  | @unaccented word s hlast haccent _ ih =>
    obtain ⟨-, hpositive⟩ := elisionRank_le hlast
    obtain ⟨fuel, rfl⟩ : ∃ more, fuel = more + 1 := ⟨fuel - 1, by omega⟩
    obtain ⟨hrank, hmarks⟩ := stripacc_rank (List.prefix_refl _) haccent
    have hshort : (stripacc word).length ≤ word.length := List.length_filter_le _ _
    have hsilent := keeps_silent (emptyDictionary_silent spelling) []
    have hnothing := findsNothing hsilent hlast (by omega : elisionRank word + elisionMarks word < fuel + 20)
    obtain ⟨start, hstart, hstands⟩ := tryUnaspirated_stands hsilent hlength hnothing hword
      ⟨Nat.zero_le _, hanalyses⟩
    obtain ⟨state, hstate, hzero, hleft, -, hnone⟩ := tryVowels_stand hsilent hlength hnothing
      (List.Subset.refl _) hstands
    have hentered : ({ state.2 with workword := stripacc word } : SpellWord).workword =
      stripacc word := rfl
    obtain ⟨k, anal, found, hk, hfound, hcount, hlookups⟩ := ih hs fuel (by omega)
      (by omega) hentered hnone
    obtain ⟨hgrows, hsame⟩ := tryUnaspirated_follows (apostrOnce_follows spelling fuel k anal) hstart
    obtain ⟨hgrows', hsame'⟩ := tryVowels_follow (checkOnce_follows spelling fuel k anal) hstate
    obtain ⟨last, hend, hlost⟩ : ∃ next,
        tryUnaccented (apostrOnce spelling fuel k anal) word state = some next ∧
          Standing found.1 word (Stays k found.2.analyses) next := by
      unfold tryUnaccented
      rw [if_pos ⟨hzero, haccent⟩]
      exact accumulate_loses hzero hfound hlookups fun g => ⟨xstrncpy_of_lt hlength, rfl, rfl⟩
    have hcall : apostrOnce spelling (fuel + 1) k anal gkword = some last := by
      unfold apostrOnce
      rw [checkapostr]
      exact elision_parts hlength hlast hword (hsame (hgrows'.trans hk)) hstands.2.1 (hsame' hk) hend
    exact loses_of_standing (hgrows.trans (hgrows'.trans hk)) hcount hcall hlost

end Elision

end Morpheus
