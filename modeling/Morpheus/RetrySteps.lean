import Morpheus.SpellingLeftovers

/-!
# The way of an activation through its retries

Which spellings an activation has tried after each place of retries, for any knowledge of the
activation that the single retries carry on. At most one of the retries for the final letters
applies, the retries for `u` and `j` start from the entered word, and the one for `ex-` starts
from what the failed retries have left in the record.
-/
namespace Morpheus

/-- The spellings of the retries for the final letters. -/
def contractions (spelling : Spelling) (word : Bytes) : List Bytes :=
  (prodelision spelling).spellings word ++ (ustRetry spelling).spellings word ++
    (istRetry spelling).spellings word ++ (finalN spelling).spellings word

/-- The spellings of the retries of a word, the one for `ex-` made from what stands in the
record. -/
def executedSpellings (spelling : Spelling) (word : Bytes) : List Bytes :=
  earlySpellings spelling word ++ (jRetry spelling word).spellings word ++
    (exRetry spelling).spellings (leftover spelling word)

/-- What is known of an activation that has tried some spellings, and of one that returned. The
record has the last of these spellings, or an analysis and the entered word. -/
structure Steps (check : Check) (saveword word : Bytes) (Tryable : Bytes → Prop)
    (Returned : Activation → Prop) (Through : List Bytes → Activation → Prop) : Prop where
  record : ∀ {executed act}, Through executed act →
    act.gkword.workword = executed.getLastD word ∨
      act.gkword.analyses ≠ [] ∧ act.gkword.workword = word
  analysed : ∀ {executed act}, Through executed act → act.gkword.analyses ≠ [] →
    act.gkword.workword = word → ∀ tried, Through tried act
  retry : ∀ {executed act s}, Through executed act → Tryable s →
    (Retry.run saveword check { spelling := s } act).Meets Returned (Through (executed ++ [s]))
  pair : ∀ {executed act s t}, Through executed act → Tryable s → Tryable t →
    (Flow.runAll (([{ spelling := s, adds := true, returns := false },
      { spelling := t, adds := true }] : List Retry).map (Retry.run saveword check)) act).Meets
        Returned (Through (executed ++ [s, t]))

section Spellings
variable {plan : Plan} {word : Bytes}

theorem Plan.run_nil {saveword : Bytes} {check : Check} {act : Activation}
    (h : ∀ empty, plan act.gkword.workword empty = []) : plan.run saveword check act = .goes act := by
  unfold Plan.run
  rw [h]
  rfl

theorem Plan.spellings_nil (h : ∀ empty, plan word empty = []) : plan.spellings word = [] := by
  unfold Plan.spellings
  rw [h]
  rfl

theorem Plan.spellings_plain {spellings : List Bytes}
    (h : ∀ empty, plan word empty = spellings.map fun s => { spelling := s }) :
    plan.spellings word = spellings := by
  unfold Plan.spellings
  rw [h, List.map_map]
  exact List.map_id _

theorem at_word {retries : List Retry} (h : plan word = fun _ => retries) (empty : Bool) :
    ∀ w ∈ [word, word], plan w empty = retries := by
  intro w hw
  have hw : w = word := by simpa using hw
  rw [hw]
  exact congrFun h empty

end Spellings

namespace Steps
variable {check : Check} {saveword word : Bytes} {Tryable : Bytes → Prop}
  {Returned : Activation → Prop} {Through : List Bytes → Activation → Prop}
  {executed : List Bytes} {act : Activation}

/-- The word that stands in the record. -/
theorem mem (steps : Steps check saveword word Tryable Returned Through)
    (hact : Through executed act) : act.gkword.workword ∈ [executed.getLastD word, word] := by
  rcases steps.record hact with hword | ⟨-, hword⟩
  · rw [hword]
    exact List.mem_cons_self
  · rw [hword]
    exact List.mem_cons_of_mem _ List.mem_cons_self

/-- Retries whose results replace the return value. -/
theorem retries (steps : Steps check saveword word Tryable Returned Through)
    (hact : Through executed act) {spellings : List Bytes} (htryable : ∀ s ∈ spellings, Tryable s) :
    (Flow.runAll ((spellings.map fun s => ({ spelling := s } : Retry)).map
      (Retry.run saveword check)) act).Meets Returned (Through (executed ++ spellings)) := by
  induction spellings generalizing executed act with
  | nil =>
    rw [List.append_nil]
    exact hact
  | cons s spellings ih =>
    rw [List.map_cons, List.map_cons, Flow.runAll]
    apply (steps.retry hact (htryable s List.mem_cons_self)).andThen
    intro next hnext
    have hrest := ih hnext fun t ht => htryable t (List.mem_cons_of_mem _ ht)
    rw [List.append_assoc] at hrest
    exact hrest

/-- A place that has no retries for the word in the record, nor for the entered one. -/
theorem idle (steps : Steps check saveword word Tryable Returned Through)
    (hact : Through executed act) (plan : Plan)
    (h : ∀ empty, ∀ w ∈ [executed.getLastD word, word], plan w empty = []) :
    (plan.run saveword check act).Meets Returned (Through (executed ++ plan.spellings word)) := by
  rw [Plan.run_nil fun empty => h empty _ (steps.mem hact)]
  rw [Plan.spellings_nil fun empty => h empty word (List.mem_cons_of_mem _ List.mem_cons_self),
    List.append_nil]
  exact hact

/-- A place whose retries do not depend on the record. -/
theorem plain (steps : Steps check saveword word Tryable Returned Through)
    (hact : Through executed act) (plan : Plan) (spellings : List Bytes)
    (hplan : ∀ empty, ∀ w ∈ [executed.getLastD word, word],
      plan w empty = spellings.map fun s => { spelling := s })
    (htryable : ∀ s ∈ plan.spellings word, Tryable s) :
    (plan.run saveword check act).Meets Returned (Through (executed ++ plan.spellings word)) := by
  have hspellings : plan.spellings word = spellings :=
    Plan.spellings_plain fun empty =>
      hplan empty word (List.mem_cons_of_mem _ List.mem_cons_self)
  rw [hspellings] at htryable ⊢
  unfold Plan.run
  rw [hplan _ _ (steps.mem hact)]
  exact steps.retries hact htryable

/-- A place with two retries whose results are added. -/
theorem two (steps : Steps check saveword word Tryable Returned Through)
    (hact : Through executed act) (plan : Plan) {x y : Bytes}
    (hplan : plan act.gkword.workword act.gkword.analyses.isEmpty =
      [{ spelling := x, adds := true, returns := false }, { spelling := y, adds := true }])
    (hspellings : plan.spellings word = [x, y])
    (htryable : ∀ s ∈ plan.spellings word, Tryable s) :
    (plan.run saveword check act).Meets Returned (Through (executed ++ plan.spellings word)) := by
  rw [hspellings] at htryable ⊢
  unfold Plan.run
  rw [hplan]
  exact steps.pair hact (htryable x List.mem_cons_self)
    (htryable y (List.mem_cons_of_mem _ List.mem_cons_self))

variable {spelling : Spelling}

/-- The retries for a final `n` are made only while there is no analysis. -/
theorem finalN (steps : Steps check saveword word Tryable Returned Through)
    (hact : Through [] act)
    (htryable : ∀ s ∈ (Morpheus.finalN spelling).spellings word, Tryable s) :
    (Plan.run saveword check (Morpheus.finalN spelling) act).Meets Returned
      (Through ((Morpheus.finalN spelling).spellings word)) := by
  have hword : act.gkword.workword = word := by simpa using steps.mem hact
  by_cases hempty : act.gkword.analyses = []
  · by_cases happlies : spelling.language = latin ∧ true = true ∧
        (cmpend word (ascii "n")).isSome = true
    · have hplan : Morpheus.finalN spelling word true =
          [{ spelling := word.dropLast ++ [115], adds := true, returns := false },
            { spelling := word.dropLast, adds := true }] := if_pos happlies
      apply steps.two hact (Morpheus.finalN spelling) _ (congrArg _ hplan) htryable
      rw [hword, hempty]
      exact hplan
    · have hplan : Morpheus.finalN spelling word true = [] := if_neg happlies
      have hnone : (Morpheus.finalN spelling).spellings word = [] := congrArg _ hplan
      unfold Plan.run
      rw [hword, hempty, hnone]
      change (Flow.runAll ((Morpheus.finalN spelling word true).map _) act).Meets _ _
      rw [hplan]
      exact hact
  · have hskip : Morpheus.finalN spelling act.gkword.workword act.gkword.analyses.isEmpty = [] := by
      unfold Morpheus.finalN
      rw [if_neg]
      intro happlies
      exact hempty (List.isEmpty_iff.mp happlies.2.1)
    unfold Plan.run
    rw [hskip]
    exact steps.analysed hact hempty hword _

/-- The retries for the final letters: at most one of the four applies. -/
theorem contractions (steps : Steps check saveword word Tryable Returned Through)
    (hact : Through [] act) (htryable : ∀ s ∈ Morpheus.contractions spelling word, Tryable s) :
    (Flow.runAll (([prodelision spelling, ustRetry spelling, istRetry spelling,
      Morpheus.finalN spelling] : List Plan).map (Plan.run saveword check)) act).Meets Returned
        (Through (Morpheus.contractions spelling word)) := by
  unfold Morpheus.contractions at htryable ⊢
  simp only [List.forall_mem_append] at htryable
  obtain ⟨⟨⟨hprodelision, hust⟩, hist⟩, hn⟩ := htryable
  simp only [List.map_cons, List.map_nil, Flow.runAll]
  rcases contractions_exclusive spelling word with ⟨x, hplan, hrest⟩ | ⟨hplan, hplans⟩
  · have hp : (prodelision spelling).spellings word = [x] :=
      Plan.spellings_plain fun empty => congrFun hplan empty
    have hu := Plan.spellings_nil fun empty => (hrest empty word (by simp)).1
    have hi := Plan.spellings_nil fun empty => (hrest empty word (by simp)).2.1
    apply (steps.plain hact (prodelision spelling) [x] (at_word hplan)
      hprodelision).andThen
    intro next hnext
    apply (steps.idle hnext (ustRetry spelling)
      fun empty w hw => (hrest empty w (by simpa [hp] using hw)).1).andThen
    intro next hnext
    apply (steps.idle hnext (istRetry spelling)
      fun empty w hw => (hrest empty w (by simpa [hp, hu] using hw)).2.1).andThen
    intro next hnext
    exact (steps.idle hnext (Morpheus.finalN spelling)
      fun empty w hw => (hrest empty w (by simpa [hp, hu, hi] using hw)).2.2).andThen fun _ h => h
  · have hp : (prodelision spelling).spellings word = [] :=
      Plan.spellings_nil fun empty => congrFun hplan empty
    apply (steps.idle hact (prodelision spelling) (at_word hplan)).andThen
    intro next hnext
    rw [hp] at hnext ⊢
    rcases hplans with ⟨x, hplan, hrest⟩ | ⟨hplan, hplans⟩
    · have hu : (ustRetry spelling).spellings word = [x] :=
        Plan.spellings_plain fun empty => congrFun hplan empty
      have hi := Plan.spellings_nil fun empty => (hrest empty word (by simp)).1
      apply (steps.plain hnext (ustRetry spelling) [x] (at_word hplan) hust).andThen
      intro next hnext
      apply (steps.idle hnext (istRetry spelling)
        fun empty w hw => (hrest empty w (by simpa [hu] using hw)).1).andThen
      intro next hnext
      exact (steps.idle hnext (Morpheus.finalN spelling)
        fun empty w hw => (hrest empty w (by simpa [hu, hi] using hw)).2).andThen fun _ h => h
    · have hu : (ustRetry spelling).spellings word = [] :=
        Plan.spellings_nil fun empty => congrFun hplan empty
      apply (steps.idle hnext (ustRetry spelling) (at_word hplan)).andThen
      intro next hnext
      rw [hu] at hnext ⊢
      rcases hplans with ⟨x, y, hplan, hrest⟩ | hplan
      · have hi : (istRetry spelling).spellings word = [x, y] :=
          congrArg (List.map Retry.spelling) (congrFun hplan true)
        apply (steps.two hnext (istRetry spelling) (at_word hplan _ _ (steps.mem hnext)) hi
          hist).andThen
        intro next hnext
        exact (steps.idle hnext (Morpheus.finalN spelling)
          fun empty w hw => hrest empty w (by simpa [hi] using hw)).andThen fun _ h => h
      · have hi : (istRetry spelling).spellings word = [] :=
          Plan.spellings_nil fun empty => congrFun hplan empty
        apply (steps.idle hnext (istRetry spelling) (at_word hplan)).andThen
        intro next hnext
        rw [hi] at hnext ⊢
        exact (steps.finalN hnext hn).andThen fun _ h => h

/-- The retry for `ex-` reads the record. -/
theorem expansion (steps : Steps check saveword word Tryable Returned Through)
    (hact : Through (earlySpellings spelling word ++ (jRetry spelling word).spellings word) act)
    (htryable : ∀ s ∈ executedSpellings spelling word ++ (exRetry spelling).spellings word,
      Tryable s) :
    (Plan.run saveword check (exRetry spelling) act).Meets Returned fun act =>
      ∃ more, Through (executedSpellings spelling word ++ more) act := by
  have hplain : ∀ w, ∃ spellings : List Bytes, ∀ empty,
      exRetry spelling w empty = spellings.map fun s => { spelling := s } := by
    intro w
    by_cases happlies : spelling.language = latin ∧ w.take 2 = ascii "ex"
    · exact ⟨(latinExpandEx w maxWordSize).toList, fun _ => if_pos happlies⟩
    · exact ⟨[], fun _ => if_neg happlies⟩
  have hrun : ∀ tried w, Through tried act → act.gkword.workword = w →
      (∀ s ∈ (exRetry spelling).spellings w,
        s ∈ executedSpellings spelling word ++ (exRetry spelling).spellings word) →
      (Plan.run saveword check (exRetry spelling) act).Meets Returned
        (Through (tried ++ (exRetry spelling).spellings w)) := by
    intro tried w hact hw hmem
    obtain ⟨spellings, hplan⟩ := hplain w
    rw [Plan.spellings_plain hplan] at hmem ⊢
    unfold Plan.run
    rw [hw, hplan]
    exact steps.retries hact fun s hs => htryable s (hmem s hs)
  rcases steps.record hact with hw | ⟨hanalyses, hw⟩
  · have hleftover := hrun _ _ hact hw fun s hs =>
      List.mem_append_left _ (List.mem_append_right _ hs)
    apply hleftover.mono fun _ h => h
    intro state hstate
    refine ⟨[], ?_⟩
    rw [List.append_nil]
    exact hstate
  · have hany := steps.analysed hact hanalyses hw (executedSpellings spelling word)
    have hword := hrun _ _ hany hw fun s hs => List.mem_append_right _ hs
    exact hword.mono (fun _ h => h) fun state hstate => ⟨_, hstate⟩

/-- The retries of a Latin word. -/
theorem latinRetries (steps : Steps check saveword word Tryable Returned Through)
    (hlatin : spelling.language = latin) (hact : Through [] act)
    (htryable : ∀ s ∈ executedSpellings spelling word ++ (exRetry spelling).spellings word,
      Tryable s) :
    (Flow.runAll (((plans spelling word).drop 1).map (Plan.run saveword check)) act).Meets Returned
      fun act => ∃ more, Through (executedSpellings spelling word ++ more) act := by
  have hmem : ∀ {s : Bytes}, s ∈ earlySpellings spelling word ++
      (jRetry spelling word).spellings word → Tryable s := fun hs =>
    htryable _ (List.mem_append_left _ (List.mem_append_left _ hs))
  have hu : ∃ spellings : List Bytes, ∀ w empty,
      uRetry spelling word w empty = spellings.map fun s => { spelling := s } := by
    by_cases happlies : spelling.language = latin ∧ (u2v spelling word).2 ≠ 0
    · exact ⟨[(u2v spelling word).1], fun _ _ => if_pos happlies⟩
    · exact ⟨[], fun _ _ => if_neg happlies⟩
  have hj : ∃ spellings : List Bytes, ∀ w empty,
      jRetry spelling word w empty = spellings.map fun s => { spelling := s } :=
    ⟨_, fun _ _ => if_pos hlatin⟩
  have hitalian : ∀ w empty, italianU spelling word w empty = [] := by
    intro w empty
    unfold italianU
    rw [if_neg]
    intro happlies
    rw [hlatin] at happlies
    exact absurd happlies.1 (by decide)
  obtain ⟨uSpellings, hu⟩ := hu
  obtain ⟨jSpellings, hj⟩ := hj
  change (Flow.runAll (([prodelision spelling, ustRetry spelling, istRetry spelling,
      Morpheus.finalN spelling] : List Plan).map (Plan.run saveword check) ++
    [Plan.run saveword check (uRetry spelling word), Plan.run saveword check (italianU spelling word),
      Plan.run saveword check (jRetry spelling word), Plan.run saveword check (exRetry spelling)])
    act).Meets _ _
  rw [Flow.runAll_append]
  have hfinal := steps.contractions hact fun s hs =>
    hmem (List.mem_append_left _ (List.mem_append_left _ hs))
  apply (hfinal.mono (fun _ h => h) fun _ h => h).andThen
  intro state hstate
  apply (steps.plain hstate (uRetry spelling word) _ (fun empty w _ => hu w empty)
    fun s hs => hmem (List.mem_append_left _ (List.mem_append_right _ hs))).andThen
  intro state hstate
  rw [Flow.runAll, Plan.run_nil fun empty => hitalian _ empty, Flow.goes_andThen, Flow.runAll]
  apply (steps.plain hstate (jRetry spelling word) _ (fun empty w _ => hj w empty)
    fun s hs => hmem (List.mem_append_right _ hs)).andThen
  intro state hstate
  rw [Flow.runAll]
  exact (steps.expansion hstate htryable).andThen fun _ h => h

end Steps

end Morpheus
