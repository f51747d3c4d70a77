import Morpheus.IndexCaches
import Morpheus.StoredDialect

/-!
# The lemma of a compound

`AddAnalysis` looks for a compound in the index of compound verbs, cuts off its first preverb when
it is not there, and puts what it has cut off in front of the entry that it finds.
-/
namespace Morpheus

/-- `chckcmpvb` with an empty buffer for the entry. -/
def cmpvbEntry (index : Option (Loaded (List Bytes))) (s : Bytes) : Bytes :=
  (endOutcome .compoundVerb s [] index).keys

/-- Preverbs with commas between them, a hyphen, and a lemma. -/
def compoundKey (preverbs : List Bytes) (stLemma : Bytes) : Bytes :=
  [44].intercalate preverbs ++ 45 :: stLemma

/-- The lemma of a compound: the longest tail of it that is in the index is replaced by its
entry. -/
def Normalised (lookup : Bytes → Bytes) (preverbs : List Bytes) (stLemma compound : Bytes) : Prop :=
  (∃ i < preverbs.length, (∀ j < i, lookup (compoundKey (preverbs.drop j) stLemma) = []) ∧
    lookup (compoundKey (preverbs.drop i) stLemma) ≠ [] ∧
      compound = if i = 0 then lookup (compoundKey preverbs stLemma)
        else compoundKey (preverbs.take i) (lookup (compoundKey (preverbs.drop i) stLemma))) ∨
  (∀ i < preverbs.length, lookup (compoundKey (preverbs.drop i) stLemma) = []) ∧
    compound = compoundKey preverbs stLemma

section Keys
variable {lookup : Bytes → Bytes} {stLemma preverb : Bytes} {consumed preverbs : List Bytes}

theorem compoundKey_singleton (preverb stLemma : Bytes) :
    compoundKey [preverb] stLemma = preverb ++ 45 :: stLemma := by
  unfold compoundKey
  rw [List.intercalate_singleton]

theorem compoundKey_cons (preverb stLemma : Bytes) (h : preverbs ≠ []) :
    compoundKey (preverb :: preverbs) stLemma = preverb ++ 44 :: compoundKey preverbs stLemma := by
  cases preverbs with
  | nil => exact absurd rfl h
  | cons next preverbs =>
    unfold compoundKey
    rw [List.intercalate_cons_cons, List.append_assoc, List.append_assoc]
    rfl

theorem intercalate_concat (preverb : Bytes) (h : consumed ≠ []) :
    [(44 : Byte)].intercalate (consumed ++ [preverb]) =
      [(44 : Byte)].intercalate consumed ++ 44 :: preverb := by
  induction consumed with
  | nil => exact absurd rfl h
  | cons first consumed ih =>
    cases consumed with
    | nil =>
      rw [List.intercalate_singleton]
      change [(44 : Byte)].intercalate [first, preverb] = _
      rw [List.intercalate_cons_cons, List.intercalate_singleton, List.append_assoc]
      rfl
    | cons second consumed =>
      have hrest := ih (List.cons_ne_nil _ _)
      rw [List.cons_append] at hrest ⊢
      rw [List.cons_append, List.intercalate_cons_cons, ← List.cons_append, List.cons_append, hrest,
        List.intercalate_cons_cons, List.append_assoc, List.append_assoc, List.append_assoc]

theorem intercalate_ne_nil (hne : consumed ≠ []) (hfirst : consumed.head? ≠ some []) :
    [(44 : Byte)].intercalate consumed ≠ [] := by
  cases consumed with
  | nil => exact absurd rfl hne
  | cons first consumed =>
    have hone : first ≠ [] := fun hempty => hfirst (by rw [hempty]; rfl)
    cases consumed with
    | nil =>
      rw [List.intercalate_singleton]
      exact hone
    | cons second consumed =>
      rw [List.intercalate_cons_cons, List.append_assoc]
      exact List.append_ne_nil_of_left_ne_nil hone _

/-- A text is appended to the part collected before. -/
theorem joinHalf_eq {half separator t : Bytes} (h : half.length + separator.length + t.length < 1024) :
    joinHalf half separator t = some (if half = [] then t else half ++ separator ++ t) := by
  have happend : ∀ a b : Bytes, a.length + b.length < 1024 → appendText a 1024 b = some (a ++ b) := by
    intro a b hfits
    have hroom : ¬ (a.length ≥ 1024 ∨ b.length ≥ 1024 - a.length) := by omega
    unfold appendText
    rw [if_neg hroom]
  unfold joinHalf
  by_cases hempty : half = []
  · rw [if_pos hempty, if_pos hempty, hempty]
    exact happend [] t (by rw [List.length_nil]; omega)
  · rw [if_neg hempty, if_neg hempty, happend half separator (by omega), Option.bind_some,
      happend _ t (by rw [List.length_append]; omega)]

/-- The compound, from the preverbs that are left. -/
def normaliseFrom (lookup : Bytes → Bytes) (stLemma : Bytes) (consumed : List Bytes) :
    List Bytes → Bytes
  | [] => compoundKey consumed stLemma
  | preverb :: preverbs =>
    let cmplem := lookup (compoundKey (preverb :: preverbs) stLemma)
    if cmplem ≠ [] then (if consumed = [] then cmplem else compoundKey consumed cmplem)
    else normaliseFrom lookup stLemma (consumed ++ [preverb]) preverbs

theorem normaliseFrom_normalised (hnone : ∀ i < consumed.length,
    lookup (compoundKey ((consumed ++ preverbs).drop i) stLemma) = []) :
    Normalised lookup (consumed ++ preverbs) stLemma
      (normaliseFrom lookup stLemma consumed preverbs) := by
  induction preverbs generalizing consumed with
  | nil =>
    right
    rw [List.append_nil] at hnone ⊢
    exact ⟨hnone, rfl⟩
  | cons preverb preverbs ih =>
    unfold normaliseFrom
    dsimp only
    have hdrop : (consumed ++ preverb :: preverbs).drop consumed.length = preverb :: preverbs :=
      List.drop_left
    by_cases hfound : lookup (compoundKey (preverb :: preverbs) stLemma) ≠ []
    · left
      rw [if_pos hfound]
      refine ⟨consumed.length, by simp, hnone, by rw [hdrop]; exact hfound, ?_⟩
      rw [hdrop, List.take_left]
      by_cases hempty : consumed = []
      · rw [if_pos hempty, hempty]
        rfl
      · have hne : consumed.length ≠ 0 := fun hzero => hempty (List.length_eq_zero_iff.mp hzero)
        rw [if_neg hempty, if_neg hne]
    · rw [if_neg hfound]
      have hsplit : consumed ++ preverb :: preverbs = (consumed ++ [preverb]) ++ preverbs := by simp
      rw [hsplit] at hnone hdrop ⊢
      apply ih
      intro i hi
      rw [List.length_append, List.length_singleton] at hi
      by_cases hlast : i = consumed.length
      · rw [hlast, hdrop]
        exact not_not.mp hfound
      · exact hnone i (by omega)

theorem compoundKey_append (hcons : consumed ≠ []) (hne : preverbs ≠ []) :
    compoundKey (consumed ++ preverbs) stLemma =
      [44].intercalate consumed ++ 44 :: compoundKey preverbs stLemma := by
  induction consumed with
  | nil => exact absurd rfl hcons
  | cons first consumed ih =>
    by_cases hnil : consumed = []
    · rw [hnil, List.singleton_append, compoundKey_cons _ _ hne, List.intercalate_singleton]
    · rw [List.cons_append, compoundKey_cons _ _ (by simp [hnil]), ih hnil]
      obtain ⟨second, rest, rfl⟩ := List.exists_cons_of_ne_nil hnil
      rw [List.intercalate_cons_cons, List.append_assoc, List.append_assoc]
      rfl

/-- The text is cut at its first comma. -/
theorem cut_comma {s : Bytes} (hs : 44 ∉ s) (t : Bytes) :
    (s ++ 44 :: t).takeWhile (· ≠ 44) = s ∧ ((s ++ 44 :: t).dropWhile (· ≠ 44)).tail = t := by
  induction s with
  | nil => exact ⟨rfl, rfl⟩
  | cons c s ih =>
    have hc : c ≠ 44 := fun h => hs (by rw [h]; exact List.mem_cons_self)
    obtain ⟨htake, hdrop⟩ := ih fun h => hs (List.mem_cons_of_mem _ h)
    rw [List.cons_append, List.takeWhile_cons_of_pos (by simpa using hc),
      List.dropWhile_cons_of_pos (by simpa using hc), htake]
    exact ⟨rfl, hdrop⟩

/-- The loop of `AddAnalysis`: what it has cut off is in one buffer, with commas, and the rest of
the text in the other. -/
theorem compoundLookup_eq (hcommas : ∀ preverb ∈ preverbs, 44 ∉ preverb) (hlemma : 44 ∉ stLemma)
    (hne : preverbs ≠ []) (hfirst : (consumed ++ preverbs).head? ≠ some [])
    (hlength : (compoundKey (consumed ++ preverbs) stLemma).length < maxWordSize - 1)
    (hfits : (normaliseFrom lookup stLemma consumed preverbs).length < maxWordSize) :
    compoundLookup lookup ([44].intercalate consumed) (compoundKey preverbs stLemma) =
      some (normaliseFrom lookup stLemma consumed preverbs) := by
  induction preverbs generalizing consumed with
  | nil => exact absurd rfl hne
  | cons preverb preverbs ih =>
    have hmax : maxWordSize < 1024 := by decide
    have hhalf : consumed ≠ [] → [(44 : Byte)].intercalate consumed ≠ [] := by
      intro hcons
      rw [List.head?_append_of_ne_nil _ hcons] at hfirst
      exact intercalate_ne_nil hcons hfirst
    have hempty : consumed = [] → [(44 : Byte)].intercalate consumed = [] := by
      intro hnil
      rw [hnil]
      rfl
    have hwhole : ([(44 : Byte)].intercalate consumed).length +
        (compoundKey (preverb :: preverbs) stLemma).length ≤
          (compoundKey (consumed ++ preverb :: preverbs) stLemma).length := by
      by_cases hcons : consumed = []
      · rw [hempty hcons, hcons, List.length_nil, Nat.zero_add]
        rfl
      · rw [compoundKey_append hcons (List.cons_ne_nil _ _), List.length_append, List.length_cons]
        omega
    rw [compoundLookup, if_neg (by omega)]
    dsimp only
    unfold normaliseFrom at hfits ⊢
    dsimp only at hfits ⊢
    by_cases hfound : lookup (compoundKey (preverb :: preverbs) stLemma) ≠ []
    · rw [if_pos hfound] at hfits
      rw [if_pos hfound, if_pos hfound]
      by_cases hcons : consumed = []
      · rw [if_pos (hempty hcons), if_pos hcons]
      · rw [if_neg hcons] at hfits
        have hlong : ([(44 : Byte)].intercalate consumed).length + (ascii "-").length +
            (lookup (compoundKey (preverb :: preverbs) stLemma)).length < 1024 := by
          unfold compoundKey at hfits
          rw [List.length_append, List.length_cons] at hfits
          have hone : (ascii "-").length = 1 := by decide
          unfold compoundKey
          omega
        rw [if_neg (hhalf hcons), if_neg hcons, joinHalf_eq hlong, if_neg (hhalf hcons)]
        unfold compoundKey
        rw [List.append_assoc]
        rfl
    · rw [if_neg hfound] at hfits
      rw [if_neg hfound, if_neg hfound]
      have hown : 44 ∉ preverb := hcommas preverb List.mem_cons_self
      by_cases hlast : preverbs = []
      · have hnocomma : ¬ 44 ∈ compoundKey (preverb :: preverbs) stLemma := by
          rw [hlast, compoundKey_singleton]
          intro hmem
          rcases List.mem_append.mp hmem with hmem | hmem
          · exact hown hmem
          · rcases List.mem_cons.mp hmem with heq | hmem
            · exact absurd heq (by decide)
            · exact hlemma hmem
        have hlong : ([(44 : Byte)].intercalate consumed).length + (ascii ",").length +
            (compoundKey (preverb :: preverbs) stLemma).length < 1024 := by
          have hone : (ascii ",").length = 1 := by decide
          omega
        rw [dif_neg hnocomma, joinHalf_eq hlong, hlast]
        unfold normaliseFrom
        by_cases hcons : consumed = []
        · rw [if_pos (hempty hcons), hcons]
          rfl
        · rw [if_neg (hhalf hcons), compoundKey_append hcons (List.cons_ne_nil _ _), List.append_assoc]
          rfl
      · have hcomma : 44 ∈ compoundKey (preverb :: preverbs) stLemma := by
          rw [compoundKey_cons _ _ hlast]
          simp
        obtain ⟨htake, hdrop⟩ := cut_comma hown (compoundKey preverbs stLemma)
        rw [← compoundKey_cons _ _ hlast] at htake hdrop
        have hlong : ([(44 : Byte)].intercalate consumed).length + (ascii ",").length +
            preverb.length < 1024 := by
          have hone : (ascii ",").length = 1 := by decide
          rw [compoundKey_cons _ _ hlast, List.length_append] at hwhole
          omega
        have hnext : joinHalf ([44].intercalate consumed) (ascii ",") preverb =
            some ([44].intercalate (consumed ++ [preverb])) := by
          rw [joinHalf_eq hlong]
          by_cases hcons : consumed = []
          · rw [if_pos (hempty hcons), hcons, List.nil_append, List.intercalate_singleton]
          · rw [if_neg (hhalf hcons), intercalate_concat preverb hcons, List.append_assoc]
            rfl
        have hsplit : consumed ++ preverb :: preverbs = (consumed ++ [preverb]) ++ preverbs := by simp
        rw [hsplit] at hfirst hlength
        rw [dif_pos hcomma, htake, hdrop, hnext, Option.bind_some]
        exact ih (fun p hp => hcommas p (List.mem_cons_of_mem _ hp)) hlast hfirst hlength hfits

end Keys

theorem finishAnalysis_lemma (env : WordEnv) (gkform : GkWord) (curanal : GkAnalysis) :
    (finishAnalysis env gkform curanal).1.stLemma = curanal.stLemma := by
  unfold finishAnalysis adjustUnaugmented copyFlags
  dsimp only
  split_ifs <;> rfl

theorem fillAnalysis_lemma {env : WordEnv} {chckcmpvb : Bytes → Bytes} {gkform : GkWord}
    {slot : GkAnalysis} {compound : Bytes} (h : analysisLemma chckcmpvb gkform = some compound) :
    (fillAnalysis env chckcmpvb gkform slot).1.stLemma = compound := by
  unfold fillAnalysis
  rw [h]
  dsimp only
  rw [finishAnalysis_lemma]
  unfold adjustApocope copyForm
  dsimp only
  split_ifs <;> rfl

/-- An index with one compound. -/
def sublevoIndex : Option (Loaded (List Bytes)) := some ⟨[], [ascii "sub-levo sublevo"]⟩

example : normaliseFrom (cmpvbEntry sublevoIndex) (ascii "levo") []
    [ascii "re", ascii "sub"] = ascii "re-sublevo" := by decide +kernel

end Morpheus
