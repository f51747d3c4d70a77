import Morpheus.AnalysisStore
import Morpheus.PreIndex

/-!
# Stored preverbs

A dictionary entry may carry the preverbs of its stem (`pb:kata/`). `checkdict` and
`CheckIrregForm` compare them with the preverbs that were split off the word before they
generate forms. Here are the keys that each of them hands to the generator, if any.
-/
namespace Morpheus

/-- `is_substring`: the first place in `s2` where `s1` stands, as the text before it and the
text from it on. -/
def isSubstring (s1 : Bytes) : Bytes → Option (Bytes × Bytes)
  | [] => none
  | c :: s2 =>
    if s1 ≠ [] ∧ s1.isPrefixOf (c :: s2) then some ([], c :: s2)
    else (isSubstring s1 s2).map fun p => (c :: p.1, p.2)

/-- `lastn`, which steps back from the end of a word, if need be beyond its start into the
memory before it. -/
def lastn (memory word : Bytes) (n : ℕ) : Bytes :=
  (memory ++ word).drop (memory.length + word.length - n)

/-- `subchar` -/
def subchar (s : Bytes) (c1 c2 : Byte) : Bytes := s.map fun c => if c = c1 then c2 else c

/-- `GetLemmStem`: the lemma, the stem and the keys of an entry. -/
def getLemmStem (keys : Bytes) : Bytes × Bytes × Bytes :=
  let keys := if keys.head? = some 58 then keys.tail else keys
  let lemma_ := keys.takeWhile (· ≠ 58)
  let keys := (keys.dropWhile (· ≠ 58)).tail
  (lemma_, keys.takeWhile (· ≠ 58), (keys.dropWhile (· ≠ 58)).tail)

/-- Two texts appended to the keys of an entry. -/
def appendTwo (keys : Bytes) (capacity : ℕ) (tag prevb : Bytes) : Option Bytes :=
  (appendText keys capacity tag).bind fun keys => appendText keys capacity prevb

/-- `checkdict` up to `GenStemForms`, for an entry and the preverbs of the word: the keys to
generate forms with. The memory before the preverbs is read when the text after `pb:` is
longer than they are. -/
def checkdict (memory prevb stemkeys : Bytes) : Option Bytes :=
  let curkeys := xstrncpy stemkeys longString
  let keyp := (getLemmStem curkeys).2.2
  let pbptr := match isSubstring (ascii "pb:") keyp with
    | none => none
    | some (before, text) => if before.getLast? = some 114 then none else some text
  if pbptr.isSome ∧ prevb = [] then none
  else if prevb = [] then some (subchar keyp 58 32)
  else match pbptr with
    | none => (appendTwo keyp (longString + 1) (ascii ":pb:") prevb).map (subchar · 58 32)
    | some text =>
      let tmppb := text.drop 3
      let tmppb := if tmppb.getLast? = some 58 then tmppb.dropLast else tmppb
      if strncmpBy id prevb.length tmppb (lastn memory prevb tmppb.length) ≠ 0 then none
      else (appendTwo keyp (longString + 1) (ascii ":pb:") prevb).map (subchar · 58 32)

/-- `CheckIrregForm` up to `GenIrregForm`: the keys to generate forms with. -/
def checkIrregForm (prevb stemkeys : Bytes) : Option Bytes :=
  if prevb = [] then some stemkeys
  else match isSubstring stemkeys (ascii "pb:") with
    | none =>
      if stemkeys.length ≥ longString then none
      else appendTwo stemkeys longString (ascii " pb:") prevb
    | some (_, text) =>
      if strncmpBy id prevb.length (text.drop 3) prevb ≠ 0 then none else some stemkeys

/-- `parsefield`: a field up to a separator or white space, and the text after it; a field
that is too long is cut and ends the text. -/
def parsefield (s : Bytes) (c : Byte) (len : ℕ) : Bytes × Bytes :=
  let field := s.takeWhile fun d => d ≠ c && !isSpace d
  if field.length > len then (field.take (len + 1), [])
  else match s.drop field.length with
    | [] => (field, [])
    | d :: rest => (field, if isSpace d then [] else rest)

/-- One entry in `ChckIrrLemms`, up to `GenIrregForm`: its form, its lemma and its keys. -/
def chckIrrLemm (prevb entry : Bytes) : Option Bytes :=
  let form := parsefield entry 58 longString
  let lemma_ := parsefield form.2 58 longString
  let stemkeys := parsefield lemma_.2 32 longString
  checkIrregForm prevb (subchar stemkeys.1 58 32)

/-- The stored preverbs are those of the word, or the last ones of them. -/
def Agrees (p q : Bytes) : Prop := p = q ∨ (44 :: p) <:+ q

instance (p q : Bytes) : Decidable (Agrees p q) := inferInstanceAs (Decidable (_ ∨ _))

/-- A byte that ends a key. -/
def EndsKey (c : Byte) : Prop := c = 58 ∨ c = 32

/-- Keys with a `pb:` key for the preverbs `p`; any `pb:` before it is that of an `rpb:` key. -/
structure CarriesPreverb (keys before p rest : Bytes) : Prop where
  text : keys = before ++ (ascii "pb:" ++ (p ++ rest))
  boundary : ∀ c, before.getLast? = some c → EndsKey c
  nonempty : p ≠ []
  list : ∀ c ∈ p, ¬ EndsKey c
  ends : ∀ c, rest.head? = some c → EndsKey c
  others : ∀ u v, before = u ++ (ascii "pb:" ++ v) → u.getLast? = some 114

theorem isSubstring_none {s1 s2 : Bytes} (hs : s1 ≠ []) (h : isSubstring s1 s2 = none) (u v : Bytes) :
    s2 ≠ u ++ (s1 ++ v) := by
  induction s2 generalizing u with
  | nil =>
    intro heq
    have hlength := congrArg List.length heq
    have hpos := List.length_pos_iff.mpr hs
    simp only [List.length_nil, List.length_append] at hlength
    omega
  | cons c s2 ih =>
    rw [isSubstring] at h
    split at h
    · cases h
    · rename_i hnot
      cases u with
      | nil =>
        intro heq
        apply hnot
        refine ⟨hs, List.isPrefixOf_iff_prefix.mpr ⟨v, ?_⟩⟩
        rw [heq]
        rfl
      | cons d u =>
        intro heq
        exact ih (Option.map_eq_none_iff.mp h) u (List.cons.inj heq).2

theorem isSubstring_some {s1 s2 before text : Bytes} (hs : s1 ≠ [])
    (h : isSubstring s1 s2 = some (before, text)) :
    s2 = before ++ text ∧ s1 <+: text ∧
      ∀ u v, s2 = u ++ (s1 ++ v) → before.length ≤ u.length := by
  induction s2 generalizing before with
  | nil => cases h
  | cons c s2 ih =>
    rw [isSubstring] at h
    split at h
    · rename_i hpre
      cases h
      exact ⟨rfl, List.isPrefixOf_iff_prefix.mp hpre.2, fun u v _ => Nat.zero_le _⟩
    · rename_i hnot
      obtain ⟨p, hp, heq⟩ := Option.map_eq_some_iff.mp h
      cases heq
      obtain ⟨htext, hpre, hfirst⟩ := ih hp
      refine ⟨by rw [htext]; rfl, hpre, ?_⟩
      intro u v hs2
      cases u with
      | nil =>
        exfalso
        apply hnot
        refine ⟨hs, List.isPrefixOf_iff_prefix.mpr ⟨v, ?_⟩⟩
        rw [hs2]
        rfl
      | cons d u =>
        have hle := hfirst u v (List.cons.inj hs2).2
        simp only [List.length_cons]
        omega

/-- A `pb:` before the key itself lies wholly before it. -/
theorem CarriesPreverb.earlier {keys before p rest : Bytes}
    (h : CarriesPreverb keys before p rest) {u v : Bytes}
    (htext : keys = u ++ (ascii "pb:" ++ v)) (hlt : u.length < before.length) :
    ∃ w, before = u ++ (ascii "pb:" ++ w) := by
  have hsame : before ++ (ascii "pb:" ++ (p ++ rest)) = u ++ (ascii "pb:" ++ v) :=
    h.text.symm.trans htext
  have htag : ascii "pb:" = [112, 98, 58] := by decide
  rw [htag] at hsame ⊢
  have hpref : u <+: u ++ ([112, 98, 58] ++ v) := List.prefix_append _ _
  rw [← hsame] at hpref
  obtain ⟨w, rfl⟩ := List.prefix_of_prefix_length_le hpref (List.prefix_append _ _) hlt.le
  rw [List.append_assoc, List.append_cancel_left_eq] at hsame
  have hlast : ∀ c, w.getLast? = some c → EndsKey c := by
    intro c hc
    apply h.boundary
    rw [List.getLast?_append, hc]
    rfl
  match w, hsame, hlast with
  | [], _, _ => simp at hlt
  | [a], hsame, hlast =>
    have ha : a = 112 := (List.cons.inj hsame).1
    have hends := hlast a rfl
    rw [ha] at hends
    rcases hends with hends | hends <;> cases hends
  | [a, b], hsame, hlast =>
    have hb : b = 98 := (List.cons.inj (List.cons.inj hsame).2).1
    have hends := hlast b rfl
    rw [hb] at hends
    rcases hends with hends | hends <;> cases hends
  | a :: b :: c :: w, hsame, _ =>
    obtain ⟨ha, hsame⟩ := List.cons.inj hsame
    obtain ⟨hb, hsame⟩ := List.cons.inj hsame
    obtain ⟨hc, -⟩ := List.cons.inj hsame
    exact ⟨w, by rw [ha, hb, hc]; rfl⟩

/-- Only an `rpb:` key can hide the `pb:` key: the search stops at the first of them. -/
theorem CarriesPreverb.found {keys before p rest : Bytes} (h : CarriesPreverb keys before p rest) :
    (ascii "pb:" <:+: before ∧ ∃ u v, isSubstring (ascii "pb:") keys = some (u, v) ∧
      u.getLast? = some 114) ∨
    (¬ ascii "pb:" <:+: before ∧
      isSubstring (ascii "pb:") keys = some (before, ascii "pb:" ++ (p ++ rest)) ∧
      before.getLast? ≠ some 114) := by
  have htag : ascii "pb:" ≠ [] := by decide
  cases hfind : isSubstring (ascii "pb:") keys with
  | none => exact absurd h.text (isSubstring_none htag hfind _ _)
  | some found =>
    obtain ⟨u, v⟩ := found
    obtain ⟨htext, ⟨v', hv⟩, hfirst⟩ := isSubstring_some htag hfind
    have hle := hfirst before (p ++ rest) h.text
    rcases Nat.lt_or_eq_of_le hle with hlt | heq
    · rw [← hv] at htext
      obtain ⟨w, hw⟩ := h.earlier htext hlt
      exact Or.inl ⟨⟨u, w, by rw [hw, List.append_assoc]⟩, u, v, rfl, h.others u w hw⟩
    · have hsplit := h.text.symm.trans htext
      obtain ⟨hbefore, hrest⟩ := List.append_inj hsplit heq.symm
      refine Or.inr ⟨?_, by rw [hbefore, hrest], ?_⟩
      · rintro ⟨u', w, hw⟩
        have hearly := hfirst u' (w ++ (ascii "pb:" ++ (p ++ rest))) (by
          rw [h.text, ← hw]
          simp only [List.append_assoc])
        rw [heq, ← hw] at hearly
        simp only [List.length_append] at hearly
        have hpos := List.length_pos_iff.mpr htag
        omega
      · intro hr
        rcases h.boundary 114 hr with hends | hends <;> cases hends

theorem byte_sub_eq_zero {c d : Byte} : ((c.toNat : Int) - d.toNat = 0) ↔ c = d := by
  constructor
  · intro h
    apply UInt8.toNat_inj.mp
    omega
  · intro h
    rw [h]
    omega

theorem strncmpBy_id_succ (n : ℕ) (s t : Bytes) :
    strncmpBy id (n + 1) s t = 0 ↔
      s.headD 0 = t.headD 0 ∧ (s = [] ∨ strncmpBy id n s.tail t.tail = 0) := by
  rw [strncmpBy]
  split
  · rename_i heq
    have heq' : s.headD 0 = t.headD 0 := heq
    split
    · rename_i hnil
      exact ⟨fun _ => ⟨heq', Or.inl hnil⟩, fun _ => rfl⟩
    · rename_i hnil
      simp only [heq', hnil, true_and, false_or]
  · rename_i hne
    have hne' : ¬ s.headD 0 = t.headD 0 := hne
    constructor
    · intro h
      exact absurd (byte_sub_eq_zero.mp h) hne'
    · intro h
      exact absurd h.1 hne'

/-- `strncmp` sees a text up to its first NUL. -/
theorem strncmpBy_id_eq_zero (n : ℕ) {s : Bytes} (t : Bytes) (hs : NulFree s) :
    strncmpBy id n s t = 0 ↔ s.take n = (cstr t).take n := by
  induction n generalizing s t with
  | zero => simp [strncmpBy]
  | succ n ih =>
    rw [strncmpBy_id_succ]
    cases s with
    | nil =>
      cases t with
      | nil => simp [cstr]
      | cons d t =>
        by_cases hd : d = 0
        · simp [cstr, hd]
        · have hne : ¬ (0 : Byte) = d := fun h => hd h.symm
          simp [cstr, hd, hne]
    | cons c s =>
      obtain ⟨hc, hs⟩ := nulFree_cons.mp hs
      cases t with
      | nil => simp [cstr, hc]
      | cons d t =>
        rw [List.tail_cons, List.tail_cons, ih t hs]
        by_cases hd : d = 0
        · simp [cstr, hd, hc]
        · simp [cstr, hd]

/-- The keys that follow the preverbs, without a final colon. -/
def keysAfter (rest : Bytes) : Bytes := if rest.getLast? = some 58 then rest.dropLast else rest

/-- What `checkdict` compares with the preverbs: the rest of the entry from them on. -/
theorem CarriesPreverb.compared {keys before p rest : Bytes}
    (h : CarriesPreverb keys before p rest) :
    (if (p ++ rest).getLast? = some 58 then (p ++ rest).dropLast else p ++ rest) =
      p ++ keysAfter rest := by
  unfold keysAfter
  cases hrest : rest with
  | nil =>
    have hlast : ¬ p.getLast? = some 58 := by
      intro hp
      exact h.list 58 (List.mem_of_getLast? hp) (Or.inl rfl)
    simp [hlast]
  | cons c rest' =>
    rw [List.getLast?_append_of_ne_nil _ (by simp), List.dropLast_append_of_ne_nil (by simp)]
    split <;> rfl

/-- The memory before the preverbs happens to look like the start of the entry's text. -/
def Accident (memory q text : Bytes) : Prop :=
  q.length < text.length ∧ text.take q.length = (cstr (lastn memory q text.length)).take q.length

theorem strncmp_lastn (memory : Bytes) {q text : Bytes} (hq : NulFree q) (htext : NulFree text) :
    strncmpBy id q.length text (lastn memory q text.length) = 0 ↔
      text <:+ q ∨ Accident memory q text := by
  rw [strncmpBy_id_eq_zero _ _ htext]
  unfold Accident
  by_cases hlt : q.length < text.length
  · have hnot : ¬ text <:+ q := by
      intro h
      have hle := h.length_le
      omega
    simp [hlt, hnot]
  · have hdrop : lastn memory q text.length = q.drop (q.length - text.length) := by
      unfold lastn
      rw [show memory.length + q.length - text.length =
        memory.length + (q.length - text.length) by omega, List.drop_length_add_append]
    have hfree : NulFree (q.drop (q.length - text.length)) := hq.sublist (List.drop_sublist _ _)
    rw [hdrop, cstr_of_nulFree hfree, List.take_of_length_le (by omega),
      List.take_of_length_le (by simp), List.suffix_iff_eq_drop]
    simp [hlt]

/-- The text of the key, as `checkdict` compares it. -/
def comparedText (p rest : Bytes) : Bytes := p ++ keysAfter rest

/-- The entry with the preverbs of the word appended fits its buffer. -/
def Fits (keys q : Bytes) (capacity : ℕ) : Prop := keys.length + 4 + q.length < capacity

theorem appendTwo_isSome {keys tag q : Bytes} (htag : tag.length = 4) (capacity : ℕ) :
    (appendTwo keys capacity tag q).isSome = true ↔ Fits keys q capacity := by
  unfold appendTwo appendText Fits
  split
  · rename_i hfull
    rw [htag] at hfull
    simp only [Option.bind_none, Option.isSome_none, Bool.false_eq_true, false_iff]
    omega
  · rename_i hroom
    rw [htag] at hroom
    simp only [Option.bind_some, List.length_append, htag]
    split
    · simp only [Option.isSome_none, Bool.false_eq_true, false_iff]
      omega
    · simp only [Option.isSome_some, true_iff]
      omega

theorem getLemmStem_sublist (entry : Bytes) : (getLemmStem entry).2.2.Sublist entry := by
  have htail : ∀ s : Bytes, ((s.dropWhile (· ≠ 58)).tail).Sublist s := fun s =>
    (List.tail_sublist _).trans (List.dropWhile_sublist _)
  unfold getLemmStem
  dsimp only
  split
  · exact (htail _).trans ((htail _).trans (List.tail_sublist _))
  · exact (htail _).trans (htail _)

/-- `checkdict` goes on when the keys fit and the preverbs of the word end in the text of the
key, all of it; an `rpb:` key before it hides the key. -/
theorem checkdict_isSome {memory q entry before p rest : Bytes} (hq : q ≠ []) (hqfree : NulFree q)
    (hentry : NulFree entry) (hshort : entry.length < longString)
    (h : CarriesPreverb (getLemmStem entry).2.2 before p rest) :
    (checkdict memory q entry).isSome = true ↔
      Fits (getLemmStem entry).2.2 q (longString + 1) ∧
        (ascii "pb:" <:+: before ∨ comparedText p rest <:+ q ∨
          Accident memory q (comparedText p rest)) := by
  have hcut : xstrncpy entry longString = entry := by
    unfold xstrncpy
    exact List.take_of_length_le (by omega)
  have hfree : NulFree (comparedText p rest) := by
    have hkeys := hentry.sublist (getLemmStem_sublist entry)
    rw [h.text, nulFree_append, nulFree_append] at hkeys
    unfold comparedText
    rw [← h.compared]
    split
    · exact hkeys.2.2.sublist (List.dropLast_sublist _)
    · exact hkeys.2.2
  have hfits := @appendTwo_isSome (getLemmStem entry).2.2 (ascii ":pb:") q rfl (longString + 1)
  unfold checkdict
  rw [hcut]
  dsimp only
  rcases h.found with ⟨hrpb, u, v, hfind, hu⟩ | ⟨hrpb, hfind, hbefore⟩
  · simp only [hfind, hu, if_true, Option.isSome_none, Bool.false_eq_true, false_and, if_false,
      if_neg hq, Option.isSome_map, hfits, hrpb, true_or, and_true]
  · have htext : (ascii "pb:" ++ (p ++ rest)).drop 3 = p ++ rest := rfl
    simp only [hfind, if_neg hbefore, hq, and_false, if_false, htext, hrpb, false_or]
    rw [h.compared]
    change (if strncmpBy id q.length (comparedText p rest)
      (lastn memory q (comparedText p rest).length) ≠ 0 then none else _).isSome = true ↔ _
    rw [← strncmp_lastn memory hqfree hfree]
    split
    · rename_i hne
      simp [hne]
    · rename_i heq
      simp only [Option.isSome_map, hfits, not_not.mp heq, and_true]

/-- `CheckIrregForm` goes on with every entry whose keys fit, whatever its preverbs are: it
looks for the keys in the text `pb:`, and not the other way round. -/
theorem chckIrrLemm_isSome {q entry : Bytes} (hq : q ≠ [])
    (hkeys : 3 < (parsefield (parsefield (parsefield entry 58 longString).2 58 longString).2 32
      longString).1.length) :
    (chckIrrLemm q entry).isSome = true ↔
      Fits (parsefield (parsefield (parsefield entry 58 longString).2 58 longString).2 32
        longString).1 q longString := by
  unfold chckIrrLemm checkIrregForm
  dsimp only
  generalize (parsefield (parsefield (parsefield entry 58 longString).2 58 longString).2 32
    longString).1 = keys at hkeys ⊢
  have hlength : (subchar keys 58 32).length = keys.length := by simp [subchar]
  rw [if_neg hq]
  have hfits := @appendTwo_isSome (subchar keys 58 32) (ascii " pb:") q rfl longString
  cases hfind : isSubstring (subchar keys 58 32) (ascii "pb:") with
  | some found =>
    obtain ⟨u, v⟩ := found
    have hne : subchar keys 58 32 ≠ [] := by
      intro hnil
      rw [hnil] at hlength
      simp only [List.length_nil] at hlength
      omega
    obtain ⟨htext, hpre, -⟩ := isSubstring_some hne hfind
    have hle := hpre.length_le
    have htag := congrArg List.length htext
    rw [List.length_append, show (ascii "pb:").length = 3 from rfl] at htag
    omega
  | none =>
    dsimp only
    unfold Fits at hfits ⊢
    rw [hlength] at hfits ⊢
    split
    · simp only [Option.isSome_none, Bool.false_eq_true, false_iff]
      omega
    · exact hfits

/-- The text of the key is at the end of the preverbs only if no key follows it. -/
theorem comparedText_suffix {p rest q : Bytes} (hends : ∀ c, rest.head? = some c → EndsKey c)
    (hq : ∀ c ∈ q, ¬ EndsKey c) :
    comparedText p rest <:+ q ↔ keysAfter rest = [] ∧ p <:+ q := by
  unfold comparedText
  constructor
  · intro h
    cases hafter : keysAfter rest with
    | nil =>
      rw [hafter, List.append_nil] at h
      exact ⟨rfl, h⟩
    | cons c after =>
      have hmem : c ∈ q := h.subset (by rw [hafter]; simp)
      have hhead : rest.head? = some c := by
        unfold keysAfter at hafter
        cases rest with
        | nil => simp at hafter
        | cons d rest =>
          split at hafter
          · cases rest with
            | nil => cases hafter
            | cons e rest =>
              rw [List.dropLast_cons_cons] at hafter
              rw [(List.cons.inj hafter).1]
              rfl
          · rw [(List.cons.inj hafter).1]
            rfl
      exact absurd (hends c hhead) (hq c hmem)
  · intro h
    rw [h.1, List.append_nil]
    exact h.2

/-- When `checkdict` is right about an entry: if the preverbs agree, the keys fit, and no key
follows the preverbs or an `rpb:` key hides them; if they differ, the keys do not fit, or they
are not hidden, and either they are no end of the preverbs of the word or a key follows them.
An accident of the memory before the preverbs can help and harm. -/
def RegularRight (memory q keys before p rest : Bytes) : Prop :=
  (Agrees p q → Fits keys q (longString + 1) ∧
    (ascii "pb:" <:+: before ∨ keysAfter rest = [] ∨ Accident memory q (comparedText p rest))) ∧
  (¬ Agrees p q → ¬ Fits keys q (longString + 1) ∨
    (¬ ascii "pb:" <:+: before ∧ ¬ (keysAfter rest = [] ∧ p <:+ q) ∧
      ¬ Accident memory q (comparedText p rest)))

/-- When `CheckIrregForm` is right about an entry: exactly the keys of entries that agree fit. -/
def IrregularRight (q keys p : Bytes) : Prop := Agrees p q ↔ Fits keys q longString

/-- The keys of an irregular entry. -/
def irregularKeys (entry : Bytes) : Bytes :=
  (parsefield (parsefield (parsefield entry 58 longString).2 58 longString).2 32 longString).1

/-- Entries with the preverbs `p` and a word with the preverbs `q`: the regular and the
irregular path go on exactly when the preverbs agree, if and only if both conditions hold. -/
theorem preverbAgreement_iff {memory q p entry before rest irregular before' rest' : Bytes}
    (hq : q ≠ []) (hqfree : NulFree q) (hqkeys : ∀ c ∈ q, ¬ EndsKey c)
    (hentry : NulFree entry) (hshort : entry.length < longString)
    (h : CarriesPreverb (getLemmStem entry).2.2 before p rest)
    (h' : CarriesPreverb (irregularKeys irregular) before' p rest') :
    (((checkdict memory q entry).isSome = true ↔ Agrees p q) ∧
      ((chckIrrLemm q irregular).isSome = true ↔ Agrees p q)) ↔
    RegularRight memory q (getLemmStem entry).2.2 before p rest ∧
      IrregularRight q (irregularKeys irregular) p := by
  have hlong : 3 < (irregularKeys irregular).length := by
    have hpos := List.length_pos_iff.mpr h'.nonempty
    rw [h'.text]
    simp only [List.length_append, show (ascii "pb:").length = 3 from rfl]
    omega
  have hregular := @checkdict_isSome memory q entry before p rest hq hqfree hentry hshort h
  have hirregular := @chckIrrLemm_isSome q irregular hq hlong
  rw [comparedText_suffix h.ends hqkeys] at hregular
  have hsuffix : Agrees p q → p <:+ q := by
    rintro (heq | hend)
    · rw [heq]
    · exact (List.suffix_cons 44 p).trans hend
  rw [hregular, hirregular]
  unfold RegularRight IrregularRight irregularKeys
  by_cases hagree : Agrees p q
  · have hp := hsuffix hagree
    simp only [hagree, hp, and_true, iff_true, true_iff, not_true_eq_false, false_imp_iff,
      true_imp_iff]
  · simp only [hagree, iff_false, false_iff, not_false_eq_true, false_imp_iff, true_imp_iff,
      true_and, not_and_or, not_or]

/-- A key after the preverbs refuses the right ones; an irregular entry takes any. -/
theorem preverbAgreement_fails :
    Agrees (ascii "kata/") (ascii "kata/") ∧
      checkdict (List.replicate 60 0) (ascii "kata/")
        (ascii "ka/qhmai:h(:ath_primary:pb:kata/:ionic") = none ∧
      ¬ Agrees (ascii "kata/") (ascii "a)na/") ∧
      (chckIrrLemm (ascii "a)na/") (ascii ":ka/qhmai:ath_primary:pb:kata/:")).isSome = true := by
  decide

theorem carriesPreverb_kata :
    CarriesPreverb (ascii "ath_primary:pb:kata/:") (ascii "ath_primary:") (ascii "kata/") [58] where
  text := by decide
  boundary := by
    intro c hc
    left
    exact (Option.some.inj hc).symm
  nonempty := by decide
  list := by
    unfold EndsKey
    decide +kernel
  ends := by
    intro c hc
    left
    exact (Option.some.inj hc).symm
  others := by
    intro u v huv
    have hnot : ¬ ascii "pb:" <:+: ascii "ath_primary:" := by decide
    exact absurd ⟨u, v, by rw [huv, List.append_assoc]⟩ hnot

/-- Entries of `ka/qhmai` and the preverb `kata/`. -/
theorem preverbAgreement_kata :
    ((checkdict [] (ascii "kata/") (ascii "ka/qhmai:h(:ath_primary:pb:kata/:")).isSome = true ↔
        Agrees (ascii "kata/") (ascii "kata/")) ∧
      ((chckIrrLemm (ascii "kata/") (ascii ":ka/qhmai:ath_primary:pb:kata/:")).isSome = true ↔
        Agrees (ascii "kata/") (ascii "kata/")) := by
  have hq : ∀ c ∈ ascii "kata/", ¬ EndsKey c := carriesPreverb_kata.list
  have hkeys : (getLemmStem (ascii "ka/qhmai:h(:ath_primary:pb:kata/:")).2.2 =
      ascii "ath_primary:pb:kata/:" := by decide
  have hkeys' : irregularKeys (ascii ":ka/qhmai:ath_primary:pb:kata/:") =
      ascii "ath_primary:pb:kata/:" := by decide
  apply (@preverbAgreement_iff [] (ascii "kata/") (ascii "kata/")
    (ascii "ka/qhmai:h(:ath_primary:pb:kata/:") (ascii "ath_primary:") [58]
    (ascii ":ka/qhmai:ath_primary:pb:kata/:") (ascii "ath_primary:") [58]
    (by decide) (by decide) hq (by decide) (by decide) (by rw [hkeys]; exact carriesPreverb_kata)
    (by rw [hkeys']; exact carriesPreverb_kata)).mpr
  unfold RegularRight IrregularRight Fits
  rw [hkeys, hkeys']
  refine ⟨⟨fun _ => ⟨by decide, Or.inr (Or.inl (by decide))⟩, fun h => absurd (Or.inl rfl) h⟩, ?_⟩
  exact ⟨fun _ => by decide, fun _ => Or.inl rfl⟩

end Morpheus
