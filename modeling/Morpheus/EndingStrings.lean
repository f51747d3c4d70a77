import Morpheus.EndIndex
import Morpheus.EndTables

/-!
# Comparing ending strings

`setwendstr`, `endstrcmp` and `noaccstrcmp` of `retrends.c`: a wanted ending written with a
final hyphen is compared with the start of a stored ending, whose marks are passed over.
-/
namespace Morpheus

/-- `hasaccent` -/
def hasaccent (s : Bytes) : Bool := s.any isAccent

/-- `has_quant` -/
def hasQuant (s : Bytes) : Bool := s.any fun c => c == 95 || c == 94

/-- `has_quantacc` -/
def hasQuantacc (s : Bytes) : ℕ := (if hasQuant s then 0o10 else 0) + if hasaccent s then 0o20 else 0

/-- `stripquantacc` -/
def stripquantacc (s : Bytes) : Bytes := stripacc (stripquant s)

/-- `setwendstr`: the wanted string, and `ending_start_match`. -/
def setwendstr (str : Bytes) : Bytes × Bool :=
  let wendstr := if str.getLast? = some 94 then str.dropLast else str
  if wendstr.getLast? = some 45 then (stripacc wendstr.dropLast, true)
  else (stripacc wendstr, false)

/-- The copy loop of `endstrcmp`; `none` when it goes on behind the terminator, which is
passed over like a mark. -/
def copyPrefix : Bytes → Bytes → Option Bytes
  | [], _ => some []
  | _ :: _, [] => none
  | c :: wendstr, h :: hp =>
    if !isAlpha h && c != h then copyPrefix (c :: wendstr) hp
    else (copyPrefix wendstr hp).map (h :: ·)

/-- `endstrcmp` under a value of `ending_start_match`. -/
def endstrcmp (startMatch : Bool) (wendstr haveendstr : Bytes) : Option Int :=
  if startMatch then (copyPrefix wendstr haveendstr).map (dictstrcmp wendstr)
  else some (dictstrcmp wendstr haveendstr)

/-- `noaccstrcmp` -/
def noaccstrcmp (wendstr hendstr : Bytes) : Int :=
  strcmp (stripquantacc wendstr) (stripquantacc hendstr)

/-- The wanted string is how the stored one begins, once marks of the stored string are
skipped that the wanted one does not have there. Letters and marks are alike when the
dictionary order takes them to be. -/
def beginsWith : Bytes → Bytes → Bool
  | [], _ => true
  | _ :: _, [] => false
  | c :: wanted, h :: stored =>
    if !isAlpha h && c != h then beginsWith (c :: wanted) stored
    else comptab c == comptab h && beginsWith wanted stored

/-- A byte of the stored string that the copy loop takes for a byte of the wanted one. -/
def TakenFor (c h : Byte) : Prop := isAlpha h = true ∨ h = c

/-- The stored string has, in order, a letter or the same mark for each byte of the wanted
one. -/
def HasRoom (wanted stored : Bytes) : Prop := ∃ taken, taken.Sublist stored ∧
  List.Forall₂ TakenFor wanted taken

/-- What prefix matching promises for a wanted string as it is asked for: the comparison stays
within the stored string, and gives zero exactly for a prefix, which for letters alone is a
prefix of the letters. -/
structure MatchesPrefixes (str stored : Bytes) : Prop where
  inBounds : endstrcmp (setwendstr str).2 (setwendstr str).1 stored ≠ none
  zero_iff : endstrcmp (setwendstr str).2 (setwendstr str).1 stored = some 0 ↔
    beginsWith (setwendstr str).1 stored = true
  letters : (∀ c ∈ (setwendstr str).1, isAlpha c = true) →
    (endstrcmp (setwendstr str).2 (setwendstr str).1 stored = some 0 ↔
      (setwendstr str).1.IsPrefix (stored.filter isAlpha))

theorem isDictChar_of_isAlpha {c : Byte} (h : isAlpha c = true) : isDictChar c = true := by
  simp [isDictChar, h]

theorem comptab_of_isAlpha {c : Byte} (h : isAlpha c = true) : comptab c = c := by
  unfold comptab
  rw [if_neg]
  intro hc
  rw [hc] at h
  exact absurd h (by decide)

/-- A byte in the order and one that fits it and counts the same are both read, or neither. -/
theorem isDictChar_of_fits {c h : Byte} (hfits : TakenFor c h) (hc : isDictChar c = true) :
    isDictChar h = true := by
  rcases hfits with halpha | rfl
  · exact isDictChar_of_isAlpha halpha
  · exact hc

theorem isDictChar_of_alike {c h : Byte} (hfits : TakenFor c h) (halike : comptab c = comptab h) :
    isDictChar c = isDictChar h := by
  rcases hfits with halpha | rfl
  · rw [comptab_of_isAlpha halpha] at halike
    unfold comptab at halike
    split at halike
    · rename_i hc
      rw [hc, ← halike]
      rfl
    · rw [halike]
  · rfl

/-- The loop ends within the stored string exactly when there is room, and copies bytes that
fit. -/
theorem copyPrefix_fits {wanted stored tmp : Bytes} (h : copyPrefix wanted stored = some tmp) :
    tmp.Sublist stored ∧ List.Forall₂ TakenFor wanted tmp := by
  induction wanted, stored using copyPrefix.induct generalizing tmp with
  | case1 stored =>
    rw [copyPrefix, Option.some.injEq] at h
    rw [← h]
    exact ⟨List.nil_sublist _, .nil⟩
  | case2 c wanted => simp [copyPrefix] at h
  | case3 c wanted x stored hskip ih =>
    rw [copyPrefix, if_pos hskip] at h
    obtain ⟨hsub, hfits⟩ := ih h
    exact ⟨hsub.cons x, hfits⟩
  | case4 c wanted x stored htake ih =>
    rw [copyPrefix, if_neg htake] at h
    obtain ⟨rest, hrest, hx⟩ := Option.map_eq_some_iff.mp h
    obtain ⟨hsub, hfits⟩ := ih hrest
    rw [← hx]
    have hfit : TakenFor c x := by
      unfold TakenFor
      by_cases halpha : isAlpha x = true
      · exact .inl halpha
      · right
        simp only [halpha, Bool.not_false, Bool.true_and, bne_iff_ne, ne_eq, not_not] at htake
        simpa using htake.symm
    exact ⟨hsub.cons_cons x, .cons hfit hfits⟩

theorem HasRoom.tail {c x : Byte} {wanted stored : Bytes} (h : HasRoom (c :: wanted) (x :: stored)) :
    HasRoom wanted stored := by
  obtain ⟨taken, hsub, hfits⟩ := h
  cases hfits with
  | cons hfit hrest => exact ⟨_, hsub.tail, hrest⟩

theorem copyPrefix_ne_none_iff (wanted stored : Bytes) :
    copyPrefix wanted stored ≠ none ↔ HasRoom wanted stored := by
  constructor
  · intro h
    obtain ⟨tmp, htmp⟩ := Option.ne_none_iff_exists'.mp h
    exact ⟨tmp, copyPrefix_fits htmp⟩
  · intro h
    induction wanted, stored using copyPrefix.induct with
    | case1 stored => simp [copyPrefix]
    | case2 c wanted =>
      obtain ⟨taken, hsub, hfits⟩ := h
      rw [List.sublist_nil.mp hsub] at hfits
      cases hfits
    | case3 c wanted x stored hskip ih =>
      rw [copyPrefix, if_pos hskip]
      apply ih
      obtain ⟨taken, hsub, hfits⟩ := h
      rcases List.sublist_cons_iff.mp hsub with hrest | ⟨taken', rfl, hrest⟩
      · exact ⟨taken, hrest, hfits⟩
      · exfalso
        cases hfits with
        | cons hfit _ =>
          rcases hfit with halpha | rfl
          · simp [halpha] at hskip
          · simp at hskip
    | case4 c wanted x stored htake ih =>
      rw [copyPrefix, if_neg htake]
      simpa using ih h.tail

theorem dictLength_le {wanted tmp : Bytes} (h : List.Forall₂ TakenFor wanted tmp) :
    (wanted.filter isDictChar).length ≤ (tmp.filter isDictChar).length := by
  induction h with
  | nil => exact Nat.le_refl _
  | cons hfit hrest ih =>
    rename_i c x wanted tmp
    by_cases hc : isDictChar c = true
    · rw [List.filter_cons_of_pos hc, List.filter_cons_of_pos (isDictChar_of_fits hfit hc)]
      exact Nat.succ_le_succ ih
    · rw [List.filter_cons_of_neg hc]
      exact ih.trans ((List.sublist_cons_self x tmp).filter isDictChar).length_le

/-- The copy has the same dictionary letters as the wanted string exactly when the two are
alike byte for byte. -/
theorem rank_copy_eq_iff {wanted tmp : Bytes} (h : List.Forall₂ TakenFor wanted tmp) :
    rank comptab (wanted.filter isDictChar) = rank comptab (tmp.filter isDictChar) ↔
      List.Forall₂ (fun c x => comptab c = comptab x) wanted tmp := by
  induction h with
  | nil => simp
  | cons hfit hrest ih =>
    rename_i c x wanted tmp
    rw [List.forall₂_cons]
    constructor
    · intro heq
      by_cases hc : isDictChar c = true
      · rw [List.filter_cons_of_pos hc, List.filter_cons_of_pos (isDictChar_of_fits hfit hc)] at heq
        simp only [rank, List.map_cons, List.cons.injEq] at heq
        exact ⟨UInt8.toNat_inj.mp heq.1, ih.mp heq.2⟩
      · rw [List.filter_cons_of_neg hc] at heq
        have hx : ¬ isDictChar x = true := by
          intro hx
          rw [List.filter_cons_of_pos hx] at heq
          have hlength := congrArg List.length heq
          rw [rank_length, rank_length, List.length_cons] at hlength
          have hle := dictLength_le hrest
          omega
        rw [List.filter_cons_of_neg hx] at heq
        rcases hfit with halpha | rfl
        · exact absurd (isDictChar_of_isAlpha halpha) hx
        · exact ⟨rfl, ih.mp heq⟩
    · rintro ⟨halike, htail⟩
      have hboth := isDictChar_of_alike hfit halike
      have heq := ih.mpr htail
      by_cases hc : isDictChar c = true
      · rw [List.filter_cons_of_pos hc, List.filter_cons_of_pos (hboth ▸ hc)]
        simp only [rank, List.map_cons, List.cons.injEq]
        exact ⟨congrArg _ halike, heq⟩
      · rw [List.filter_cons_of_neg hc, List.filter_cons_of_neg (hboth ▸ hc)]
        exact heq

theorem dictstrcmp_eq_zero {s t : Bytes} (hs : NulFree s) (ht : NulFree t) :
    dictstrcmp s t = 0 ↔
      rank comptab (s.filter isDictChar) = rank comptab (t.filter isDictChar) :=
  strcmpBy_eq_zero blankBelow_comptab.separatesNul (hs.sublist List.filter_sublist)
    (ht.sublist List.filter_sublist)

theorem dictstrcmp_lt {s t : Bytes} (hs : NulFree s) (ht : NulFree t) :
    dictstrcmp s t < 0 ↔
      rank comptab (s.filter isDictChar) < rank comptab (t.filter isDictChar) :=
  strcmpBy_lt blankBelow_comptab.separatesNul (hs.sublist List.filter_sublist)
    (ht.sublist List.filter_sublist)

/-- The copy is alike exactly when the stored string begins with the wanted one. -/
theorem copyPrefix_alike {wanted stored tmp : Bytes} (h : copyPrefix wanted stored = some tmp) :
    List.Forall₂ (fun c x => comptab c = comptab x) wanted tmp ↔
      beginsWith wanted stored = true := by
  induction wanted, stored using copyPrefix.induct generalizing tmp with
  | case1 stored =>
    rw [copyPrefix, Option.some.injEq] at h
    rw [← h]
    simp [beginsWith]
  | case2 c wanted => simp [copyPrefix] at h
  | case3 c wanted x stored hskip ih =>
    rw [copyPrefix, if_pos hskip] at h
    rw [beginsWith, if_pos hskip]
    exact ih h
  | case4 c wanted x stored htake ih =>
    rw [copyPrefix, if_neg htake] at h
    obtain ⟨rest, hrest, hx⟩ := Option.map_eq_some_iff.mp h
    rw [beginsWith, if_neg htake, ← hx, List.forall₂_cons, ih hrest, Bool.and_eq_true, beq_iff_eq]

theorem endstrcmp_eq_zero {wanted stored : Bytes} (hw : NulFree wanted) (hs : NulFree stored)
    (hroom : HasRoom wanted stored) :
    endstrcmp true wanted stored = some 0 ↔ beginsWith wanted stored = true := by
  obtain ⟨tmp, htmp⟩ := Option.ne_none_iff_exists'.mp
    ((copyPrefix_ne_none_iff wanted stored).mpr hroom)
  obtain ⟨hsub, hfits⟩ := copyPrefix_fits htmp
  rw [endstrcmp, if_pos rfl, htmp, Option.map_some, Option.some.injEq,
    dictstrcmp_eq_zero hw (hs.sublist hsub), rank_copy_eq_iff hfits, copyPrefix_alike htmp]

/-- Letters alone are a prefix of the letters. -/
theorem beginsWith_letters {wanted stored : Bytes} (hletters : ∀ c ∈ wanted, isAlpha c = true) :
    beginsWith wanted stored = true ↔ wanted.IsPrefix (stored.filter isAlpha) := by
  induction wanted, stored using beginsWith.induct with
  | case1 stored => simp [beginsWith]
  | case2 c wanted => simp [beginsWith]
  | case3 c wanted x stored hskip ih =>
    have hx : ¬ isAlpha x = true := by
      intro hx
      simp [hx] at hskip
    rw [beginsWith, if_pos hskip, List.filter_cons_of_neg hx]
    exact ih hletters
  | case4 c wanted x stored htake ih =>
    have hc : isAlpha c = true := hletters c List.mem_cons_self
    have hx : isAlpha x = true := by
      by_contra hx
      apply htake
      rw [Bool.and_eq_true, bne_iff_ne]
      refine ⟨by simpa using hx, ?_⟩
      intro hcx
      exact hx (hcx ▸ hc)
    rw [beginsWith, if_neg htake, List.filter_cons_of_pos hx, List.cons_prefix_cons,
      Bool.and_eq_true, beq_iff_eq, comptab_of_isAlpha hc, comptab_of_isAlpha hx,
      ih fun d hd => hletters d (List.mem_cons_of_mem _ hd)]

theorem setwendstr_nulFree {str : Bytes} (h : NulFree str) : NulFree (setwendstr str).1 := by
  have hsub : (setwendstr str).1.Sublist str := by
    unfold setwendstr stripacc
    dsimp only
    split_ifs
    · exact List.filter_sublist.trans ((List.dropLast_sublist _).trans (List.dropLast_sublist _))
    · exact List.filter_sublist.trans (List.dropLast_sublist _)
    · exact List.filter_sublist.trans (List.dropLast_sublist _)
    · exact List.filter_sublist
  exact h.sublist hsub

/-- Prefix matching keeps its promises exactly when the stored ending has room for the wanted
string. -/
theorem endstrcmp_matches_iff (wanted stored : Ending)
    (hbegins : (setwendstr wanted.gstr.gkstring).2 = true) :
    MatchesPrefixes wanted.gstr.gkstring stored.gstr.gkstring ↔
      HasRoom (setwendstr wanted.gstr.gkstring).1 stored.gstr.gkstring := by
  have hw := setwendstr_nulFree wanted.nulFree
  constructor
  · intro h
    rw [← copyPrefix_ne_none_iff]
    intro hnone
    apply h.inBounds
    rw [endstrcmp, if_pos hbegins, hnone, Option.map_none]
  · intro hroom
    have hzero := endstrcmp_eq_zero hw stored.nulFree hroom
    have hmode : endstrcmp (setwendstr wanted.gstr.gkstring).2
        (setwendstr wanted.gstr.gkstring).1 stored.gstr.gkstring =
          endstrcmp true (setwendstr wanted.gstr.gkstring).1 stored.gstr.gkstring := by
      rw [hbegins]
    rw [← hmode] at hzero
    constructor
    · rw [endstrcmp, if_pos hbegins, ne_eq, Option.map_eq_none_iff]
      exact (copyPrefix_ne_none_iff _ stored.gstr.gkstring).mpr hroom
    · exact hzero
    · intro hletters
      rw [hzero, beginsWith_letters hletters]

/-- An ending without flags. -/
def plainEnding (text : String) (hlength : (ascii text).length < maxWordSize)
    (hfree : NulFree (ascii text)) : Ending where
  gstr := { GkString.zero with gkstring := ascii text }
  length_lt := hlength
  nulFree := hfree

theorem endstrcmp_matches_os :
    MatchesPrefixes (ascii "o-") (ascii "o/s") ↔
      HasRoom (setwendstr (ascii "o-")).1 (ascii "o/s") :=
  endstrcmp_matches_iff (plainEnding "o-" (by decide) (by decide))
    (plainEnding "o/s" (by decide) (by decide)) (by decide)

/-- The stored ending has fewer letters than the wanted one. -/
theorem endstrcmp_overrun :
    ¬ ∀ wanted stored : Ending, (setwendstr wanted.gstr.gkstring).2 = true →
      MatchesPrefixes wanted.gstr.gkstring stored.gstr.gkstring := by
  intro h
  have hmatches := h (plainEnding "os-" (by decide) (by decide))
    (plainEnding "o" (by decide) (by decide)) (by decide)
  exact hmatches.inBounds (by decide)

end Morpheus
