import Morpheus.DerivationSearch
import Morpheus.StoredPreverb

/-!
# Stem types common to stems and endings

`comstemtypes` of `checkstem.c` keeps the dictionary keys of a stem whose stem type is among
those of an ending. It asks for the stem type by a substring search in the list of the ending.
-/
namespace Morpheus

/-- The fields `setstemvars` takes from an entry. -/
structure StemVars where
  cstem : Bytes
  clemma : Bytes
  cstemtype : Bytes
  cstemkeys : Bytes

/-- `setstemvars` -/
def setstemvars (s : Bytes) : StemVars :=
  let cstem := parsefield s 58 maxWordSize
  let clemma := parsefield cstem.2 58 maxWordSize
  let cstemtype := parsefield clemma.2 58 maxWordSize
  ⟨cstem.1, clemma.1, cstemtype.1, (parsefield cstemtype.2 32 longString).1⟩

/-- `wantcurstemtype` -/
def wantcurstemtype (curst stlist : Bytes) : Bool := (isSubstring curst stlist).isSome

/-- The texts appended for an entry, in their order. -/
def keptTexts (tmp stem : Bytes) (vars : StemVars) : List Bytes :=
  (if tmp ≠ [] then [[32]] else []) ++
    [vars.clemma, [58], if vars.cstem ≠ [] then vars.cstem else stem, [58], vars.cstemtype, [58]] ++
    if vars.cstemkeys ≠ [] then [vars.cstemkeys] else []

/-- Appending texts to a buffer of `LONGSTRING` bytes, `none` when one does not fit. -/
def appendTexts (tmp : Bytes) : List Bytes → Option Bytes
  | [] => some tmp
  | text :: texts => (appendText tmp longString text).bind fun tmp => appendTexts tmp texts

/-- The entry behind a place in the list. -/
def nextEntry (s : Bytes) : Bytes := (s.dropWhile fun c => !isSpace c).dropWhile isSpace

theorem nextEntry_length {s : Bytes} (h : s ≠ []) : (nextEntry s).length < s.length := by
  unfold nextEntry
  obtain ⟨c, s, rfl⟩ := List.exists_cons_of_ne_nil h
  have hword := (List.dropWhile_suffix (l := s) fun c => !isSpace c).length_le
  have hgap := (List.dropWhile_suffix (l := s) isSpace).length_le
  have hrest := (List.dropWhile_suffix (l := s.dropWhile fun c => !isSpace c) isSpace).length_le
  by_cases hc : isSpace c = true
  · simp only [List.dropWhile_cons, hc, Bool.not_true, Bool.false_eq_true, ↓reduceIte,
      List.length_cons]
    omega
  · simp only [List.dropWhile_cons, hc, Bool.not_false, ↓reduceIte, List.length_cons]
    omega

/-- The loop of `comstemtypes`, `none` when a text does not fit. -/
def comstemtypesLoop (stem endkeys tmp s : Bytes) : Option Bytes :=
  if _h : s = [] then some tmp
  else
    let vars := setstemvars s
    (if wantcurstemtype vars.cstemtype endkeys then appendTexts tmp (keptTexts tmp stem vars)
      else some tmp).bind fun tmp => comstemtypesLoop stem endkeys tmp (nextEntry s)
  termination_by s.length
  decreasing_by exact nextEntry_length _h

/-- `comstemtypes`: the keys afterwards and the return value. -/
def comstemtypes (stem stemkeys endkeys : Bytes) : Bytes × Bool :=
  match comstemtypesLoop stem endkeys [] stemkeys with
  | none => (stemkeys, false)
  | some tmp => (xstrncpy tmp longString, xstrncpy tmp longString != [])

/-- A byte of a field. -/
def isFieldByte (c : Byte) : Bool := c != 58 && !isSpace c

/-- An entry `stem:lemma:type:keys` whose fields fit into their buffers. -/
structure StemEntry where
  vars : StemVars
  stem_bytes : vars.cstem.all isFieldByte = true
  lemma_bytes : vars.clemma.all isFieldByte = true
  type_bytes : vars.cstemtype.all isFieldByte = true
  keys_bytes : (vars.cstemkeys.all fun c => !isSpace c) = true
  stem_length : vars.cstem.length < maxWordSize
  lemma_length : vars.clemma.length < maxWordSize
  type_length : vars.cstemtype.length < maxWordSize
  keys_length : vars.cstemkeys.length < longString

/-- The entry as it stands in the list. -/
def StemEntry.text (entry : StemEntry) : Bytes :=
  entry.vars.cstem ++ 58 :: (entry.vars.clemma ++ 58 :: (entry.vars.cstemtype ++
    58 :: entry.vars.cstemkeys))

/-- The entry as it is kept: the lemma, the stem or the one looked up, the type, the keys. -/
def StemEntry.kept (stem : Bytes) (entry : StemEntry) : Bytes :=
  entry.vars.clemma ++ 58 :: ((if entry.vars.cstem ≠ [] then entry.vars.cstem else stem) ++
    58 :: (entry.vars.cstemtype ++ 58 :: entry.vars.cstemkeys))

/-- The entries whose stem type is one of the words of the ending list. -/
def commonEntries (entries : List StemEntry) (endkeys : Bytes) : List StemEntry :=
  entries.filter fun entry => entry.vars.cstemtype ∈ keyWords endkeys

theorem isFieldByte_iff {c : Byte} : isFieldByte c = true ↔ c ≠ 58 ∧ isSpace c = false := by
  simp [isFieldByte]

theorem colon_not_space : isSpace 58 = false := by decide

theorem parsefield_of_field {field rest : Bytes} {len : ℕ} (hfield : field.all isFieldByte = true)
    (hlength : field.length < len) : parsefield (field ++ 58 :: rest) 58 len = (field, rest) := by
  have htake : (field ++ 58 :: rest).takeWhile (fun d => d ≠ 58 && !isSpace d) = field := by
    rw [List.takeWhile_append_of_pos, List.takeWhile_cons_of_neg (by simp), List.append_nil]
    intro d hd
    obtain ⟨hcolon, hspace⟩ := isFieldByte_iff.mp (List.all_eq_true.mp hfield d hd)
    simp [hcolon, hspace]
  unfold parsefield
  rw [htake]
  dsimp only
  rw [if_neg (by omega), List.drop_left]
  simp [colon_not_space]

/-- The last field goes up to white space or the end. -/
theorem parsefield_last {field rest : Bytes} {len : ℕ}
    (hfield : (field.all fun d => !isSpace d) = true)
    (hrest : ∀ d, rest.head? = some d → isSpace d = true)
    (hlength : field.length < len) : (parsefield (field ++ rest) 32 len).1 = field := by
  have htake : (field ++ rest).takeWhile (fun d => d ≠ 32 && !isSpace d) = field := by
    rw [List.takeWhile_append_of_pos]
    · cases rest with
      | nil => simp
      | cons d rest => simp [hrest d rfl]
    · intro d hd
      have hspace : isSpace d = false := by simpa using List.all_eq_true.mp hfield d hd
      have hne : d ≠ 32 := by
        intro h32
        rw [h32] at hspace
        exact absurd hspace (by decide)
      simp [hne, hspace]
  unfold parsefield
  rw [htake]
  dsimp only
  rw [if_neg (by omega)]
  split <;> rfl

theorem StemEntry.setstemvars (entry : StemEntry) {rest : Bytes}
    (hrest : ∀ d, rest.head? = some d → isSpace d = true) :
    Morpheus.setstemvars (entry.text ++ rest) = entry.vars := by
  unfold Morpheus.setstemvars text
  simp only [List.append_assoc, List.cons_append]
  rw [parsefield_of_field entry.stem_bytes entry.stem_length,
    parsefield_of_field entry.lemma_bytes entry.lemma_length,
    parsefield_of_field entry.type_bytes entry.type_length,
    parsefield_last entry.keys_bytes hrest entry.keys_length]

theorem setstemvars_space {c : Byte} {s : Bytes} (hc : isSpace c = true) :
    setstemvars (c :: s) = ⟨[], [], [], []⟩ := by
  have hfirst : parsefield (c :: s) 58 maxWordSize = ([], []) := by
    simp [parsefield, hc]
  have hnil : parsefield [] 58 maxWordSize = ([], []) := by simp [parsefield]
  have hlast : parsefield [] 32 longString = ([], []) := by simp [parsefield]
  unfold setstemvars
  rw [hfirst]
  dsimp only
  rw [hnil]
  dsimp only
  rw [hnil, hlast]

/-- Texts that fit together are appended. -/
theorem appendTexts_eq (tmp : Bytes) (htmp : tmp.length < longString) (texts : List Bytes) :
    appendTexts tmp texts =
      if (tmp ++ texts.flatten).length < longString then some (tmp ++ texts.flatten) else none := by
  induction texts generalizing tmp with
  | nil => simp [appendTexts, htmp]
  | cons text texts ih =>
    rw [appendTexts, appendText]
    by_cases hfit : text.length < longString - tmp.length
    · rw [if_neg (by omega), Option.bind_some,
        ih (tmp ++ text) (by rw [List.length_append]; omega)]
      simp
    · rw [if_pos (by omega), Option.bind_none, if_neg]
      simp only [List.flatten_cons, List.length_append]
      omega

theorem StemEntry.kept_ne_nil (stem : Bytes) (entry : StemEntry) : entry.kept stem ≠ [] := by
  simp [kept]

theorem keptTexts_flatten (tmp stem : Bytes) (entry : StemEntry) :
    tmp ++ (keptTexts tmp stem entry.vars).flatten = appended tmp (entry.kept stem) := by
  unfold keptTexts appended StemEntry.kept
  by_cases htmp : tmp = [] <;> by_cases hkeys : entry.vars.cstemkeys = [] <;>
    simp [htmp, hkeys]

theorem wantcurstemtype_nil (stlist : Bytes) : wantcurstemtype [] stlist = false := by
  unfold wantcurstemtype
  induction stlist with
  | nil => rfl
  | cons c stlist ih =>
    rw [isSubstring, if_neg (fun h => h.1 rfl)]
    simpa using ih

theorem keyWords_skip (s : Bytes) : keyWords (s.dropWhile isSpace) = keyWords s := by
  have hskip : (s.dropWhile isSpace).dropWhile isSpace = s.dropWhile isSpace := by
    have hhead := List.head?_dropWhile_not isSpace s
    cases hdrop : s.dropWhile isSpace with
    | nil => rfl
    | cons c t =>
      rw [hdrop] at hhead
      exact List.dropWhile_cons_of_neg (by simpa using hhead)
  have hnext : nextkey (s.dropWhile isSpace) = nextkey s ∨
      (nextkey (s.dropWhile isSpace)).1 = [] ∧ (nextkey s).1 = [] := by
    unfold nextkey
    rw [hskip]
    dsimp only
    split
    · exact .inr ⟨rfl, rfl⟩
    · exact .inl rfl
  rcases hnext with hsame | ⟨h1, h2⟩
  · rw [keyWords, hsame, ← keyWords]
  · rw [keyWords, dif_pos h1, keyWords, dif_pos h2]

theorem keyWords_word {s : Bytes} {c : Byte} (hfirst : s.head? = some c)
    (hc : isSpace c = false) :
    keyWords s = (s.takeWhile fun d => !isSpace d) :: keyWords (nextEntry s) := by
  obtain ⟨t, rfl⟩ : ∃ t, s = c :: t := by
    cases s with
    | nil => cases hfirst
    | cons d t => exact ⟨t, by rw [Option.some.inj hfirst]⟩
  have hstart : (c :: t).dropWhile isSpace = c :: t := by simp [hc]
  have hnext : nextkey (c :: t) =
      ((c :: t).takeWhile fun d => !isSpace d, nextEntry (c :: t)) := by
    unfold nextkey nextEntry
    rw [hstart]
    dsimp only
    rw [if_neg (List.cons_ne_nil c t)]
  rw [keyWords, hnext]
  rw [dif_neg]
  simp [hc]

theorem appendTexts_kept {stem : Bytes} {acc : List Bytes} (hacc : ∀ key ∈ acc, key ≠ [])
    (hshort : (joinKeys acc).length < longString) (entry : StemEntry) :
    appendTexts (joinKeys acc) (keptTexts (joinKeys acc) stem entry.vars) =
      if (joinKeys (acc ++ [entry.kept stem])).length < longString then
        some (joinKeys (acc ++ [entry.kept stem]))
      else none := by
  have hone : joinKeys [entry.kept stem] = entry.kept stem := by simp [joinKeys, List.intercalate]
  rw [appendTexts_eq _ hshort, keptTexts_flatten, ← appended_joinKeys hacc (by simp), hone]

/-- The loop keeps the entries whose stem type it finds in the ending list, if they fit. -/
theorem comstemtypesLoop_eq (stem endkeys : Bytes) (n : ℕ) (s : Bytes) (hn : s.length ≤ n)
    (entries : List StemEntry) (hs : keyWords s = entries.map StemEntry.text)
    (acc : List Bytes) (hacc : ∀ key ∈ acc, key ≠ [])
    (hshort : (joinKeys acc).length < longString) :
    comstemtypesLoop stem endkeys (joinKeys acc) s =
      if (joinKeys (acc ++ (entries.filter fun entry =>
          wantcurstemtype entry.vars.cstemtype endkeys).map (StemEntry.kept stem))).length <
            longString then
        some (joinKeys (acc ++ (entries.filter fun entry =>
          wantcurstemtype entry.vars.cstemtype endkeys).map (StemEntry.kept stem)))
      else none := by
  induction n generalizing s entries acc with
  | zero =>
    have hnil : s = [] := List.length_eq_zero_iff.mp (Nat.le_zero.mp hn)
    subst hnil
    have hentries : entries = [] := by
      have hwords : keyWords [] = [] := by rw [keyWords]; rfl
      rw [hwords] at hs
      exact List.map_eq_nil_iff.mp hs.symm
    subst hentries
    rw [comstemtypesLoop, dif_pos rfl]
    simp [hshort]
  | succ n ih =>
    cases s with
    | nil =>
      have hentries : entries = [] := by
        have hwords : keyWords [] = [] := by rw [keyWords]; rfl
        rw [hwords] at hs
        exact List.map_eq_nil_iff.mp hs.symm
      subst hentries
      rw [comstemtypesLoop, dif_pos rfl]
      simp [hshort]
    | cons c t =>
      have hless := nextEntry_length (List.cons_ne_nil c t)
      have hnext : (nextEntry (c :: t)).length ≤ n := by omega
      rw [comstemtypesLoop, dif_neg (List.cons_ne_nil c t)]
      by_cases hc : isSpace c = true
      · have hwords : keyWords (nextEntry (c :: t)) = entries.map StemEntry.text := by
          have hgap : nextEntry (c :: t) = (c :: t).dropWhile isSpace := by
            unfold nextEntry
            rw [List.dropWhile_cons_of_neg (by simp [hc])]
          rw [hgap, keyWords_skip, hs]
        simp only [setstemvars_space hc, wantcurstemtype_nil, Bool.false_eq_true, ↓reduceIte,
          Option.bind_some]
        exact ih _ hnext entries hwords acc hacc hshort
      · rw [keyWords_word rfl (by simpa using hc)] at hs
        obtain ⟨entry, rest, rfl, hentry, hrest⟩ := List.map_eq_cons_iff.mp hs.symm
        have hvars : setstemvars (c :: t) = entry.vars := by
          have hsplit := List.takeWhile_append_dropWhile (p := fun d => !isSpace d) (l := c :: t)
          rw [← hsplit, ← hentry]
          apply entry.setstemvars
          intro d hd
          have hhead := List.head?_dropWhile_not (fun d => !isSpace d) (c :: t)
          rw [hd] at hhead
          simpa using hhead
        rw [hvars]
        dsimp only
        cases hwant : wantcurstemtype entry.vars.cstemtype endkeys with
        | false =>
          rw [if_neg Bool.false_ne_true, Option.bind_some, ih _ hnext rest hrest.symm acc hacc hshort,
            List.filter_cons_of_neg (by simp [hwant])]
        | true =>
          have hfilter : (entry :: rest).filter (fun entry =>
              wantcurstemtype entry.vars.cstemtype endkeys) =
                entry :: rest.filter fun entry =>
                  wantcurstemtype entry.vars.cstemtype endkeys := by
            simp [hwant]
          rw [if_pos rfl, appendTexts_kept hacc hshort, hfilter, List.map_cons]
          have hassoc : acc ++ entry.kept stem :: (rest.filter fun entry =>
              wantcurstemtype entry.vars.cstemtype endkeys).map (StemEntry.kept stem) =
                (acc ++ [entry.kept stem]) ++ (rest.filter fun entry =>
                  wantcurstemtype entry.vars.cstemtype endkeys).map (StemEntry.kept stem) := by
            simp
          rw [hassoc]
          by_cases hfit : (joinKeys (acc ++ [entry.kept stem])).length < longString
          · rw [if_pos hfit, Option.bind_some]
            apply ih _ hnext rest hrest.symm _ _ hfit
            intro key hkey
            rcases List.mem_append.mp hkey with hkey | hkey
            · exact hacc key hkey
            · rw [List.mem_singleton.mp hkey]
              exact entry.kept_ne_nil stem
          · rw [if_neg hfit, Option.bind_none, if_neg]
            intro hall
            exact hfit ((joinKeys_length_append _ _).trans_lt hall)

/-- `comstemtypes` does what it is for: it keeps the common entries, and says whether there
are any. -/
def KeepsCommon (stem stemkeys endkeys : Bytes) (entries : List StemEntry) : Prop :=
  comstemtypes stem stemkeys endkeys =
    (joinKeys ((commonEntries entries endkeys).map (StemEntry.kept stem)),
      !(commonEntries entries endkeys).isEmpty)

/-- A stem type that occurs in the ending list is one of its words. -/
def OccursAsWord (entries : List StemEntry) (endkeys : Bytes) : Prop :=
  ∀ entry ∈ entries, entry.vars.cstemtype ≠ [] → entry.vars.cstemtype <:+: endkeys →
    entry.vars.cstemtype ∈ keyWords endkeys

theorem wantcurstemtype_iff (curst stlist : Bytes) :
    wantcurstemtype curst stlist = true ↔ curst ≠ [] ∧ curst <:+: stlist := by
  by_cases hnil : curst = []
  · subst hnil
    simp [wantcurstemtype_nil]
  · unfold wantcurstemtype
    cases hfound : isSubstring curst stlist with
    | none =>
      have hnot := isSubstring_none hnil hfound
      simp only [Option.isSome_none, Bool.false_eq_true, false_iff, not_and]
      intro _ ⟨u, v, huv⟩
      exact hnot u v (by rw [← huv, List.append_assoc])
    | some found =>
      obtain ⟨before, text⟩ := found
      obtain ⟨hsplit, ⟨rest, hrest⟩, _⟩ := isSubstring_some hnil hfound
      simp only [Option.isSome_some, true_iff]
      exact ⟨hnil, before, rest, by rw [hsplit, ← hrest, List.append_assoc]⟩

/-- A word of a list is not empty and stands in it. -/
theorem keyWords_within (n : ℕ) (s : Bytes) (hn : s.length ≤ n) {word : Bytes}
    (h : word ∈ keyWords s) : word ≠ [] ∧ word <:+: s := by
  induction n generalizing s with
  | zero =>
    rw [List.length_eq_zero_iff.mp (Nat.le_zero.mp hn), keyWords] at h
    cases h
  | succ n ih =>
    by_cases hnil : (nextkey s).1 = []
    · rw [keyWords, dif_pos hnil] at h
      cases h
    · have hless := nextkey_length hnil
      rw [keyWords, dif_neg hnil] at h
      have hsplit : ∃ u, s = u ++ (nextkey s).1 ++ (s.dropWhile isSpace).dropWhile (fun c => !isSpace c) ∧
          (nextkey s).2 <:+: s := by
        unfold nextkey at hnil ⊢
        by_cases hstart : s.dropWhile isSpace = []
        · simp [hstart] at hnil
        · dsimp only
          rw [if_neg hstart]
          refine ⟨s.takeWhile isSpace, ?_, ?_⟩
          · rw [List.append_assoc, List.takeWhile_append_dropWhile,
              List.takeWhile_append_dropWhile]
          · exact ((List.dropWhile_suffix _).trans ((List.dropWhile_suffix _).trans
              (List.dropWhile_suffix _))).isInfix
      obtain ⟨u, hu, hrest⟩ := hsplit
      rcases List.mem_cons.mp h with rfl | hmem
      · exact ⟨hnil, u, _, hu.symm⟩
      · obtain ⟨hne, hin⟩ := ih _ (by omega) hmem
        exact ⟨hne, hin.trans hrest⟩

theorem joinKeys_length (keys : List Bytes) :
    (joinKeys keys).length = (keys.map fun key => key.length + 1).sum - 1 := by
  induction keys using List.reverseRecOn with
  | nil => simp [joinKeys, List.intercalate]
  | append_singleton keys key ih =>
    by_cases hnil : keys = []
    · simp [hnil, joinKeys, List.intercalate]
    · obtain ⟨first, rest, rfl⟩ := List.exists_cons_of_ne_nil hnil
      rw [joinKeys_append hnil, List.length_append, ih]
      simp only [List.map_append, List.map_cons, List.map_nil, List.sum_append, List.sum_cons,
        List.sum_nil, List.length_cons]
      omega

/-- A word that `nextkey` can take from a list. -/
def IsKeyWord (word : Bytes) : Prop := word ≠ [] ∧ ∀ c ∈ word, isSpace c = false

theorem keyWords_cons {word : Bytes} (h : IsKeyWord word) (rest : Bytes)
    (hrest : rest = [] ∨ rest.head? = some 32) : keyWords (word ++ rest) = word :: keyWords rest := by
  obtain ⟨hne, hword⟩ := h
  obtain ⟨c, t, rfl⟩ := List.exists_cons_of_ne_nil hne
  have hc : isSpace c = false := hword c List.mem_cons_self
  have hstop : (rest.takeWhile fun d => !isSpace d) = [] ∧
      (rest.dropWhile fun d => !isSpace d) = rest := by
    rcases hrest with rfl | hblank
    · exact ⟨rfl, rfl⟩
    · cases rest with
      | nil => cases hblank
      | cons d rest =>
        cases Option.some.inj hblank
        exact ⟨List.takeWhile_cons_of_neg (by decide), List.dropWhile_cons_of_neg (by decide)⟩
  have hall : ∀ d ∈ c :: t, (!isSpace d) = true := fun d hd => by simp [hword d hd]
  rw [keyWords_word (c := c) rfl hc, List.takeWhile_append_of_pos hall, hstop.1, List.append_nil]
  unfold nextEntry
  rw [List.dropWhile_append_of_pos hall, hstop.2, keyWords_skip]

theorem keyWords_blank (rest : Bytes) : keyWords (32 :: rest) = keyWords rest := by
  have hblank : (32 :: rest).dropWhile isSpace = rest.dropWhile isSpace :=
    List.dropWhile_cons_of_pos (by decide)
  rw [← keyWords_skip (32 :: rest), hblank, keyWords_skip]

/-- The words of a list that was written with blanks between them. -/
theorem keyWords_joinKeys {words : List Bytes} (h : ∀ word ∈ words, IsKeyWord word) :
    keyWords (joinKeys words) = words := by
  induction words with
  | nil =>
    have hnil : joinKeys [] = [] := rfl
    rw [hnil, keyWords]
    rfl
  | cons word words ih =>
    have hword := h word List.mem_cons_self
    have hwords := ih fun w hw => h w (List.mem_cons_of_mem _ hw)
    by_cases hnil : words = []
    · subst hnil
      have hone := keyWords_cons hword [] (.inl rfl)
      rw [List.append_nil] at hone
      have hjoin : joinKeys [word] = word := by simp [joinKeys, List.intercalate]
      rw [hjoin, hone, ← hwords]
      rfl
    · have hjoin := joinKeys_append_of_ne_nil (List.cons_ne_nil word []) hnil
      have hone : joinKeys [word] = word := by simp [joinKeys, List.intercalate]
      rw [List.singleton_append, hone] at hjoin
      rw [hjoin, keyWords_cons hword _ (.inr rfl), keyWords_blank, hwords]

/-- The words of a list are words, and the list has room for them with blanks between. -/
theorem keyWords_spec (n : ℕ) (s : Bytes) (hn : s.length ≤ n) :
    (∀ word ∈ keyWords s, IsKeyWord word) ∧
      ((keyWords s).map fun word => word.length + 1).sum ≤ s.length + 1 := by
  induction n generalizing s with
  | zero =>
    rw [List.length_eq_zero_iff.mp (Nat.le_zero.mp hn), keyWords]
    exact ⟨fun word h => (List.not_mem_nil h).elim, Nat.zero_le _⟩
  | succ n ih =>
    rw [← keyWords_skip s]
    have hlength := (List.dropWhile_suffix (l := s) isSpace).length_le
    cases hdrop : s.dropWhile isSpace with
    | nil =>
      rw [keyWords]
      exact ⟨fun word h => (List.not_mem_nil h).elim, Nat.zero_le _⟩
    | cons c t =>
      have hc : isSpace c = false := by
        have hhead := List.head?_dropWhile_not isSpace s
        rw [hdrop] at hhead
        simpa using hhead
      have hnext := nextEntry_length (List.cons_ne_nil c t)
      rw [hdrop] at hlength
      rw [keyWords_word (c := c) rfl hc]
      obtain ⟨hwords, hsum⟩ := ih (nextEntry (c :: t)) (by omega)
      have hsplit : ((c :: t).takeWhile fun d => !isSpace d).length +
          ((c :: t).dropWhile fun d => !isSpace d).length = (c :: t).length := by
        rw [← List.length_append, List.takeWhile_append_dropWhile]
      refine ⟨fun word hword => ?_, ?_⟩
      · rcases List.mem_cons.mp hword with rfl | hword
        · refine ⟨by simp [hc], fun d hd => ?_⟩
          have hd := List.mem_takeWhile_imp hd
          simpa using hd
        · exact hwords word hword
      · rw [List.map_cons, List.sum_cons]
        have hgap : nextEntry (c :: t) = [] ∨
            (nextEntry (c :: t)).length <
              ((c :: t).dropWhile fun d => !isSpace d).length := by
          unfold nextEntry
          cases hrest : (c :: t).dropWhile (fun d => !isSpace d) with
          | nil => exact .inl rfl
          | cons d u =>
            right
            have hd : isSpace d = true := by
              have hhead := List.head?_dropWhile_not (fun d => !isSpace d) (c :: t)
              rw [hrest] at hhead
              simpa using hhead
            rw [List.dropWhile_cons_of_pos hd]
            exact Nat.lt_succ_of_le (List.dropWhile_suffix _).length_le
        rcases hgap with hnil | hless
        · rw [hnil, keyWords]
          simp only [nextkey, List.dropWhile_nil, if_pos, dite_true, List.map_nil, List.sum_nil]
          omega
        · omega

theorem sum_filter_le {α : Type*} (p : α → Bool) (f : α → ℕ) (l : List α) :
    ((l.filter p).map f).sum ≤ (l.map f).sum := by
  induction l with
  | nil => exact Nat.le_refl _
  | cons b l ih =>
    by_cases hb : p b = true
    · rw [List.filter_cons_of_pos hb]
      simp only [List.map_cons, List.sum_cons]
      omega
    · rw [List.filter_cons_of_neg hb, List.map_cons, List.sum_cons]
      omega

theorem sum_filter_add_le {α : Type*} (p : α → Bool) (f : α → ℕ) {l : List α} {a : α}
    (ha : a ∈ l) (hp : p a = false) : ((l.filter p).map f).sum + f a ≤ (l.map f).sum := by
  induction l with
  | nil => cases ha
  | cons b l ih =>
    rcases List.mem_cons.mp ha with rfl | ha
    · have hsub := sum_filter_le p f l
      rw [List.filter_cons_of_neg (by simp [hp]), List.map_cons, List.sum_cons]
      omega
    · have hle := ih ha
      by_cases hb : p b = true
      · rw [List.filter_cons_of_pos hb]
        simp only [List.map_cons, List.sum_cons]
        omega
      · rw [List.filter_cons_of_neg hb, List.map_cons, List.sum_cons]
        omega

/-- The common entries are among those that the search finds. -/
theorem commonEntries_eq_filter (entries : List StemEntry) (endkeys : Bytes) :
    commonEntries entries endkeys =
      (entries.filter fun entry => wantcurstemtype entry.vars.cstemtype endkeys).filter
        fun entry => entry.vars.cstemtype ∈ keyWords endkeys := by
  unfold commonEntries
  rw [List.filter_filter]
  apply List.filter_congr
  intro entry _
  by_cases hword : entry.vars.cstemtype ∈ keyWords endkeys
  · have hwant := (wantcurstemtype_iff _ _).mpr (keyWords_within _ endkeys le_rfl hword)
    simp [hword, hwant]
  · simp [hword]

theorem comstemtypes_found {stem stemkeys endkeys : Bytes} {entries : List StemEntry}
    (hentries : keyWords stemkeys = entries.map StemEntry.text) :
    comstemtypes stem stemkeys endkeys =
      if (joinKeys ((entries.filter fun entry =>
          wantcurstemtype entry.vars.cstemtype endkeys).map (StemEntry.kept stem))).length <
            longString then
        (joinKeys ((entries.filter fun entry =>
          wantcurstemtype entry.vars.cstemtype endkeys).map (StemEntry.kept stem)),
          !(entries.filter fun entry =>
            wantcurstemtype entry.vars.cstemtype endkeys).isEmpty)
      else (stemkeys, false) := by
  have hloop := comstemtypesLoop_eq stem endkeys stemkeys.length stemkeys le_rfl entries hentries
    [] (by simp) (by decide)
  rw [List.nil_append] at hloop
  have hempty : joinKeys [] = [] := by simp [joinKeys, List.intercalate]
  rw [hempty] at hloop
  unfold comstemtypes
  rw [hloop]
  by_cases hfit : (joinKeys ((entries.filter fun entry =>
      wantcurstemtype entry.vars.cstemtype endkeys).map (StemEntry.kept stem))).length < longString
  · rw [if_pos hfit, if_pos hfit]
    dsimp only
    rw [xstrncpy_of_lt hfit]
    congr 1
    cases hfound : entries.filter fun entry => wantcurstemtype entry.vars.cstemtype endkeys with
    | nil => simp [hempty]
    | cons entry rest =>
      have hne : joinKeys ((entry :: rest).map (StemEntry.kept stem)) ≠ [] := by
        have hkeys : ∀ key ∈ (entry :: rest).map (StemEntry.kept stem), key ≠ [] := by
          intro key hkey
          obtain ⟨e, -, rfl⟩ := List.mem_map.mp hkey
          exact e.kept_ne_nil stem
        intro hnil
        cases joinKeys_eq_nil hkeys hnil
      simpa using hne
  · rw [if_neg hfit, if_neg hfit]

/-- The intersection is right exactly when no stem type occurs in the ending list as a part of
other words. -/
theorem comstemtypes_common_iff (stem stemkeys endkeys : Bytes) (entries : List StemEntry)
    (hentries : keyWords stemkeys = entries.map StemEntry.text)
    (hresult : (joinKeys ((commonEntries entries endkeys).map (StemEntry.kept stem))).length <
      longString) :
    KeepsCommon stem stemkeys endkeys entries ↔ OccursAsWord entries endkeys := by
  unfold KeepsCommon
  rw [comstemtypes_found hentries]
  constructor
  · intro heq entry hmem hne hin
    by_contra hword
    have hfound : entry ∈ entries.filter fun entry =>
        wantcurstemtype entry.vars.cstemtype endkeys := by
      rw [List.mem_filter]
      exact ⟨hmem, (wantcurstemtype_iff _ _).mpr ⟨hne, hin⟩⟩
    split at heq
    · -- the entry makes the result longer than it should be
      have hlength := congrArg List.length (Prod.mk.inj heq).1
      have hsum := sum_filter_add_le (fun entry => decide (entry.vars.cstemtype ∈ keyWords endkeys))
        (fun entry => (entry.kept stem).length + 1) hfound (by simp [hword])
      rw [← commonEntries_eq_filter] at hsum
      rw [joinKeys_length, joinKeys_length, List.map_map, List.map_map] at hlength
      have hpos : 0 < (entry.kept stem).length :=
        List.length_pos_iff.mpr (entry.kept_ne_nil stem)
      simp only [Function.comp_def] at hlength hsum
      omega
    · obtain ⟨htext, hnone⟩ := Prod.mk.inj heq
      have hcommon : commonEntries entries endkeys = [] := by simpa using hnone.symm
      rw [hcommon] at htext
      have hwords : keyWords stemkeys = [] := by
        rw [htext, keyWords]
        rfl
      rw [hwords] at hentries
      rw [List.map_eq_nil_iff.mp hentries.symm] at hmem
      cases hmem
  · intro hoccurs
    have hsame : entries.filter (fun entry => wantcurstemtype entry.vars.cstemtype endkeys) =
        commonEntries entries endkeys := by
      unfold commonEntries
      apply List.filter_congr
      intro entry hmem
      rw [Bool.eq_iff_iff, wantcurstemtype_iff, decide_eq_true_iff]
      constructor
      · intro ⟨hne, hin⟩
        exact hoccurs entry hmem hne hin
      · exact keyWords_within _ endkeys le_rfl
    rw [hsame, if_pos hresult]

def aorEntry : StemEntry :=
  ⟨⟨ascii "lip", ascii "lei/pw", ascii "aor2", []⟩, by decide, by decide, by decide, by decide,
    by decide, by decide, by decide, by decide⟩

def actEntry : StemEntry :=
  ⟨⟨[], ascii "lei/pw", ascii "aor2", ascii "act"⟩, by decide, by decide, by decide, by decide,
    by decide, by decide, by decide, by decide⟩

theorem comstemtypes_common_aor2 :
    KeepsCommon (ascii "lip") (ascii ":lei/pw:aor2:act") (ascii "w_stem aor2") [actEntry] ↔
      OccursAsWord [actEntry] (ascii "w_stem aor2") :=
  comstemtypes_common_iff _ _ _ _ (by decide +kernel) (by decide +kernel)

/-- The stem type `aor2` is found in the ending list, which has only `aor2_pass`. -/
theorem comstemtypes_partOfWord :
    ¬ ∀ (stem stemkeys endkeys : Bytes) (entries : List StemEntry),
      keyWords stemkeys = entries.map StemEntry.text →
        (joinKeys ((commonEntries entries endkeys).map (StemEntry.kept stem))).length <
          longString → KeepsCommon stem stemkeys endkeys entries := by
  intro h
  have hkeeps := h (ascii "lip") (ascii "lip:lei/pw:aor2:") (ascii "aor2_pass") [aorEntry]
    (by decide +kernel) (by decide +kernel)
  have hkept : (comstemtypes (ascii "lip") (ascii "lip:lei/pw:aor2:") (ascii "aor2_pass")).2 =
      true := by decide +kernel
  rw [hkeeps] at hkept
  exact absurd hkept (by decide +kernel)

end Morpheus
