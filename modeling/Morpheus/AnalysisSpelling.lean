import Morpheus.FormMatching
import Morpheus.NominalSearch

/-!
# What an analysis says of its word

An analysis that `checkdict` adds for an entry has the lemma and the stem of the entry and an ending
of the table of its stem type, and the word is spelled as the stem and the ending are, behind the
augment that the analysis records. So every analysis of the nominal search explains its word by a
stem record and a way to split the word.
-/
namespace Morpheus

section Storing
variable {env : WordEnv} {chckcmpvb : Bytes → Bytes} {gkform : GkWord} {store : AnalysisStore}
  {offer : Offer} {P : GkAnalysis → Prop}

/-- What an analysis takes over from the form that it is filled from. -/
structure FilledFrom (chckcmpvb : Bytes → Bytes) (gkform : GkWord) (a : GkAnalysis) : Prop where
  stLemma : analysisLemma chckcmpvb gkform = some a.stLemma
  preverb : a.preverb = gkform.preverb
  aug1 : a.aug1 = gkform.aug1
  stem : a.stem = gkform.stem
  endstring : a.endstring = gkform.endstring
  stemtype : a.stemtype = gkform.stemtype

/-- The parts of an analysis that are not written again behind `copyForm`. -/
def copiedParts (a : GkAnalysis) : Bytes × GkString × GkString × GkString × GkString :=
  (a.stLemma, a.preverb, a.aug1, a.stem, a.endstring)

theorem adjustApocope_copied (a : GkAnalysis) :
    copiedParts (adjustApocope env gkform a) = copiedParts a := by
  unfold adjustApocope
  split_ifs <;> rfl

theorem finishAnalysis_copied {a done : GkAnalysis}
    (h : finishAnalysis env gkform a = (done, true)) :
    copiedParts done = copiedParts a ∧ done.stemtype = gkform.stemtype := by
  have hunaugmented : ∀ a, copiedParts (adjustUnaugmented a) = copiedParts a := by
    intro a
    unfold adjustUnaugmented
    split_ifs <;> rfl
  unfold finishAnalysis at h
  split at h
  · cases h
  · dsimp only at h
    generalize hcuranal : (if unaspirated gkform = true then
      { a with dialect := andDialect a.dialect ionic } else a) = curanal at h
    have hsame : copiedParts curanal = copiedParts a := by
      rw [← hcuranal]
      split <;> rfl
    split at h
    · split at h
      · cases h
      · obtain ⟨rfl, -⟩ := Prod.mk.inj h
        exact ⟨(hunaugmented curanal).trans hsame, rfl⟩
    · obtain ⟨rfl, -⟩ := Prod.mk.inj h
      exact ⟨hsame, rfl⟩

theorem fillAnalysis_filled {curanal a : GkAnalysis}
    (h : fillAnalysis env chckcmpvb gkform curanal = (a, true)) :
    FilledFrom chckcmpvb gkform a := by
  unfold fillAnalysis at h
  dsimp only at h
  split at h
  · cases h
  · next stLemma hlemma =>
    obtain ⟨hcopied, hstemtype⟩ := finishAnalysis_copied h
    rw [adjustApocope_copied] at hcopied
    obtain ⟨hstLemma, hpreverb, haug1, hstem, hendstring⟩ :
        a.stLemma = stLemma ∧ a.preverb = gkform.preverb ∧ a.aug1 = gkform.aug1 ∧
          a.stem = gkform.stem ∧ a.endstring = gkform.endstring := by
      simpa only [copiedParts, copyForm, Prod.mk.injEq] using hcopied
    exact ⟨hstLemma ▸ hlemma, hpreverb, haug1, hstem, hendstring, hstemtype⟩

/-- What does not look at dialects and holds of an analysis filled from a candidate holds of all
stored analyses afterwards. -/
theorem addAnalysis_all (hdialect : ∀ a dialect, P a → P { a with dialect })
    (hoffer : ∀ a, FilledFrom offer.chckcmpvb offer.gkform a → P a)
    (h : ∀ a ∈ store.stored, P a) : ∀ a ∈ (addAnalysis env store offer).1.stored, P a := by
  have hroom : ∀ a ∈ (store.reserve offer).1.stored, P a := by rwa [store.reserve_stored offer]
  unfold addAnalysis
  dsimp only
  split_ifs
  · exact h
  · exact h
  · exact hroom
  · unfold storeCandidate
    dsimp only
    generalize (store.reserve offer).1.nextSlot = slot
    cases hfill : fillAnalysis env offer.chckcmpvb offer.gkform slot with
    | mk a ok =>
      cases ok with
      | false => exact hroom
      | true =>
        rw [Bool.not_true, if_neg Bool.false_ne_true]
        split
        · next merged hmerged =>
          obtain ⟨front, old, back, hsplit, -, -, rfl⟩ := mergeInto_split hmerged
          rw [hsplit, List.forall_mem_append, List.forall_mem_cons] at hroom
          rw [List.forall_mem_append, List.forall_mem_cons]
          exact ⟨hroom.1, hdialect _ _ hroom.2.1, hroom.2.2⟩
        · rw [List.forall_mem_append, List.forall_mem_singleton]
          exact ⟨hroom, hoffer a (fillAnalysis_filled hfill)⟩

theorem checkGenWords_all {generator : FormGenerator} {gkword : GkWord} {gkforms : List GkWord}
    (hdialect : ∀ a dialect, P a → P { a with dialect })
    (hoffers : ∀ offer ∈ generator.matching gkword gkforms,
      ∀ a, FilledFrom offer.chckcmpvb offer.gkform a → P a)
    (h : ∀ a ∈ store.stored, P a) :
    ∀ a ∈ (generator.checkGenWords gkword gkforms store).2.stored, P a := by
  unfold FormGenerator.checkGenWords
  generalize generator.matching gkword gkforms = offers at hoffers
  generalize 0 = hits
  induction offers generalizing store hits with
  | nil => exact h
  | cons offer offers ih =>
    rw [List.forall_mem_cons] at hoffers
    exact ih (addAnalysis_all hdialect hoffers.1 h) hoffers.2 _

end Storing

/-- An analysis of a word from an entry. It has the lemma of the entry, behind the preverb if there is
one and as the index of compound verbs spells it, the stem of the entry and an ending of the table of
its stem type. The letters of the word are those that stem and ending give, and for a verb those that
the augment makes of them; the joint of a verb with a preverb has rules of its own. -/
structure Explains (dictionary : StemDictionary) (entryLemma stem word : Bytes)
    (a : GkAnalysis) : Prop where
  stLemma_eq : a.preverb.gkstring = [] → a.stLemma = xstrncpy entryLemma maxWordSize
  compound : a.preverb.gkstring ≠ [] →
    compoundLookup dictionary.chckcmpvb [] (a.preverb.gkstring ++ ascii "-" ++ entryLemma) =
      some a.stLemma
  stem_eq : a.stem.gkstring = stem
  ending : dictionary.TableEnding a.stemtype a.endstring.gkstring
  augmented : a.preverb.gkstring = [] → ∃ letters, StemLetters a.stemtype stem a.endstring letters ∧
    Augments a.aug1.gkstring letters (spelling word)
  joined : a.stemtype &&& ppartMask = 0 → StemLetters a.stemtype stem a.endstring (spelling word)

/-- Every ending of the tables can be joined to the stem. -/
structure FormTables.TakesAll (tables : FormTables) (stem : Bytes) : Prop where
  nulFree : NulFree stem
  ending : ∀ stemtype text, tables.TableEnding stemtype text → NulFree text
  fits : ∀ stemtype text, tables.TableEnding stemtype text → EndingFits stem text

section Entries
variable {aug1 s t : Bytes}

theorem spelling_nulFree (h : NulFree s) : (0 : Byte) ∉ spelling s := nulFree_iff_spelling.mp h

theorem Augments.nulFree (h : Augments aug1 s t) (hs : (0 : Byte) ∉ s) : (0 : Byte) ∉ t := by
  cases h with
  | unchanged => exact hs
  | row row rest hrow _ =>
    have hwithaug : ∀ row ∈ tempAugments ++ syllAugments, (0 : Byte) ∉ spelling row.withaug :=
      List.forall_iff_forall_mem.mp (by decide +kernel)
    rw [List.mem_append, not_or] at hs ⊢
    exact ⟨hwithaug row hrow, hs.2⟩
  | syllabic _ _ =>
    rw [List.mem_cons, not_or]
    exact ⟨by decide, hs⟩
  | doubled c s _ =>
    rw [List.mem_cons, not_or] at hs
    simp only [List.mem_cons, not_or]
    exact ⟨by decide, hs.1, hs.1, hs.2⟩

variable {dictionary : StemDictionary} {gkword tmp form : GkWord} {store : AnalysisStore}
  {entryLemma stem text preverb keyp stemkeys : Bytes}

theorem analysisLemma_plain {chckcmpvb : Bytes → Bytes} {a : GkAnalysis}
    (h : FilledFrom chckcmpvb form a) (hnone : a.preverb.gkstring = []) :
    a.stLemma = xstrncpy form.stLemma maxWordSize := by
  have hlemma := h.stLemma
  rw [h.preverb] at hnone
  rw [analysisLemma, if_neg (not_not.mpr hnone)] at hlemma
  exact (Option.some.inj hlemma).symm

theorem analysisLemma_compound {chckcmpvb : Bytes → Bytes} {a : GkAnalysis}
    (h : FilledFrom chckcmpvb form a) (hsome : a.preverb.gkstring ≠ []) :
    compoundLookup chckcmpvb [] (a.preverb.gkstring ++ ascii "-" ++ form.stLemma) = some a.stLemma := by
  have hlemma := h.stLemma
  rw [h.preverb] at hsome ⊢
  rw [analysisLemma, if_pos hsome] at hlemma
  dsimp only at hlemma
  split at hlemma
  · cases hlemma
  · obtain ⟨compound, hfound, hfits⟩ := Option.bind_eq_some_iff.mp hlemma
    split at hfits
    · cases hfits
    · obtain rfl := Option.some.inj hfits
      exact hfound

theorem StemLetters.nulFree {stemtype : UInt32} {ending : GkString} {letters : Bytes}
    (h : StemLetters stemtype stem ending letters) (hstem : (0 : Byte) ∉ spelling stem)
    (hending : (0 : Byte) ∉ spelling ending.gkstring) : (0 : Byte) ∉ letters := by
  rcases h with rfl | ⟨-, rfl⟩
  · rw [List.mem_append, not_or]
    exact ⟨hstem, hending⟩
  · exact hstem

/-- A form of an entry that is taken for the word gives an analysis that explains it. -/
theorem BuiltForm.explains {a : GkAnalysis}
    (hbuilt : BuiltForm tmp text form) (hlemma : tmp.stLemma = entryLemma)
    (hstem : tmp.stem.gkstring = stem)
    (hending : dictionary.TableEnding tmp.stemtype text) (hall : dictionary.TakesAll stem)
    (hnonempty : form.workword ≠ [])
    (hmatch : matchesForm dictionary.ignoreAccents preverb gkword form = true)
    (hword : gkword.workword.length ≤ maxWordSize) (hnul : NulFree gkword.workword)
    (hfilled : FilledFrom dictionary.chckcmpvb form a) :
    Explains dictionary entryLemma stem gkword.workword a := by
  have hstems : (0 : Byte) ∉ spelling stem := spelling_nulFree hall.nulFree
  have hends : (0 : Byte) ∉ spelling form.endstring.gkstring := by
    rw [hbuilt.endstring_eq]
    exact spelling_nulFree (hall.ending _ _ hending)
  have hstemtype : a.stemtype = tmp.stemtype := by rw [hfilled.stemtype, hbuilt.stemtype]
  have hpreverb : a.preverb.gkstring = tmp.preverb.gkstring := by
    rw [hfilled.preverb, hbuilt.preverb]
  have hformLemma : form.stLemma = entryLemma := by rw [hbuilt.stLemma, hlemma]
  refine ⟨fun hnone => ?_, fun hsome => ?_, ?_, ?_, ?_, ?_⟩
  · rw [analysisLemma_plain hfilled hnone, hformLemma]
  · rw [← analysisLemma_compound hfilled hsome, hformLemma]
  · rw [hfilled.stem, hbuilt.stem, hstem]
  · rw [hstemtype, hfilled.endstring, hbuilt.endstring_eq]
    exact hending
  · intro hnone
    rw [hpreverb] at hnone
    obtain ⟨letters, hletters, haugments, hfits⟩ := hbuilt.spells hnone hnonempty
    rw [hstem] at hletters
    have hform := nulFree_iff_spelling.mpr (haugments.nulFree (hletters.nulFree hstems hends))
    rw [hstemtype, hfilled.endstring, hfilled.aug1,
      ← matchesForm_spelling hmatch hword hfits.length_le hnul hform]
    exact ⟨letters, hletters, haugments⟩
  · intro hnoun
    rw [hstemtype] at hnoun ⊢
    obtain ⟨hletters, hlen⟩ := hbuilt.nominal hnoun hnonempty
    rw [hstem] at hletters
    have hform := nulFree_iff_spelling.mpr (hletters.nulFree hstems hends)
    rwa [hfilled.endstring, ← matchesForm_spelling hmatch hword hlen.le hnul hform]

theorem colon_not_mem_subchar (s : Bytes) : (58 : Byte) ∉ subchar s 58 32 := by
  rw [subchar, List.mem_map]
  rintro ⟨c, -, hc⟩
  split at hc
  · exact absurd hc (by decide)
  · next hne => exact hne hc

/-- The keys that the generator gets have blanks for colons. -/
theorem checkdict_no_colon {memory prevb : Bytes}
    (h : checkdict memory prevb stemkeys = some keyp) :
    (58 : Byte) ∉ keyp := by
  have happended : ∀ keys : Option Bytes,
      keys.map (subchar · 58 32) = some keyp → (58 : Byte) ∉ keyp := by
    intro keys hkeys
    obtain ⟨keys, -, rfl⟩ := Option.map_eq_some_iff.mp hkeys
    exact colon_not_mem_subchar keys
  unfold checkdict at h
  dsimp only at h
  split_ifs at h
  · rw [← Option.some.inj h]
    exact colon_not_mem_subchar _
  · split at h
    · exact happended _ h
    · split_ifs at h <;> exact happended _ h

/-- The forms are those of the word that is handed back. -/
theorem FormGenerator.forms_generated {generator : FormGenerator} {after : GkWord}
    {gkforms : List GkWord} (h : generator.forms gkword keyp = some (after, gkforms)) :
    generator.genStemForms after keyp = some gkforms := by
  unfold FormGenerator.forms at h
  split at h
  · next hgen =>
    cases h
    exact hgen
  · split_ifs at h
    obtain ⟨forms, hgen, heq⟩ := Option.map_eq_some_iff.mp h
    cases heq
    exact hgen

/-- The analyses that are added for the forms of a word explain it. -/
theorem checkGenWords_explains {P : GkAnalysis → Prop} {gkforms : List GkWord}
    (hgen : dictionary.generator.genStemForms gkword keyp = some gkforms)
    (hcolon : (58 : Byte) ∉ keyp) (hword : gkword.workword.length ≤ maxWordSize)
    (hnul : NulFree gkword.workword)
    (hall : dictionary.TakesAll gkword.stem.gkstring)
    (hdialect : ∀ a dialect, P a → P { a with dialect })
    (hexplained : ∀ a,
      Explains dictionary gkword.stLemma gkword.stem.gkstring gkword.workword a → P a)
    (h : ∀ a ∈ store.stored, P a) :
    ∀ a ∈ (dictionary.generator.checkGenWords gkword gkforms store).2.stored, P a := by
  obtain ⟨⟨found, failed⟩, hfound, rfl⟩ := Option.bind_eq_some_iff.mp hgen
  obtain ⟨tmp, hlemma, hstem, hbuilt⟩ := genStemForms_built hcolon hall.fits hfound
  refine checkGenWords_all hdialect ?_ h
  intro offer hoffer a hfilled
  obtain ⟨form, hform, rfl⟩ := List.mem_map.mp hoffer
  obtain ⟨hform, hmatch⟩ := List.mem_filter.mp hform
  have hnonempty : form.workword ≠ [] := by
    simpa using List.mem_takeWhile_imp hform
  obtain ⟨text, hending, hbuiltForm⟩ := hbuilt form (List.takeWhile_subset _ hform)
  apply hexplained
  exact hbuiltForm.explains hlemma hstem hending hall hnonempty hmatch hword hnul hfilled

/-- The analyses that `checkdict` adds for an entry explain the word. -/
theorem checkdict_explains {P : GkAnalysis → Prop} {possstem : GkString}
    (hword : gkword.workword.length ≤ maxWordSize) (hnul : NulFree gkword.workword)
    (hall : dictionary.TakesAll (getLemmStem (xstrncpy stemkeys longString)).2.1)
    (hdialect : ∀ a dialect, P a → P { a with dialect })
    (hexplained : ∀ a, Explains dictionary (getLemmStem (xstrncpy stemkeys longString)).1
      (getLemmStem (xstrncpy stemkeys longString)).2.1 gkword.workword a → P a)
    (h : ∀ a ∈ store.stored, P a) :
    ∀ a ∈ (dictionary.generator.checkdict gkword store possstem stemkeys).store.stored, P a := by
  unfold FormGenerator.checkdict
  dsimp only
  split_ifs
  · exact h
  split
  · exact h
  · next keyp hkeyp =>
    split
    · exact h
    · next after gkforms hforms =>
      have hgen := FormGenerator.forms_generated hforms
      obtain ⟨ending, rfl⟩ := FormGenerator.forms_same hforms
      exact checkGenWords_explains hgen (checkdict_no_colon hkeyp) hword hnul hall hdialect
        hexplained h

end Entries

/-- The stem of an entry, or the one that was looked up when the entry has none of its own. -/
def StemVars.ownStem (vars : StemVars) (stem : Bytes) : Bytes :=
  if vars.cstem ≠ [] then vars.cstem else stem

/-- The stem records and the endings of the tables go together: every entry has a lemma, and every
stem leaves room for every ending. -/
structure NominalTables.Joinable (nominal : NominalTables) (tables : FormTables) : Prop where
  has_lemma : ∀ r ∈ nominal.stems, (setstemvars r.text).clemma ≠ []
  nulFree : ∀ stemtype text, tables.TableEnding stemtype text → NulFree text
  star : ∀ stemtype text, tables.TableEnding stemtype text → text.headD 0 = 42 → text = [42]
  tag_fits : ∀ r ∈ nominal.stems, ∀ stemtype text, tables.TableEnding stemtype text →
    r.tag.length + text.length + 1 < maxWordSize
  stem_fits : ∀ r ∈ nominal.stems, ∀ stemtype text, tables.TableEnding stemtype text →
    (setstemvars r.text).cstem.length + text.length + 1 < maxWordSize

section Searching
variable {nominal : NominalTables} {indexes : NominalIndexes} {dictionary : StemDictionary}
  {gkword : GkWord} {store : AnalysisStore} {stem ending key : Bytes}

theorem StemEntry.getLemmStem_kept (entry : StemEntry) (hlemma : entry.vars.clemma ≠ [])
    (hstem : 58 ∉ stem) :
    (getLemmStem (entry.kept stem)).1 = entry.vars.clemma ∧
      (getLemmStem (entry.kept stem)).2.1 = entry.vars.ownStem stem := by
  have hfield : ∀ {field : Bytes}, field.all isFieldByte = true → 58 ∉ field := by
    intro field hall hmem
    exact (isFieldByte_iff.mp (List.all_eq_true.mp hall 58 hmem)).1 rfl
  have hcut : ∀ {field rest : Bytes}, 58 ∉ field →
      (field ++ 58 :: rest).takeWhile (· ≠ 58) = field ∧
        ((field ++ 58 :: rest).dropWhile (· ≠ 58)).tail = rest := by
    intro field rest hcolon
    have hall : ∀ c ∈ field, decide (c ≠ 58) = true := by
      intro c hc
      rw [decide_eq_true_iff]
      rintro rfl
      exact hcolon hc
    constructor
    · rw [List.takeWhile_append_of_pos hall, List.takeWhile_cons_of_neg (by simp), List.append_nil]
    · rw [List.dropWhile_append_of_pos hall, List.dropWhile_cons_of_neg (by simp), List.tail_cons]
  have hown : 58 ∉ entry.vars.ownStem stem := by
    unfold StemVars.ownStem
    split_ifs
    · exact hfield entry.stem_bytes
    · exact hstem
  have hhead : (entry.kept stem).head? ≠ some 58 := by
    obtain ⟨c, rest, hc⟩ := List.exists_cons_of_ne_nil hlemma
    rw [kept, hc]
    intro heq
    obtain rfl := Option.some.inj heq
    exact hfield entry.lemma_bytes (hc ▸ List.mem_cons_self)
  unfold getLemmStem
  rw [if_neg hhead]
  dsimp only
  unfold kept
  rw [(hcut (hfield entry.lemma_bytes)).1, (hcut (hfield entry.lemma_bytes)).2]
  exact ⟨rfl, (hcut hown).1⟩

/-- What is offered for a stem and an ending is an entry of a record of the stem, as it is kept. -/
theorem NominalTables.offered_entry (hending : NoBlanks ending)
    (h : key ∈ nominal.offered stem ending) :
    key.length < longString ∧ ∃ r ∈ nominal.stems, ∃ entry : StemEntry, r.text = entry.text ∧
      rank comptab r.tag = rank comptab stem ∧ nominal.Joins ending entry.text ∧
        key = entry.kept stem := by
  unfold offered at h
  split_ifs at h with hfit
  · obtain ⟨entries, hentries⟩ := nominal.exists_entries stem
    constructor
    · by_cases hnil : key = []
      · rw [hnil]
        decide
      · refine lt_of_le_of_lt ?_ hfit
        obtain ⟨front, back, hsplit⟩ := List.append_of_mem h
        rw [joinKeys_length, hsplit]
        simp only [List.map_append, List.map_cons, List.sum_append, List.sum_cons]
        omega
    · rw [commonKeys_eq hending hentries] at h
      obtain ⟨entry, hentry, rfl⟩ := List.mem_map.mp h
      obtain ⟨hmem, hjoins⟩ := List.mem_filter.mp hentry
      have htext : entry.text ∈ mergedKeys comptab stem nominal.stems := by
        rw [hentries]
        exact List.mem_map_of_mem hmem
      obtain ⟨r, hr, hrank, hsame⟩ := mem_mergedKeys.mp htext
      exact ⟨r, hr, entry, hsame, hrank, (joins_iff hending entry).mpr hjoins, rfl⟩
  · cases h

/-- An analysis that was stored before, but for its dialect, or that one of the offers explains, if its
stem takes the endings of the tables. -/
def AccountedFor (dictionary : StemDictionary) (word : Bytes) (before : AnalysisStore)
    (offers : List EntryOffer) (a : GkAnalysis) : Prop :=
  (∃ old ∈ before.stored, ∃ dialect, a = { old with dialect }) ∨
    ∃ offer ∈ offers, dictionary.TakesAll (getLemmStem (xstrncpy offer.keys longString)).2.1 →
      Explains dictionary (getLemmStem (xstrncpy offer.keys longString)).1
        (getLemmStem (xstrncpy offer.keys longString)).2.1 word a

theorem Explains.withDialect {entryLemma stem word : Bytes} {a : GkAnalysis}
    (h : Explains dictionary entryLemma stem word a) (dialect : UInt16) :
    Explains dictionary entryLemma stem word { a with dialect } :=
  ⟨h.stLemma_eq, h.compound, h.stem_eq, h.ending, h.augmented, h.joined⟩

theorem AccountedFor.withDialect {word : Bytes} {before : AnalysisStore} {offers : List EntryOffer}
    {a : GkAnalysis} (h : AccountedFor dictionary word before offers a) (dialect : UInt16) :
    AccountedFor dictionary word before offers { a with dialect } := by
  rcases h with ⟨old, hold, _, rfl⟩ | ⟨offer, hoffer, hexplains⟩
  · exact .inl ⟨old, hold, dialect, rfl⟩
  · exact .inr ⟨offer, hoffer, fun htakes => (hexplains htakes).withDialect dialect⟩

theorem check_workword (generator : FormGenerator) (gkword : GkWord) (store : AnalysisStore)
    (stem : GkString) (stemkeys : Bytes) :
    (generator.check gkword store stem stemkeys).1.workword = gkword.workword := by
  unfold FormGenerator.check FormGenerator.checkdict
  dsimp only
  split_ifs
  · rfl
  · split
    · rfl
    · split
      · rfl
      · next hforms =>
        obtain ⟨ending, rfl⟩ := FormGenerator.forms_same hforms
        rfl

/-- Every analysis behind the search was there before it or is explained by an offer. -/
theorem checkregnom_accounted (hword : gkword.workword.length ≤ maxWordSize)
    (hnul : NulFree gkword.workword) :
    ∀ a ∈ (checkregnom dictionary.generator.check indexes gkword store).2.1.stored,
      AccountedFor dictionary gkword.workword store
        (wordOffers indexes (xstrncpy gkword.workword maxWordSize)) a := by
  have hlogged := checkregnom_logged dictionary.generator.check_keepsEnding indexes gkword store []
  have hstart : gkword.workword = gkword.workword ∧
      ∀ a ∈ store.stored, AccountedFor dictionary gkword.workword store [] a :=
    ⟨rfl, fun a ha => .inl ⟨a, ha, a.dialect, rfl⟩⟩
  have hrun := @checkregnom_keeps _ dictionary.generator.check.logged (fun word state =>
    word.workword = gkword.workword ∧
      ∀ a ∈ state.1.stored, AccountedFor dictionary gkword.workword store state.2 a)
    (fun _ _ _ _ => id) ?_ indexes gkword (store, []) hstart
  · rw [hlogged, withOffers, List.nil_append] at hrun
    exact hrun.2
  · intro word state stem stemkeys hP
    obtain ⟨hsame, hall⟩ := hP
    refine ⟨(check_workword ..).trans hsame, ?_⟩
    have hold : ∀ a ∈ state.1.stored, AccountedFor dictionary gkword.workword store
        (state.2 ++ [⟨word.endstring.gkstring, stem.gkstring, stemkeys⟩]) a := by
      intro a ha
      refine (hall a ha).imp_right ?_
      rintro ⟨offer, hoffer, hexplains⟩
      exact ⟨offer, List.mem_append_left _ hoffer, hexplains⟩
    have hnew : ∀ a, (dictionary.TakesAll (getLemmStem (xstrncpy stemkeys longString)).2.1 →
        Explains dictionary (getLemmStem (xstrncpy stemkeys longString)).1
          (getLemmStem (xstrncpy stemkeys longString)).2.1 gkword.workword a) →
        AccountedFor dictionary gkword.workword store
          (state.2 ++ [⟨word.endstring.gkstring, stem.gkstring, stemkeys⟩]) a :=
      fun a hexplains => .inr ⟨_, List.mem_append_right _ (List.mem_singleton_self _), hexplains⟩
    by_cases htakes : dictionary.TakesAll (getLemmStem (xstrncpy stemkeys longString)).2.1
    · refine checkdict_explains (hsame ▸ hword) (hsame ▸ hnul) htakes
        (fun a dialect ha => ha.withDialect dialect) ?_ hold
      intro a hexplains
      rw [hsame] at hexplains
      exact hnew a fun _ => hexplains
    · -- what the offer adds is accounted for by an offer whose stem does not take the endings
      exact fun a _ => hnew a fun h => absurd h htakes

theorem NominalTables.Joinable.takesAll (h : nominal.Joinable dictionary.toFormTables)
    (hnul : NulFree stem) (hfits : ∀ stemtype text, dictionary.TableEnding stemtype text →
      stem.length + text.length + 1 < maxWordSize) : dictionary.TakesAll stem :=
  ⟨hnul, h.nulFree, fun stemtype text hending =>
    ⟨h.star stemtype text hending, hfits stemtype text hending⟩⟩

/-- Every analysis behind the nominal search was there before it, but for its dialect, or explains the
word by a stem record and a way to split the word: the stem of the split is that of the record, the
ending of the split can follow it, and the analysis has the lemma and the stem of the entry, an ending
of the table of its stem type, and the letters of the word. -/
theorem checkregnom_explains (h : nominal.Indexes indexes)
    (hjoin : nominal.Joinable dictionary.toFormTables) (hword : NoBlanks gkword.workword)
    (hcolon : 58 ∉ gkword.workword)
    (hlen : gkword.workword.length + 1 < maxWordSize) :
    ∀ a ∈ (checkregnom dictionary.generator.check indexes gkword store).2.1.stored,
      (∃ old ∈ store.stored, ∃ dialect, a = { old with dialect }) ∨
      ∃ split ∈ wordSplits gkword.workword, ∃ r ∈ nominal.stems,
        rank comptab r.tag = rank comptab (bareStem split.1) ∧
          nominal.Joins (stripquant (stripacc split.2)) r.text ∧
            Explains dictionary (setstemvars r.text).clemma
              ((setstemvars r.text).ownStem (bareStem split.1)) gkword.workword a := by
  intro a ha
  have hoffers := wordOffers_nominal h hword hlen
  refine (checkregnom_accounted (by omega) hword.nulFree a ha).imp_right ?_
  rintro ⟨offer, hoffer, hexplains⟩
  rw [xstrncpy_of_lt (by omega), hoffers] at hoffer
  obtain ⟨split, hsplit, hoffer⟩ := List.mem_flatMap.mp hoffer
  obtain ⟨key, hkey, rfl⟩ := List.mem_map.mp hoffer
  have hparts : split.1.Sublist gkword.workword ∧ NoBlanks split.2 := by
    rcases List.mem_cons.mp hsplit with rfl | hsplit
    · exact ⟨List.Sublist.refl _, noBlanks_zeroEnd⟩
    · obtain ⟨i, -, rfl⟩ := List.mem_map.mp hsplit
      exact ⟨List.take_sublist _ _, fun c hc => hword c (List.mem_of_mem_drop hc)⟩
  have hending : NoBlanks (stripquant (stripacc split.2)) := fun c hc =>
    hparts.2.stripacc c (List.mem_of_mem_filter (List.mem_of_mem_filter hc))
  have hbare : (bareStem split.1).Sublist gkword.workword :=
    List.filter_sublist.trans (List.filter_sublist.trans (List.filter_sublist.trans
      (List.filter_sublist.trans hparts.1)))
  obtain ⟨hfit, r, hr, entry, htext, hrank, hjoins, rfl⟩ := NominalTables.offered_entry hending hkey
  have hvars : setstemvars r.text = entry.vars := by rw [htext, entry.setstemvars_text]
  obtain ⟨hlemma, hstem⟩ := entry.getLemmStem_kept (hvars ▸ hjoin.has_lemma r hr)
    fun hmem => hcolon (hbare.subset hmem)
  dsimp only at hexplains
  rw [xstrncpy_of_lt hfit, hlemma, hstem, ← hvars] at hexplains
  rw [← htext] at hjoins
  refine ⟨split, hsplit, r, hr, hrank, hjoins, hexplains (hjoin.takesAll ?_ ?_)⟩
  · rw [hvars]
    unfold StemVars.ownStem
    split_ifs
    · have hnul := (nominal.stems_ok r hr).2.1
      rw [htext] at hnul
      exact (nulFree_append.mp hnul).1
    · exact hword.nulFree.sublist hbare
  · intro stemtype text hending
    unfold StemVars.ownStem
    split_ifs
    · exact hjoin.stem_fits r hr stemtype text hending
    · have hsame := congrArg List.length hrank
      rw [rank, rank, List.length_map, List.length_map] at hsame
      rw [← hsame]
      exact hjoin.tag_fits r hr stemtype text hending

end Searching

def osEnding : GkString :=
  { GkString.zero with
    forminfo := { WordForm.zero with gender := 1, case_ := 1, number := 1 }
    gkstring := ascii "os" }

/-- A library with one table, of the nominative of `os_ou`. -/
def osLib : Stemlib where
  path := some (ascii "stemlib")
  nameOfStemtype _ stemtype := if stemtype = 0o10201 then ascii "os_ou" else []
  fopen name :=
    if name = ascii "stemlib/Greek/endtables/out/os_ou.out" then
      writeTable 4 [⟨osEnding, ascii "os" ++ List.replicate 58 0, by decide, by decide⟩]
    else none

def osKeys : KeyTables where
  stemtypes := [(ascii "os_ou", 0o10201)]
  derivtypes := []
  domains := []
  isKey row hrow := by
    rw [List.append_nil, List.append_nil, List.mem_singleton] at hrow
    rw [hrow]
    exact ⟨⟨by decide, by decide +kernel⟩, by decide⟩

/-- The dictionary of the word *lo/gos*. -/
def logosDictionary : StemDictionary where
  language := 0
  preverbs := []
  depth := 0
  keys := osKeys
  lib := osLib
  memory := []
  chckcmpvb _ := []
  ignoreAccents := false

theorem osLib_ending {stemtype : UInt32} {text : Bytes}
    (h : logosDictionary.TableEnding stemtype text) : text = ascii "os" := by
  obtain ⟨endList, lno, hlist, ending, hmem, rfl⟩ := h
  by_cases htype : stemtype = 0o10201
  · have hall : (readEndList osLib 0 0o10201).map (fun p => (p.1.take p.2).map (·.gkstring)) =
        some [ascii "os"] := by decide +kernel
    rw [htype] at hlist
    have hsame : (endList.take lno).map (·.gkstring) = [ascii "os"] := by
      rw [show readEndList osLib 0 0o10201 = some (endList, lno) from hlist] at hall
      exact Option.some.inj hall
    exact List.mem_singleton.mp (hsame ▸ List.mem_map_of_mem hmem)
  · have hname : osLib.nameOfStemtype 0 stemtype = [] := if_neg htype
    have hnone : readEndList osLib 0 stemtype = none := by
      rw [readEndList, loadEndList, endTableName, if_pos hname]
      rfl
    rw [show readEndList osLib 0 stemtype = some (endList, lno) from hlist] at hnone
    cases hnone

theorem logos_joinable : logosTables.Joinable logosDictionary.toFormTables where
  has_lemma := List.forall_iff_forall_mem.mp (by decide +kernel)
  nulFree _ _ h := by
    rw [osLib_ending h]
    decide
  star _ _ h := by
    rw [osLib_ending h]
    decide
  tag_fits r hr _ _ h := by
    rw [List.mem_singleton.mp hr, osLib_ending h]
    decide
  stem_fits r hr _ _ h := by
    rw [List.mem_singleton.mp hr, osLib_ending h]
    decide +kernel

/-- A store with an analysis of an earlier lookup. -/
def earlierStore : AnalysisStore :=
  ⟨[{ GkAnalysis.zero with stLemma := ascii "le/gw" }], List.replicate 3 .zero, 0, 1, 1⟩

/-- The search finds the lemma of *lo/gos* and keeps what was there before. -/
theorem checkregnom_explains_logos :
    (checkregnom logosDictionary.generator.check logosIndexes logosWord earlierStore).2.1.stored.map
        (·.stLemma) = [ascii "le/gw", ascii "lo/gos"] ∧
      ∀ a ∈ (checkregnom logosDictionary.generator.check logosIndexes logosWord
          earlierStore).2.1.stored,
        (∃ old ∈ earlierStore.stored, ∃ dialect, a = { old with dialect }) ∨
        ∃ split ∈ wordSplits logosWord.workword, ∃ r ∈ logosTables.stems,
          rank comptab r.tag = rank comptab (bareStem split.1) ∧
            logosTables.Joins (stripquant (stripacc split.2)) r.text ∧
              Explains logosDictionary (setstemvars r.text).clemma
                ((setstemvars r.text).ownStem (bareStem split.1)) logosWord.workword a :=
  ⟨by decide +kernel, checkregnom_explains logos_indexes logos_joinable noBlanks_logos (by decide)
    (by decide)⟩

end Morpheus
