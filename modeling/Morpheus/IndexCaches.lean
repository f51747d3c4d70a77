import Morpheus.EndIndex
import Morpheus.EndingCache

/-!
# Cached indexes and the language of the context

A context keeps the indexes it has loaded: one for each kind of ending index and the
pre-indexes of the dictionaries. The files of an index lie in the directory of the
language that is in force when the file is opened.
-/
namespace Morpheus

/-- What was loaded, and from which file. The file is not kept by the program. -/
structure Loaded (α : Type) where
  path : Bytes
  data : α

/-- `MorphFopen` and a loader of the file's contents. -/
def load {α : Type} (lib : Stemlib) (language : ℤ) (parse : Bytes → Option α)
    (fname : Bytes) : Option (Loaded α) := do
  let path ← morphPathName lib language fname
  let file ← lib.fopen path
  let data ← parse file
  some ⟨path, data⟩

/-- The ending indexes of a context. -/
inductive EndSlot
  | dictionaryEntry | compoundVerb | verbEnding | derivationEnding | nominalEnding | verbStem
  deriving DecidableEq, Repr

/-- `DICTENTLIST`, `CMPVBLIST`, `VENDLIST`, `DERENDLIST`, `NENDLIST` and `VBINDEX`. -/
def EndSlot.filename : EndSlot → Bytes
  | dictionaryEntry => ascii "stemsrc/lemlist"
  | compoundVerb => ascii "stemsrc/vbs.cmp.ml"
  | verbEnding => ascii "endtables/indices/vbendind"
  | derivationEnding => ascii "derivs/indices/derivind"
  | nominalEnding => ascii "endtables/indices/nendind"
  | verbStem => ascii "steminds/vbind"

/-- `STEMLIST`, the index of the one dictionary of HQ mode. -/
def stemlist : Bytes := ascii "hqdict/indices/stindex"

def vbindex (hqMode : Bool) : Bytes := if hqMode then stemlist else ascii "steminds/vbind"

def nomindex (hqMode : Bool) : Bytes := if hqMode then stemlist else ascii "steminds/nomind"

/-- The part of `morpheus_runtime_context` that index lookups use. -/
structure IndexContext where
  language : ℤ
  endIndex : EndSlot → Option (Loaded (List Bytes))
  verbDictionaryTags : Option (Loaded (List EndTag))
  nominalDictionaryTags : Option (Loaded (List EndTag))
  dictionaryTagLanguage : ℤ
  dictionaryTagHqMode : Bool
  dictionaryTagsInitialized : Bool
  dictionaryHqMode : Bool

/-- A new context. -/
def IndexContext.create : IndexContext := ⟨0, fun _ => none, none, none, 0, false, false, false⟩

/-- `load_end_index` -/
def loadEndIndex (lib : Stemlib) (slot : EndSlot) (context : IndexContext) :
    Option (Loaded (List Bytes)) × IndexContext :=
  match context.endIndex slot with
  | some index => (some index, context)
  | none =>
    match load lib context.language initEndind slot.filename with
    | none => (none, context)
    | some index =>
      (some index, { context with endIndex := Function.update context.endIndex slot (some index) })

/-- `dictionary_context` -/
def dictionaryContext (context : IndexContext) : IndexContext :=
  if !context.dictionaryTagsInitialized then
    { context with
      dictionaryTagLanguage := context.language
      dictionaryTagHqMode := context.dictionaryHqMode
      dictionaryTagsInitialized := true }
  else if context.dictionaryTagLanguage ≠ context.language ∨
      context.dictionaryTagHqMode ≠ context.dictionaryHqMode then
    { context with
      verbDictionaryTags := none
      nominalDictionaryTags := none
      dictionaryTagLanguage := context.language
      dictionaryTagHqMode := context.dictionaryHqMode }
  else context

/-- The pre-index of a file. -/
def lindex (fname : Bytes) : Bytes := fname ++ ascii ".lindex"

/-- `init_dict` -/
def initDict (lib : Stemlib) (fname : Bytes) (context : IndexContext) :
    Option (Loaded (List EndTag)) × IndexContext :=
  let context := dictionaryContext context
  let fname := if context.dictionaryHqMode then stemlist else fname
  (load lib context.language initPreind (lindex fname), context)

/-- `if( ! VbTags ) VbTags = init_dict(vbindex,...)` -/
def needVerbTags (lib : Stemlib) (context : IndexContext) : IndexContext :=
  match context.verbDictionaryTags with
  | some _ => context
  | none =>
    let tags := initDict lib (vbindex context.dictionaryHqMode) context
    { tags.2 with verbDictionaryTags := tags.1 }

/-- `if( ! NomTags ) NomTags = init_dict(nomindex,...)` -/
def needNominalTags (lib : Stemlib) (context : IndexContext) : IndexContext :=
  match context.nominalDictionaryTags with
  | some _ => context
  | none =>
    let tags := initDict lib (nomindex context.dictionaryHqMode) context
    { tags.2 with nominalDictionaryTags := tags.1 }

/-- What a lookup gives: the file its index data came from, the value returned and the keys. -/
structure Outcome where
  source : Option Bytes
  rval : ℤ
  keys : Bytes
  deriving DecidableEq, Repr

/-- A lookup in an ending index, if it could be loaded. -/
def endOutcome (slot : EndSlot) (endstr keys : Bytes) :
    Option (Loaded (List Bytes)) → Outcome
  | none => ⟨none, 0, keys⟩
  | some index =>
    let scmp := fun s t n =>
      if slot = .dictionaryEntry ∨ slot = .compoundVerb then strncmpBy id n s t
      else morphstrncmp s t n
    -- nominal endings, dictionary entries and compound verbs are looked up without quantities
    let tag :=
      if slot = .dictionaryEntry ∨ slot = .compoundVerb ∨ slot = .nominalEnding then
        stripquant (xstrncpy endstr (maxWordSize + 1))
      else endstr
    let found := checkendind scmp index.data tag keys
    ⟨some index.path, found.1, found.2⟩

/-- `chcknend`, `chckdictent`, `chckcmpvb`, `chckvend`, `chckvstem` and `chckdvend`. -/
def chckEnd (lib : Stemlib) (slot : EndSlot) (endstr keys : Bytes) (context : IndexContext) :
    Outcome × IndexContext :=
  let index := loadEndIndex lib slot context
  (endOutcome slot endstr keys index.1, index.2)

/-- The search for a stem in the nominal dictionary: its pre-index, then the index file. -/
def nominalOutcome (lib : Stemlib) (language : ℤ) (indfile stemstr : Bytes)
    (tags : Option (Loaded (List EndTag))) : Outcome :=
  let etags := (tags.map Loaded.data).getD []
  let found := do
    let startoff ← chckPreIndex etags stemstr false
    let path ← morphPathName lib language indfile
    let file ← lib.fopen path
    chckFullIndex stemstr file startoff
  ⟨tags.map Loaded.path, if found.isSome then 1 else 0, found.getD []⟩

/-- `chckstem` for nominals. -/
def chckstem (lib : Stemlib) (stemstr : Bytes) (context : IndexContext) :
    Outcome × IndexContext :=
  let context := dictionaryContext context
  let stemstr := stripdiaer (stripquant stemstr)
  let indfile := nomindex context.dictionaryHqMode
  if stemstr = [] then (⟨none, 0, []⟩, context)
  else
    let context := needNominalTags lib (needVerbTags lib context)
    (nominalOutcome lib context.language indfile stemstr context.nominalDictionaryTags, context)

/-- `chckindecl` -/
def chckindecl (lib : Stemlib) (indeclstr : Bytes) (context : IndexContext) :
    Outcome × IndexContext :=
  let context := needNominalTags lib (dictionaryContext context)
  let tmpindecl := stripacc (stripdiaer (stripquant (50 :: xstrncpy indeclstr maxWordSize)))
  (nominalOutcome lib context.language (nomindex context.dictionaryHqMode) tmpindecl
    context.nominalDictionaryTags, context)

/-- What a caller can ask of a context. -/
inductive IndexRequest
  | setLang (n : ℤ)
  | setHqDict (enabled : Bool)
  | ending (slot : EndSlot) (endstr keys : Bytes)
  | stem (stemstr : Bytes)
  | indecl (indeclstr : Bytes)

/-- One request; the switches give no outcome. -/
def indexStep (lib : Stemlib) (context : IndexContext) :
    IndexRequest → Option Outcome × IndexContext
  | .setLang n => (none, { context with language := n })
  | .setHqDict enabled => (none, { context with dictionaryHqMode := enabled })
  | .ending slot endstr keys =>
    let lookup := chckEnd lib slot endstr keys context
    (some lookup.1, lookup.2)
  | .stem stemstr =>
    let lookup := chckstem lib stemstr context
    (some lookup.1, lookup.2)
  | .indecl indeclstr =>
    let lookup := chckindecl lib indeclstr context
    (some lookup.1, lookup.2)

/-- The outcomes of the lookups in a sequence of requests. -/
def indexRun (lib : Stemlib) : IndexContext → List IndexRequest → List Outcome
  | _, [] => []
  | context, request :: rest =>
    let step := indexStep lib context request
    step.1.toList ++ indexRun lib step.2 rest

/-- A lookup with the language and the mode in force at its time. -/
structure Visit where
  language : ℤ
  hqMode : Bool
  request : IndexRequest

/-- The lookups of a sequence of requests, by the requests alone. -/
def visits : ℤ → Bool → List IndexRequest → List Visit
  | _, _, [] => []
  | _, hqMode, .setLang n :: rest => visits n hqMode rest
  | language, _, .setHqDict enabled :: rest => visits language enabled rest
  | language, hqMode, request :: rest => ⟨language, hqMode, request⟩ :: visits language hqMode rest

/-- What a lookup gives that reads the files of the language and the mode in force. -/
def directOutcome (lib : Stemlib) (visit : Visit) : Outcome :=
  let tags := load lib visit.language initPreind (lindex (nomindex visit.hqMode))
  match visit.request with
  | .ending slot endstr keys =>
    endOutcome slot endstr keys (load lib visit.language initEndind slot.filename)
  | .stem stemstr =>
    let stemstr := stripdiaer (stripquant stemstr)
    if stemstr = [] then ⟨none, 0, []⟩
    else nominalOutcome lib visit.language (nomindex visit.hqMode) stemstr tags
  | .indecl indeclstr =>
    nominalOutcome lib visit.language (nomindex visit.hqMode)
      (stripacc (stripdiaer (stripquant (50 :: xstrncpy indeclstr maxWordSize)))) tags
  | _ => ⟨none, 0, []⟩

/-- A file holds one thing. -/
theorem load_eq_of_path {α : Type} {lib : Stemlib} {parse : Bytes → Option α}
    {language language' : ℤ} {fname fname' : Bytes} {l l' : Loaded α}
    (h : load lib language parse fname = some l)
    (h' : load lib language' parse fname' = some l') (hpath : l.path = l'.path) : l = l' := by
  simp only [load, Option.bind_eq_bind, Option.bind_eq_some_iff, Option.some.injEq] at h h'
  obtain ⟨path, -, file, hfile, data, hdata, rfl⟩ := h
  obtain ⟨path', -, file', hfile', data', hdata', rfl⟩ := h'
  obtain rfl : path = path' := hpath
  rw [hfile] at hfile'
  obtain rfl := Option.some.inj hfile'
  rw [hdata] at hdata'
  rw [Option.some.inj hdata']

/-- The cached pre-indexes were loaded for the language and the mode the context has noted. -/
structure TagsFresh (lib : Stemlib) (context : IndexContext) : Prop where
  uninitialized : context.dictionaryTagsInitialized = false →
    context.nominalDictionaryTags = none
  nominal : ∀ tags, context.nominalDictionaryTags = some tags →
    load lib context.dictionaryTagLanguage initPreind
      (lindex (nomindex context.dictionaryTagHqMode)) = some tags

/-- What `dictionary_context` leaves: the pre-index, if any, is the one in force. -/
structure TagsCurrent (lib : Stemlib) (context : IndexContext) : Prop where
  initialized : context.dictionaryTagsInitialized = true
  language : context.dictionaryTagLanguage = context.language
  hqMode : context.dictionaryTagHqMode = context.dictionaryHqMode
  nominal : ∀ tags, context.nominalDictionaryTags = some tags →
    load lib context.language initPreind (lindex (nomindex context.dictionaryHqMode)) = some tags

theorem TagsCurrent.fresh {lib : Stemlib} {context : IndexContext}
    (h : TagsCurrent lib context) : TagsFresh lib context where
  uninitialized hn := by simp [h.initialized] at hn
  nominal tags htags := by
    rw [h.language, h.hqMode]
    exact h.nominal tags htags

/-- A step keeps the language, the mode and the ending indexes. -/
structure SameSettings (context context' : IndexContext) : Prop where
  language : context'.language = context.language
  hqMode : context'.dictionaryHqMode = context.dictionaryHqMode
  endIndex : context'.endIndex = context.endIndex

theorem SameSettings.trans {a b c : IndexContext} (h : SameSettings a b) (h' : SameSettings b c) :
    SameSettings a c where
  language := h'.language.trans h.language
  hqMode := h'.hqMode.trans h.hqMode
  endIndex := h'.endIndex.trans h.endIndex

theorem dictionaryContext_same (context : IndexContext) :
    SameSettings context (dictionaryContext context) := by
  rw [dictionaryContext]
  split
  · exact ⟨rfl, rfl, rfl⟩
  · split
    · exact ⟨rfl, rfl, rfl⟩
    · exact ⟨rfl, rfl, rfl⟩

theorem dictionaryContext_current {lib : Stemlib} {context : IndexContext}
    (h : TagsFresh lib context) : TagsCurrent lib (dictionaryContext context) := by
  rw [dictionaryContext]
  split
  · rename_i hinit
    have hnone := h.uninitialized (by simpa using hinit)
    exact ⟨rfl, rfl, rfl, by simp [hnone]⟩
  · rename_i hinit
    split
    · exact ⟨by simpa using hinit, rfl, rfl, by simp⟩
    · rename_i hsame
      obtain ⟨hlang, hmode⟩ := not_or.mp hsame
      have hlang := not_not.mp hlang
      have hmode := not_not.mp hmode
      refine ⟨by simpa using hinit, hlang, hmode, ?_⟩
      intro tags htags
      rw [← hlang, ← hmode]
      exact h.nominal tags htags

/-- `dictionary_context` changes nothing the second time. -/
theorem dictionaryContext_of_current {lib : Stemlib} {context : IndexContext}
    (h : TagsCurrent lib context) : dictionaryContext context = context := by
  simp [dictionaryContext, h.initialized, h.language, h.hqMode]

theorem initDict_of_current {lib : Stemlib} {context : IndexContext}
    (h : TagsCurrent lib context) (fname : Bytes) :
    initDict lib fname context =
      (load lib context.language initPreind
        (lindex (if context.dictionaryHqMode then stemlist else fname)), context) := by
  simp [initDict, dictionaryContext_of_current h]

theorem needVerbTags_current {lib : Stemlib} {context : IndexContext}
    (h : TagsCurrent lib context) :
    TagsCurrent lib (needVerbTags lib context) ∧
      SameSettings context (needVerbTags lib context) := by
  rw [needVerbTags]
  split
  · exact ⟨h, rfl, rfl, rfl⟩
  · rw [initDict_of_current h]
    exact ⟨⟨h.initialized, h.language, h.hqMode, h.nominal⟩, rfl, rfl, rfl⟩

/-- The nominal pre-index is loaded from the file in force. -/
theorem needNominalTags_current {lib : Stemlib} {context : IndexContext}
    (h : TagsCurrent lib context) :
    TagsCurrent lib (needNominalTags lib context) ∧
      SameSettings context (needNominalTags lib context) ∧
      (needNominalTags lib context).nominalDictionaryTags =
        load lib context.language initPreind (lindex (nomindex context.dictionaryHqMode)) := by
  have hfile : (if context.dictionaryHqMode then stemlist
      else nomindex context.dictionaryHqMode) = nomindex context.dictionaryHqMode := by
    cases context.dictionaryHqMode
    · rfl
    · rfl
  rw [needNominalTags]
  cases htags : context.nominalDictionaryTags with
  | some tags => exact ⟨h, ⟨rfl, rfl, rfl⟩, by rw [htags, h.nominal tags htags]⟩
  | none =>
    rw [initDict_of_current h, hfile]
    exact ⟨⟨h.initialized, h.language, h.hqMode, fun tags ht => ht⟩, ⟨rfl, rfl, rfl⟩, rfl⟩

/-- Nominal lookups in the dictionary use the files in force. -/
theorem chckstem_direct {lib : Stemlib} {context : IndexContext} (h : TagsFresh lib context)
    (stemstr : Bytes) :
    (chckstem lib stemstr context).1 =
        directOutcome lib ⟨context.language, context.dictionaryHqMode, .stem stemstr⟩ ∧
      TagsFresh lib (chckstem lib stemstr context).2 ∧
      SameSettings context (chckstem lib stemstr context).2 := by
  have hcur := dictionaryContext_current h
  have hsame := dictionaryContext_same context
  obtain ⟨hv, hvs⟩ := needVerbTags_current hcur
  obtain ⟨hn, hns, htags⟩ := needNominalTags_current hv
  have hall := (hsame.trans hvs).trans hns
  have hvall := hsame.trans hvs
  simp only [chckstem, directOutcome]
  split
  · exact ⟨rfl, hcur.fresh, hsame⟩
  · refine ⟨?_, hn.fresh, hall⟩
    rw [htags, hall.language, hvall.language, hvall.hqMode, hsame.hqMode]

theorem chckindecl_direct {lib : Stemlib} {context : IndexContext} (h : TagsFresh lib context)
    (indeclstr : Bytes) :
    (chckindecl lib indeclstr context).1 =
        directOutcome lib ⟨context.language, context.dictionaryHqMode, .indecl indeclstr⟩ ∧
      TagsFresh lib (chckindecl lib indeclstr context).2 ∧
      SameSettings context (chckindecl lib indeclstr context).2 := by
  have hcur := dictionaryContext_current h
  have hsame := dictionaryContext_same context
  obtain ⟨hn, hns, htags⟩ := needNominalTags_current hcur
  have hall := hsame.trans hns
  simp only [chckindecl, directOutcome]
  refine ⟨?_, hn.fresh, hall⟩
  rw [htags, hall.language, hall.hqMode, hsame.language, hsame.hqMode]

/-- The index of a slot in the file of a language. -/
def slotIndex (lib : Stemlib) (language : ℤ) (slot : EndSlot) : Option (Loaded (List Bytes)) :=
  load lib language initEndind slot.filename

/-- Between two lookups through one ending index, of which the first could be loaded, the file
in force does not change. -/
def SameFile (lib : Stemlib) (first later : Visit) : Prop :=
  ∀ slot endstr keys endstr' keys', first.request = .ending slot endstr keys →
    later.request = .ending slot endstr' keys' → slotIndex lib first.language slot ≠ none →
    slotIndex lib later.language slot = slotIndex lib first.language slot

/-- The lookups to come through a slot find its index in the file in force. -/
def Remains (lib : Stemlib) (slot : EndSlot) (index : Loaded (List Bytes))
    (lookups : List Visit) : Prop :=
  ∀ visit ∈ lookups, ∀ endstr keys, visit.request = .ending slot endstr keys →
    slotIndex lib visit.language slot = some index

/-- What holds of a context between lookups. -/
structure CachesFresh (lib : Stemlib) (context : IndexContext) : Prop where
  tags : TagsFresh lib context
  endIndex : ∀ slot index, context.endIndex slot = some index →
    ∃ language, slotIndex lib language slot = some index

/-- A lookup tells the index it used. -/
theorem endOutcome_injective {lib : Stemlib} {slot : EndSlot} {endstr keys : Bytes}
    {language language' : ℤ} {index : Loaded (List Bytes)}
    (hindex : slotIndex lib language slot = some index)
    (h : endOutcome slot endstr keys (some index) =
      endOutcome slot endstr keys (slotIndex lib language' slot)) :
    slotIndex lib language' slot = some index := by
  have hsource := congrArg Outcome.source h
  cases hload : slotIndex lib language' slot with
  | none => simp [hload, endOutcome] at hsource
  | some index' =>
    rw [hload] at hsource
    simp only [endOutcome, Option.some.injEq] at hsource
    rw [load_eq_of_path hindex hload hsource]

theorem remains_cons_of_dictionary {lib : Stemlib} {slot : EndSlot}
    {index : Loaded (List Bytes)} {visit : Visit} {lookups : List Visit}
    (hv : ∀ slot endstr keys, visit.request ≠ .ending slot endstr keys) :
    Remains lib slot index (visit :: lookups) ↔ Remains lib slot index lookups := by
  constructor
  · intro h w hw
    exact h w (List.mem_cons_of_mem _ hw)
  · intro h w hw endstr keys hreq
    rcases List.mem_cons.mp hw with rfl | hw
    · exact absurd hreq (hv slot endstr keys)
    · exact h w hw endstr keys hreq

/-- A dictionary lookup adds nothing to the condition on a run. -/
theorem cons_eq_iff_of_dictionary {lib : Stemlib} {context : IndexContext} {visit : Visit}
    {lookups : List Visit} {outcomes : List Outcome} {outcome : Outcome}
    (hv : ∀ slot endstr keys, visit.request ≠ .ending slot endstr keys)
    (hout : outcome = directOutcome lib visit)
    (h : outcomes = lookups.map (directOutcome lib) ↔
      (∀ slot index, context.endIndex slot = some index → Remains lib slot index lookups) ∧
        lookups.Pairwise (SameFile lib)) :
    outcome :: outcomes = (visit :: lookups).map (directOutcome lib) ↔
      (∀ slot index, context.endIndex slot = some index →
        Remains lib slot index (visit :: lookups)) ∧
        (visit :: lookups).Pairwise (SameFile lib) := by
  have hfirst : ∀ w ∈ lookups, SameFile lib visit w := by
    intro w _ slot endstr keys _ _ hreq
    exact absurd hreq (hv slot endstr keys)
  simp only [List.map_cons, List.cons.injEq, hout, true_and, h, remains_cons_of_dictionary hv,
    List.pairwise_cons]
  constructor
  · rintro ⟨hremains, hpair⟩
    exact ⟨hremains, hfirst, hpair⟩
  · rintro ⟨hremains, -, hpair⟩
    exact ⟨hremains, hpair⟩

/-- A lookup through a slot that holds an index. -/
theorem remains_cons {lib : Stemlib} {slot : EndSlot} {index : Loaded (List Bytes)}
    {language : ℤ} {hqMode : Bool} {endstr keys : Bytes} {lookups : List Visit} :
    Remains lib slot index (⟨language, hqMode, .ending slot endstr keys⟩ :: lookups) ↔
      slotIndex lib language slot = some index ∧ Remains lib slot index lookups := by
  constructor
  · intro h
    exact ⟨h ⟨language, hqMode, .ending slot endstr keys⟩ List.mem_cons_self endstr keys rfl,
      fun w hw => h w (List.mem_cons_of_mem _ hw)⟩
  · rintro ⟨hfirst, hrest⟩ w hw endstr' keys' hreq
    rcases List.mem_cons.mp hw with rfl | hw
    · exact hfirst
    · exact hrest w hw endstr' keys' hreq

theorem remains_cons_other {lib : Stemlib} {slot slot' : EndSlot} (hne : slot' ≠ slot)
    {index : Loaded (List Bytes)} {language : ℤ} {hqMode : Bool} {endstr keys : Bytes}
    {lookups : List Visit} :
    Remains lib slot' index (⟨language, hqMode, .ending slot endstr keys⟩ :: lookups) ↔
      Remains lib slot' index lookups := by
  constructor
  · intro h w hw
    exact h w (List.mem_cons_of_mem _ hw)
  · intro h w hw endstr' keys' hreq
    rcases List.mem_cons.mp hw with rfl | hw
    · cases hreq
      exact absurd rfl hne
    · exact h w hw endstr' keys' hreq

/-- A lookup that loads its index is followed by lookups in the same file when the index
remains. -/
theorem sameFile_iff_remains {lib : Stemlib} {slot : EndSlot} {index : Loaded (List Bytes)}
    {language : ℤ} {hqMode : Bool} {endstr keys : Bytes} {lookups : List Visit}
    (hload : slotIndex lib language slot = some index) :
    (∀ w ∈ lookups, SameFile lib ⟨language, hqMode, .ending slot endstr keys⟩ w) ↔
      Remains lib slot index lookups := by
  constructor
  · intro h w hw endstr' keys' hreq
    rw [h w hw slot endstr keys endstr' keys' rfl hreq (by simp [hload]), hload]
  · intro h w hw slot' endstr' keys' endstr'' keys'' hfirst hlater _
    cases hfirst
    rw [h w hw endstr'' keys'' hlater, hload]

section
variable {lib : Stemlib} {context : IndexContext} {slot : EndSlot} {endstr keys : Bytes}
  {lookups : List Visit}

/-- The visit of a lookup in an ending index. -/
def endVisit (context : IndexContext) (slot : EndSlot) (endstr keys : Bytes) : Visit :=
  ⟨context.language, context.dictionaryHqMode, .ending slot endstr keys⟩

/-- A slot that holds an index is taken for what it holds, whatever the language. -/
theorem ending_held_iff (h : CachesFresh lib context) {index : Loaded (List Bytes)}
    (hheld : context.endIndex slot = some index) :
    (endOutcome slot endstr keys (some index) =
        endOutcome slot endstr keys (slotIndex lib context.language slot) ∧
      ∀ slot' index', context.endIndex slot' = some index' → Remains lib slot' index' lookups) ↔
    (∀ slot' index', context.endIndex slot' = some index' →
      Remains lib slot' index' (endVisit context slot endstr keys :: lookups)) ∧
      ∀ w ∈ lookups, SameFile lib (endVisit context slot endstr keys) w := by
  constructor
  · rintro ⟨hout, hremains⟩
    obtain ⟨language, hindex⟩ := h.endIndex slot index hheld
    have hload := endOutcome_injective hindex hout
    refine ⟨?_, (sameFile_iff_remains hload).mpr (hremains slot index hheld)⟩
    intro slot' index' hheld'
    by_cases hslot : slot' = slot
    · subst hslot
      rw [hheld] at hheld'
      cases hheld'
      exact remains_cons.mpr ⟨hload, hremains slot' index hheld⟩
    · exact (remains_cons_other hslot).mpr (hremains slot' index' hheld')
  · rintro ⟨hremains, -⟩
    obtain ⟨hload, -⟩ := remains_cons.mp (hremains slot index hheld)
    refine ⟨by rw [hload], ?_⟩
    intro slot' index' hheld' w hw
    exact hremains slot' index' hheld' w (List.mem_cons_of_mem _ hw)

/-- An index that cannot be loaded leaves the context as it was. -/
theorem ending_unloadable_iff (hheld : context.endIndex slot = none)
    (hload : slotIndex lib context.language slot = none) :
    (∀ slot' index', context.endIndex slot' = some index' → Remains lib slot' index' lookups) ↔
    (∀ slot' index', context.endIndex slot' = some index' →
      Remains lib slot' index' (endVisit context slot endstr keys :: lookups)) ∧
      ∀ w ∈ lookups, SameFile lib (endVisit context slot endstr keys) w := by
  constructor
  · intro hremains
    constructor
    · intro slot' index' hheld'
      have hslot : slot' ≠ slot := by
        rintro rfl
        simp [hheld] at hheld'
      exact (remains_cons_other hslot).mpr (hremains slot' index' hheld')
    · intro w _ slot' _ _ _ _ hfirst _ hne
      cases hfirst
      exact absurd hload hne
  · rintro ⟨hremains, -⟩ slot' index' hheld' w hw
    exact hremains slot' index' hheld' w (List.mem_cons_of_mem _ hw)

/-- An index that is loaded must remain the one of the file in force. -/
theorem ending_loaded_iff {index : Loaded (List Bytes)} (hheld : context.endIndex slot = none)
    (hload : slotIndex lib context.language slot = some index) :
    (∀ slot' index', Function.update context.endIndex slot (some index) slot' = some index' →
      Remains lib slot' index' lookups) ↔
    (∀ slot' index', context.endIndex slot' = some index' →
      Remains lib slot' index' (endVisit context slot endstr keys :: lookups)) ∧
      ∀ w ∈ lookups, SameFile lib (endVisit context slot endstr keys) w := by
  constructor
  · intro hremains
    constructor
    · intro slot' index' hheld'
      have hslot : slot' ≠ slot := by
        rintro rfl
        simp [hheld] at hheld'
      refine (remains_cons_other hslot).mpr (hremains slot' index' ?_)
      rw [Function.update_of_ne hslot]
      exact hheld'
    · exact (sameFile_iff_remains hload).mpr
        (hremains slot index (Function.update_self slot (some index) context.endIndex))
  · rintro ⟨hremains, hsame⟩ slot' index' hheld'
    by_cases hslot : slot' = slot
    · subst hslot
      simp only [Function.update_self, Option.some.injEq] at hheld'
      rw [← hheld']
      exact (sameFile_iff_remains hload).mp hsame
    · rw [Function.update_of_ne hslot] at hheld'
      exact (remains_cons_other hslot).mp (hremains slot' index' hheld')

theorem cachesFresh_loaded (h : CachesFresh lib context) {index : Loaded (List Bytes)}
    (hload : slotIndex lib context.language slot = some index) :
    CachesFresh lib { context with
      endIndex := Function.update context.endIndex slot (some index) } := by
  refine ⟨⟨h.tags.uninitialized, h.tags.nominal⟩, ?_⟩
  intro slot' index' hheld'
  dsimp only at hheld'
  by_cases hslot : slot' = slot
  · subst hslot
    simp only [Function.update_self, Option.some.injEq] at hheld'
    exact ⟨context.language, by rw [hload, hheld']⟩
  · rw [Function.update_of_ne hslot] at hheld'
    exact h.endIndex slot' index' hheld'

/-- A lookup in an ending index: the context stays in order, and the lookup is right and the
rest remains exactly when all remains with the lookup in front. -/
theorem ending_step (h : CachesFresh lib context) (slot : EndSlot) (endstr keys : Bytes) :
    CachesFresh lib (loadEndIndex lib slot context).2 ∧
      (loadEndIndex lib slot context).2.language = context.language ∧
      (loadEndIndex lib slot context).2.dictionaryHqMode = context.dictionaryHqMode ∧
      ∀ lookups,
        (endOutcome slot endstr keys (loadEndIndex lib slot context).1 =
            directOutcome lib (endVisit context slot endstr keys) ∧
          ∀ slot' index', (loadEndIndex lib slot context).2.endIndex slot' = some index' →
            Remains lib slot' index' lookups) ↔
        (∀ slot' index', context.endIndex slot' = some index' →
          Remains lib slot' index' (endVisit context slot endstr keys :: lookups)) ∧
          ∀ w ∈ lookups, SameFile lib (endVisit context slot endstr keys) w := by
  have hdirect : directOutcome lib (endVisit context slot endstr keys) =
      endOutcome slot endstr keys (slotIndex lib context.language slot) := rfl
  rw [hdirect]
  cases hheld : context.endIndex slot with
  | some index =>
    have hstep : loadEndIndex lib slot context = (some index, context) := by
      simp [loadEndIndex, hheld]
    rw [hstep]
    exact ⟨h, rfl, rfl, fun lookups => ending_held_iff h hheld⟩
  | none =>
    cases hload : slotIndex lib context.language slot with
    | none =>
      have hload' := hload
      rw [slotIndex] at hload'
      have hstep : loadEndIndex lib slot context = (none, context) := by
        simp [loadEndIndex, hheld, hload']
      rw [hstep]
      refine ⟨h, rfl, rfl, fun lookups => ?_⟩
      rw [← ending_unloadable_iff hheld hload]
      exact and_iff_right rfl
    | some index =>
      have hload' := hload
      rw [slotIndex] at hload'
      have hstep : loadEndIndex lib slot context = (some index, { context with
          endIndex := Function.update context.endIndex slot (some index) }) := by
        simp [loadEndIndex, hheld, hload']
      rw [hstep]
      refine ⟨cachesFresh_loaded h hload, rfl, rfl, fun lookups => ?_⟩
      rw [← ending_loaded_iff hheld hload]
      exact and_iff_right rfl
end

/-- A run gives what the files in force give exactly when every index that is held, or is
loaded on the way, remains the one of the file in force. -/
theorem indexRun_eq_iff {lib : Stemlib} {context : IndexContext} (h : CachesFresh lib context)
    (requests : List IndexRequest) :
    indexRun lib context requests =
        (visits context.language context.dictionaryHqMode requests).map (directOutcome lib) ↔
      (∀ slot index, context.endIndex slot = some index →
        Remains lib slot index (visits context.language context.dictionaryHqMode requests)) ∧
      (visits context.language context.dictionaryHqMode requests).Pairwise (SameFile lib) := by
  induction requests generalizing context with
  | nil => simp [indexRun, visits, Remains]
  | cons request rest ih =>
    cases request with
    | setLang n =>
      have hnext : CachesFresh lib { context with language := n } :=
        ⟨⟨h.tags.uninitialized, h.tags.nominal⟩, h.endIndex⟩
      exact ih hnext
    | setHqDict enabled =>
      have hnext : CachesFresh lib { context with dictionaryHqMode := enabled } :=
        ⟨⟨h.tags.uninitialized, h.tags.nominal⟩, h.endIndex⟩
      exact ih hnext
    | stem stemstr =>
      obtain ⟨hout, htags, hsame⟩ := chckstem_direct h.tags stemstr
      have hnext : CachesFresh lib (chckstem lib stemstr context).2 :=
        ⟨htags, by rw [hsame.endIndex]; exact h.endIndex⟩
      have hih := ih hnext
      rw [hsame.language, hsame.hqMode, hsame.endIndex] at hih
      exact cons_eq_iff_of_dictionary (by simp) hout hih
    | indecl indeclstr =>
      obtain ⟨hout, htags, hsame⟩ := chckindecl_direct h.tags indeclstr
      have hnext : CachesFresh lib (chckindecl lib indeclstr context).2 :=
        ⟨htags, by rw [hsame.endIndex]; exact h.endIndex⟩
      have hih := ih hnext
      rw [hsame.language, hsame.hqMode, hsame.endIndex] at hih
      exact cons_eq_iff_of_dictionary (by simp) hout hih
    | ending slot endstr keys =>
      obtain ⟨hnext, hlanguage, hmode, hiff⟩ := ending_step h slot endstr keys
      have hrun : indexRun lib context (.ending slot endstr keys :: rest) =
          endOutcome slot endstr keys (loadEndIndex lib slot context).1 ::
            indexRun lib (loadEndIndex lib slot context).2 rest := rfl
      have hvisits : visits context.language context.dictionaryHqMode
          (.ending slot endstr keys :: rest) = endVisit context slot endstr keys ::
            visits context.language context.dictionaryHqMode rest := rfl
      have hih := ih hnext
      rw [hlanguage, hmode] at hih
      rw [hrun, hvisits, List.map_cons, List.cons.injEq, List.pairwise_cons, hih, ← and_assoc,
        ← and_assoc, hiff]

theorem cachesFresh_create (lib : Stemlib) : CachesFresh lib IndexContext.create where
  tags := ⟨fun _ => rfl, fun _ h => by simp [IndexContext.create] at h⟩
  endIndex := fun _ _ h => by simp [IndexContext.create] at h

/-- From a new context every lookup uses the files of the language and the mode in force exactly
when no ending index is looked up in another file after it was loaded. Dictionary lookups
always do. -/
theorem indexLookups_coherent_iff (lib : Stemlib) (requests : List IndexRequest) :
    indexRun lib IndexContext.create requests =
        (visits 0 false requests).map (directOutcome lib) ↔
      (visits 0 false requests).Pairwise (SameFile lib) := by
  have h := indexRun_eq_iff (cachesFresh_create lib) requests
  simpa [IndexContext.create] using h

/-- A library with an ending index for Greek and another for Latin. -/
def twoLanguages : Stemlib where
  path := some (ascii "/lib")
  nameOfStemtype := fun _ _ => []
  fopen := fun path =>
    if path = ascii "/lib/Greek/endtables/indices/nendind" then some (ascii "os os_ou\n")
    else if path = ascii "/lib/Latin/endtables/indices/nendind" then some (ascii "us us_i\n")
    else none

/-- After a switch to Latin the endings are still the Greek ones. -/
theorem indexLookups_stale :
    indexRun twoLanguages IndexContext.create
        [.ending .nominalEnding (ascii "os") [], .setLang 0o100000,
          .ending .nominalEnding (ascii "us") []] ≠
      (visits 0 false [.ending .nominalEnding (ascii "os") [], .setLang 0o100000,
        .ending .nominalEnding (ascii "us") []]).map (directOutcome twoLanguages) := by
  decide +kernel

end Morpheus
