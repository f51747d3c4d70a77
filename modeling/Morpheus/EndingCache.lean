import Morpheus.EndIO

/-!
# The cache of ending tables

`GetCurrentEndList` of `getcurrend.c` reads the ending table of a stem type, or
returns the list from a cache of `MORPHEUS_END_CACHE_SIZE` slots that is filled
round-robin and cleared when the language changes.
-/
namespace Morpheus

/-- What lies outside the cache: the library directory, the names of the stem types in a
language, and the files. -/
structure Stemlib where
  path : Option Bytes
  nameOfStemtype : ℤ → UInt32 → Bytes
  fopen : Bytes → Option Bytes

/-- `LATIN` -/
def latin : ℤ := 0o100000

/-- `ITALIAN` -/
def italian : ℤ := 0o1000000

/-- `MorphPathName` in a buffer of `BUFSIZ` bytes. -/
def morphPathName (lib : Stemlib) (language : ℤ) (short : Bytes) : Option Bytes :=
  if short = [] then none
  else lib.path.bind fun path =>
    let languageDirectory :=
      if language = latin then ascii "Latin"
      else if language = italian then ascii "Italian"
      else ascii "Greek"
    let full := path ++ ascii "/" ++ languageDirectory ++ ascii "/" ++ short
    if full.length ≥ 8192 then none
    else some (full.map fun c => if c = 58 then 47 else c)

/-- `MorphFopen` for reading -/
def morphFopen (lib : Stemlib) (language : ℤ) (fname : Bytes) : Option Bytes :=
  (morphPathName lib language fname).bind lib.fopen

/-- The file name of the ending table of a stem type, in `MAXPATHNAME` bytes. -/
def endTableName (lib : Stemlib) (language : ℤ) (stemtype : UInt32) : Option Bytes :=
  let stemtypeName := lib.nameOfStemtype language stemtype
  if stemtypeName = [] then none
  else
    let fname := ascii "endtables/out/" ++ stemtypeName ++ ascii ".out"
    if fname.length ≥ 512 then none else some fname

/-- The reading loop of `GetCurrentEndList`; every record gets the stem type of the request. -/
def readEndings (maxend : ℤ) (stemtype : UInt32) : ℕ → Stream → Option (List GkString)
  | 0, _ => some []
  | n + 1, f =>
    match readEnding maxend f with
    | .ok gstr f => (readEndings maxend stemtype n f).map ({ gstr with stemtype } :: ·)
    | .error rval f =>
      if rval ≤ 0 then none
      -- a positive return of a failed read leaves the cleared record
      else (readEndings maxend stemtype n f).map ({ GkString.zero with stemtype } :: ·)

/-- The miss path of `GetCurrentEndList`: the list, with two cleared records behind its
endings, and the count `*lnump`. Without memory for the list there is none. -/
def loadEndList (lib : Stemlib) (language : ℤ) (stemtype : UInt32) (memory : Bool) :
    Option (List GkString × ℕ) := do
  let fname ← endTableName lib language stemtype
  let file ← morphFopen lib language fname
  match getEndheader (.openFile file) with
  | .error _ _ => none
  | .ok (lno, maxend) f =>
    if lno ≤ 0 then none
    else if lno > intMax - 2 then none
    else if !memory then none
    else do
      let endings ← readEndings maxend stemtype lno.toNat f
      some (endings ++ [.zero, .zero], lno.toNat)

/-- The table file of a language, read directly. -/
def readEndList (lib : Stemlib) (language : ℤ) (stemtype : UInt32) :
    Option (List GkString × ℕ) :=
  loadEndList lib language stemtype true

/-- The part of the runtime context that `GetCurrentEndList` uses. -/
structure EndingContext where
  language : ℤ
  cacheInitialized : Bool
  cacheLanguage : ℤ
  cache : Fin 45 → Option (List GkString)
  cacheCurrent : Fin 45
  cacheSize : ℕ

/-- The context as it is allocated. -/
def EndingContext.zero : EndingContext := ⟨0, false, 0, fun _ => none, 0, 0⟩

/-- `clear_ending_cache` -/
def clearEndingCache (context : EndingContext) : EndingContext :=
  { context with cache := fun _ => none, cacheCurrent := 0, cacheSize := 0 }

/-- `current_ending_cache` -/
def currentEndingCache (context : EndingContext) : EndingContext :=
  if !context.cacheInitialized then
    { context with cacheLanguage := context.language, cacheInitialized := true }
  else if context.cacheLanguage ≠ context.language then
    { clearEndingCache context with cacheLanguage := context.language }
  else context

/-- `stemtype_of` a list: the stem type of its first record. -/
def stemtypeOf (endList : List GkString) : UInt32 := (endList.headD .zero).stemtype

/-- The search of `CheckEndCache`: it ends at the first empty slot. -/
def searchCache (stemtype : UInt32) : List (Option (List GkString)) → Option (List GkString)
  | [] => none
  | none :: _ => none
  | some endList :: slots =>
    if stemtypeOf endList = stemtype then some endList else searchCache stemtype slots

/-- `cacheconsistent`: the size grows to the number of slots in use before the first
empty one; the rest of it only prints. -/
def cacheconsistent (context : EndingContext) : EndingContext :=
  let context := currentEndingCache context
  let i := ((List.ofFn context.cache).takeWhile Option.isSome).length
  if i < context.cacheSize then context else { context with cacheSize := i }

/-- `CheckEndCache` -/
def checkEndCache (context : EndingContext) (stemtype : UInt32) :
    EndingContext × Option (List GkString) :=
  let context := cacheconsistent (currentEndingCache context)
  (context, searchCache stemtype (List.ofFn context.cache))

/-- `InsertEndCache`; the next slot follows round-robin. -/
def insertEndCache (context : EndingContext) (endList : List GkString) : EndingContext :=
  let context := currentEndingCache context
  { context with
    cache := Function.update context.cache context.cacheCurrent (some endList)
    cacheCurrent := context.cacheCurrent + 1 }

/-- The count on the hit path: the records before the first empty text. -/
def recount (endList : List GkString) : ℕ := (endList.takeWhile fun g => g.gkstring ≠ []).length

/-- `GetCurrentEndList` -/
def getCurrentEndList (lib : Stemlib) (context : EndingContext) (stemtype : UInt32)
    (memory : Bool) : EndingContext × Option (List GkString × ℕ) :=
  let checked := checkEndCache context stemtype
  match checked.2 with
  | some endList => (checked.1, some (endList, recount endList))
  | none =>
    match loadEndList lib context.language stemtype memory with
    | none => (checked.1, none)
    | some (endList, lno) => (insertEndCache checked.1 endList, some (endList, lno))

/-- What happens to a context: `set_lang`, or a request, with or without memory for a list. -/
inductive EndingEvent
  | setLang (n : ℤ)
  | request (stemtype : UInt32) (memory : Bool)

/-- An answered request: the language and stem type it was made for, and the result. -/
structure EndingReply where
  language : ℤ
  stemtype : UInt32
  result : Option (List GkString × ℕ)

/-- One event and its answer. -/
def EndingEvent.step (lib : Stemlib) (context : EndingContext) :
    EndingEvent → EndingContext × Option EndingReply
  | .setLang n => ({ context with language := n }, none)
  | .request stemtype memory =>
    let next := getCurrentEndList lib context stemtype memory
    (next.1, some ⟨context.language, stemtype, next.2⟩)

/-- The answers to a sequence of events. -/
def replies (lib : Stemlib) : EndingContext → List EndingEvent → List EndingReply
  | _, [] => []
  | context, event :: events =>
    let next := event.step lib context
    next.2.toList ++ replies lib next.1 events

/-- A successful answer is the table file of the language, list and count. -/
def EndingReply.Direct (lib : Stemlib) (reply : EndingReply) : Prop :=
  reply.result.isSome → reply.result = readEndList lib reply.language reply.stemtype

/-- The request finds in the cache a table with an empty ending among its endings. -/
def hitsEmptyEnding (context : EndingContext) : EndingEvent → Bool
  | .setLang _ => false
  | .request stemtype _ =>
    match (checkEndCache context stemtype).2 with
    | none => false
    | some endList => (endList.take (endList.length - 2)).any fun g => g.gkstring = []

/-- No request of the sequence finds in the cache a table with an empty ending. -/
def NoEmptyHit (lib : Stemlib) : EndingContext → List EndingEvent → Prop
  | _, [] => True
  | context, event :: events =>
    hitsEmptyEnding context event = false ∧ NoEmptyHit lib (event.step lib context).1 events

theorem readEndings_length {maxend : ℤ} {stemtype : UInt32} {n : ℕ} {f : Stream}
    {endings : List GkString} (h : readEndings maxend stemtype n f = some endings) :
    endings.length = n ∧ ∀ g ∈ endings, g.stemtype = stemtype := by
  induction n generalizing f endings with
  | zero =>
    simp only [readEndings, Option.some.injEq] at h
    simp [← h]
  | succ n ih =>
    simp only [readEndings] at h
    split at h
    · obtain ⟨rest, hrest, rfl⟩ := Option.map_eq_some_iff.mp h
      have hr := ih hrest
      simpa [hr.1] using hr.2
    · split at h
      · simp at h
      · obtain ⟨rest, hrest, rfl⟩ := Option.map_eq_some_iff.mp h
        have hr := ih hrest
        simpa [hr.1] using hr.2

/-- A loaded list: its endings under the requested stem type and two cleared records,
whether or not there was memory to spare. -/
theorem loadEndList_spec {lib : Stemlib} {language : ℤ} {stemtype : UInt32} {memory : Bool}
    {endList : List GkString} {n : ℕ}
    (h : loadEndList lib language stemtype memory = some (endList, n)) :
    readEndList lib language stemtype = some (endList, n) ∧ stemtypeOf endList = stemtype ∧
      ∃ endings, endList = endings ++ [.zero, .zero] ∧ endings.length = n := by
  cases memory with
  | false =>
    exfalso
    simp only [loadEndList, Option.bind_eq_bind, Option.bind_eq_some_iff] at h
    obtain ⟨fname, -, file, -, h⟩ := h
    split at h
    · simp at h
    · simp at h
  | true =>
    refine ⟨h, ?_⟩
    simp only [loadEndList, Option.bind_eq_bind, Option.bind_eq_some_iff] at h
    obtain ⟨fname, -, file, -, h⟩ := h
    split at h
    · simp at h
    · rename_i lno maxend f hhead
      split at h
      · simp at h
      · rename_i hpos
        split at h
        · simp at h
        · simp only [Bool.not_true, Bool.false_eq_true, ↓reduceIte, Option.bind_eq_some_iff,
            Option.some.injEq, Prod.mk.injEq] at h
          obtain ⟨endings, hread, rfl, rfl⟩ := h
          obtain ⟨hlen, hst⟩ := readEndings_length hread
          refine ⟨?_, endings, rfl, hlen⟩
          cases endings with
          | nil =>
            simp only [List.length_nil] at hlen
            omega
          | cons g endings => simpa [stemtypeOf] using hst g (by simp)

/-- The recount agrees with the count exactly when no ending is empty. -/
theorem recount_eq_iff (endings : List GkString) :
    recount (endings ++ [.zero, .zero]) = endings.length ↔
      ∀ g ∈ endings, g.gkstring ≠ [] := by
  induction endings with
  | nil => simp [recount, GkString.zero]
  | cons g endings ih =>
    by_cases hg : g.gkstring = []
    · simp [recount, hg]
    · simpa [recount, hg] using ih

/-- Every cached list is the table of its stem type in the language of the cache. -/
structure CacheSound (lib : Stemlib) (context : EndingContext) : Prop where
  fresh : context.cacheInitialized = false → ∀ i, context.cache i = none
  direct : ∀ i endList, context.cache i = some endList →
    ∃ n, readEndList lib context.cacheLanguage (stemtypeOf endList) = some (endList, n)

theorem cacheSound_zero (lib : Stemlib) : CacheSound lib .zero :=
  ⟨fun _ _ => rfl, fun _ _ h => by simp [EndingContext.zero] at h⟩

section
variable {lib : Stemlib} {context : EndingContext}

@[simp] theorem currentEndingCache_language :
    (currentEndingCache context).language = context.language := by
  simp only [currentEndingCache, clearEndingCache]
  split
  · rfl
  · split <;> rfl

@[simp] theorem currentEndingCache_cacheLanguage :
    (currentEndingCache context).cacheLanguage = context.language := by
  simp only [currentEndingCache]
  split
  · rfl
  · split
    · rfl
    · rename_i h
      exact not_not.mp h

@[simp] theorem currentEndingCache_initialized :
    (currentEndingCache context).cacheInitialized = true := by
  simp only [currentEndingCache, clearEndingCache]
  split
  · rfl
  · rename_i h
    split <;> simpa using h

@[simp] theorem currentEndingCache_idem :
    currentEndingCache (currentEndingCache context) = currentEndingCache context := by
  generalize hc : currentEndingCache context = c
  have h1 : c.cacheInitialized = true := by simp [← hc]
  have h2 : c.cacheLanguage = c.language := by simp [← hc]
  simp [currentEndingCache, h1, h2]

/-- Switching the cache to the current language keeps it sound. -/
theorem CacheSound.currentEndingCache (h : CacheSound lib context) :
    CacheSound lib (currentEndingCache context) := by
  constructor
  · simp
  · intro i endList hi
    rw [currentEndingCache_cacheLanguage]
    simp only [Morpheus.currentEndingCache] at hi
    split at hi
    · rename_i hinit
      rw [h.fresh (by simpa using hinit) i] at hi
      simp at hi
    · split at hi
      · simp [clearEndingCache] at hi
      · rename_i hlang
        have hd := h.direct i endList hi
        rwa [not_not.mp hlang] at hd

theorem CacheSound.resize (h : CacheSound lib context) (size : ℕ) :
    CacheSound lib { context with cacheSize := size } :=
  ⟨h.fresh, h.direct⟩

/-- The context after a search of the cache: switched to the language, with some size. -/
theorem checkEndCache_context (context : EndingContext) (stemtype : UInt32) :
    ∃ size, (checkEndCache context stemtype).1 =
      { currentEndingCache context with cacheSize := size } := by
  simp only [checkEndCache, cacheconsistent, currentEndingCache_idem]
  split
  · exact ⟨_, rfl⟩
  · exact ⟨_, rfl⟩

theorem searchCache_some {stemtype : UInt32} {slots : List (Option (List GkString))}
    {endList : List GkString} (h : searchCache stemtype slots = some endList) :
    some endList ∈ slots ∧ stemtypeOf endList = stemtype := by
  induction slots with
  | nil => simp [searchCache] at h
  | cons slot slots ih =>
    cases slot with
    | none => simp [searchCache] at h
    | some l =>
      simp only [searchCache] at h
      split at h
      · rename_i hst
        rw [Option.some.inj h] at hst ⊢
        exact ⟨by simp, hst⟩
      · have hrest := ih h
        exact ⟨by simp [hrest.1], hrest.2⟩

/-- What the cache holds for a request is the table of the current language. -/
theorem CacheSound.checkEndCache (h : CacheSound lib context) {stemtype : UInt32}
    {endList : List GkString} (hc : (checkEndCache context stemtype).2 = some endList) :
    ∃ n, readEndList lib context.language stemtype = some (endList, n) := by
  obtain ⟨size, hsize⟩ := checkEndCache_context context stemtype
  have hs : searchCache stemtype (List.ofFn (Morpheus.checkEndCache context stemtype).1.cache) =
      some endList := hc
  rw [hsize] at hs
  obtain ⟨hmem, hst⟩ := searchCache_some hs
  obtain ⟨i, hi⟩ := (List.mem_ofFn' _ _).mp hmem
  have hd := h.currentEndingCache.direct i endList hi
  rwa [currentEndingCache_cacheLanguage, hst] at hd

/-- A list read for the current language goes into the cache. -/
theorem CacheSound.insertEndCache (h : CacheSound lib context) {endList : List GkString} {n : ℕ}
    (hread : readEndList lib context.language (stemtypeOf endList) = some (endList, n)) :
    CacheSound lib (insertEndCache context endList) := by
  constructor
  · simp [Morpheus.insertEndCache]
  · intro i l hi
    simp only [Morpheus.insertEndCache, currentEndingCache_cacheLanguage] at hi ⊢
    by_cases hcur : i = (Morpheus.currentEndingCache context).cacheCurrent
    · rw [hcur, Function.update_self, Option.some.injEq] at hi
      subst hi
      exact ⟨n, hread⟩
    · rw [Function.update_of_ne hcur] at hi
      have hd := h.currentEndingCache.direct i l hi
      rwa [currentEndingCache_cacheLanguage] at hd

/-- Searching the cache keeps it sound. -/
theorem CacheSound.checked (h : CacheSound lib context) (stemtype : UInt32) :
    CacheSound lib (Morpheus.checkEndCache context stemtype).1 := by
  obtain ⟨size, hsize⟩ := checkEndCache_context context stemtype
  rw [hsize]
  exact h.currentEndingCache.resize size

@[simp] theorem checkEndCache_language (stemtype : UInt32) :
    (Morpheus.checkEndCache context stemtype).1.language = context.language := by
  obtain ⟨size, hsize⟩ := checkEndCache_context context stemtype
  rw [hsize]
  exact currentEndingCache_language

/-- A hit answers with the right list, and with its count unless an ending is empty. -/
theorem CacheSound.hit (h : CacheSound lib context) {stemtype : UInt32} {endList : List GkString}
    (hhit : (Morpheus.checkEndCache context stemtype).2 = some endList) (memory : Bool) :
    EndingReply.Direct lib
        ⟨context.language, stemtype, (getCurrentEndList lib context stemtype memory).2⟩ ↔
      hitsEmptyEnding context (.request stemtype memory) = false := by
  obtain ⟨n, hread⟩ := h.checkEndCache hhit
  obtain ⟨-, -, endings, hend, hlen⟩ := loadEndList_spec hread
  have hcount := recount_eq_iff endings
  rw [← hend, hlen] at hcount
  have htake : endList.take (endList.length - 2) = endings := by simp [hend]
  simp only [EndingReply.Direct, getCurrentEndList, hhit, hread, Option.isSome_some, forall_const,
    Option.some.injEq, Prod.mk.injEq, true_and, hcount, hitsEmptyEnding, htake]
  simp

/-- A miss answers with what the file gives, and caches only that. -/
theorem CacheSound.miss (h : CacheSound lib context) {stemtype : UInt32}
    (hmiss : (Morpheus.checkEndCache context stemtype).2 = none) (memory : Bool) :
    CacheSound lib (getCurrentEndList lib context stemtype memory).1 ∧
      EndingReply.Direct lib
        ⟨context.language, stemtype, (getCurrentEndList lib context stemtype memory).2⟩ := by
  cases hload : loadEndList lib context.language stemtype memory with
  | none =>
    simp only [getCurrentEndList, hmiss, hload, EndingReply.Direct]
    exact ⟨h.checked stemtype, by simp⟩
  | some loaded =>
    obtain ⟨endList, lno⟩ := loaded
    obtain ⟨hread, hst, -⟩ := loadEndList_spec hload
    have hown : readEndList lib (Morpheus.checkEndCache context stemtype).1.language
        (stemtypeOf endList) = some (endList, lno) := by
      rw [checkEndCache_language, hst, hread]
    have hins := (h.checked stemtype).insertEndCache hown
    simp only [getCurrentEndList, hmiss, hload, EndingReply.Direct]
    exact ⟨hins, fun _ => hread.symm⟩

/-- The cache stays sound, and an answer is direct exactly when the request does not hit an
empty ending. -/
theorem CacheSound.step (h : CacheSound lib context) (event : EndingEvent) :
    CacheSound lib (event.step lib context).1 ∧
      ((∀ reply ∈ (event.step lib context).2, reply.Direct lib) ↔
        hitsEmptyEnding context event = false) := by
  cases event with
  | setLang n => exact ⟨⟨h.fresh, h.direct⟩, by simp [EndingEvent.step, hitsEmptyEnding]⟩
  | request stemtype memory =>
    simp only [EndingEvent.step, Option.mem_def, Option.some.injEq, forall_eq']
    cases hhit : (Morpheus.checkEndCache context stemtype).2 with
    | some endList =>
      constructor
      · simpa only [getCurrentEndList, hhit] using h.checked stemtype
      · exact h.hit hhit memory
    | none =>
      obtain ⟨hsound, hdirect⟩ := h.miss hhit memory
      have hno : hitsEmptyEnding context (.request stemtype memory) = false := by
        simp [hitsEmptyEnding, hhit]
      exact ⟨hsound, by simp [hdirect, hno]⟩

/-- From a sound cache, the answers are direct exactly when no request hits an empty ending. -/
theorem CacheSound.replies_direct (h : CacheSound lib context) (events : List EndingEvent) :
    (∀ reply ∈ replies lib context events, reply.Direct lib) ↔
      NoEmptyHit lib context events := by
  induction events generalizing context with
  | nil => simp [replies, NoEmptyHit]
  | cons event events ih =>
    obtain ⟨hsound, hstep⟩ := h.step event
    simp only [replies, NoEmptyHit, List.mem_append, Option.mem_toList, or_imp, forall_and]
    exact and_congr hstep (ih hsound)

end

/-- In any run of requests and language switches, the cache answers like the table files
exactly as long as no request hits a cached table with an empty ending. -/
theorem getCurrentEndList_transparent_iff (lib : Stemlib) (events : List EndingEvent) :
    (∀ reply ∈ replies lib .zero events, reply.Direct lib) ↔ NoEmptyHit lib .zero events :=
  (cacheSound_zero lib).replies_direct events

/-- A library with one table, of an ending and an empty one. -/
def emptyEndingLib : Stemlib where
  path := some (ascii "stemlib")
  nameOfStemtype _ stemtype := if stemtype = 5 then ascii "os_ou" else []
  fopen name :=
    if name = ascii "stemlib/Greek/endtables/out/os_ou.out" then
      writeTable 4 [domainSlot, ⟨.zero, List.replicate 60 0, by decide, by decide⟩]
    else none

/-- The second request for a table with an empty ending gets a shorter count. -/
theorem getCurrentEndList_shortens :
    ¬ ∀ reply ∈ replies emptyEndingLib .zero [.request 5 true, .request 5 true],
      reply.Direct emptyEndingLib := by
  rw [(cacheSound_zero emptyEndingLib).replies_direct]
  simp only [NoEmptyHit, and_true, not_and]
  intro _
  decide +kernel

end Morpheus
