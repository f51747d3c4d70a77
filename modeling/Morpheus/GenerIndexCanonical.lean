import Morpheus.GenerIndexRoundTrip

/-!
# Canonical lemmas at run time

The canonicalisation of a request by `morpheus_generate` against the one the index
builder applies to a lemma line.
-/
namespace Morpheus.GenerIndex
open Checked

/-- The failures of `morpheus_generate` that depend on the requested lemma. -/
inductive ApiStatus
  | invalidArgument
  | inputTooLong
  deriving DecidableEq, Repr

/-- The canonicalisation loop, from position `input` on. -/
def canonicalFrom : ℕ → Bytes → Bytes
  | _, [] => []
  | input, byte :: rest =>
    if (input = 0 ∧ byte = 33) ∨ isLemmaMark byte then canonicalFrom (input + 1) rest
    else byte :: canonicalFrom (input + 1) rest

/-- The checks of `morpheus_generate` on the lemma and the canonical lemma it looks up. -/
def canonicalRequest (request : Bytes) : Except ApiStatus Bytes :=
  if request.length = 0 then .error .invalidArgument
  else if request.length ≥ maxWordSize then .error .inputTooLong
  else if 0 ∈ request then .error .invalidArgument
  else
    let canonical := canonicalFrom 0 request
    if canonical = [] then .error .invalidArgument else .ok canonical

/-- The blocks that a request walks once its service is open. -/
def requestRecords (read : Index) (request : Bytes) :
    Checked (Except ApiStatus (Except Status (List (List RecordView)))) :=
  match canonicalRequest request with
  | .error status => .ok (.error status)
  | .ok canonical => do return .ok (← serviceRecords read canonical)

theorem canonicalFrom_succ (input : ℕ) (s : Bytes) :
    canonicalFrom (input + 1) s = s.filter fun c => !isLemmaMark c := by
  induction s generalizing input with
  | nil => rfl
  | cons c s ih => by_cases h : isLemmaMark c <;> simp [canonicalFrom, h, ih]

/-- No byte at which the builder ends a field. -/
def Unbroken (s : Bytes) : Prop := ∀ c ∈ s, isBreak c = false

theorem unbroken_of_isSpace {s : Bytes} (h : ∀ c ∈ s, isSpace c = false) : Unbroken s := by
  intro c hc
  have hs := h c hc
  by_contra hb
  simp only [isBreak, Bool.or_eq_true, beq_iff_eq, Bool.not_eq_false] at hb
  rcases hb with ((rfl | rfl) | rfl) | rfl <;> simp [isSpace] at hs

/-- The two canonicalisations agree on every string without breaks. -/
theorem canonicalLemma_eq {s : Bytes} (h : Unbroken s) : canonicalLemma s = canonicalFrom 0 s := by
  have htake : s.takeWhile (fun c => !isBreak c) = s :=
    List.takeWhile_eq_self_iff.mpr fun c hc => by simp [h c hc]
  unfold canonicalLemma
  rw [htake]
  cases s with
  | nil => rfl
  | cons c s =>
    by_cases hc : c = 33
    · subst hc
      simp [canonicalFrom, canonicalFrom_succ]
    · by_cases hm : isLemmaMark c <;> simp [canonicalFrom, canonicalFrom_succ, hc, hm]

theorem canonicalFrom_sublist (input : ℕ) (s : Bytes) : (canonicalFrom input s).Sublist s := by
  induction s generalizing input with
  | nil => exact .slnil
  | cons c s ih =>
    rw [canonicalFrom]
    split
    · exact (ih _).cons _
    · exact (ih _).cons_cons _

/-- Trimming takes the line end off a field. -/
theorem trim_unbroken {s ending : Bytes} (hne : s ≠ []) (h : Unbroken s)
    (he : ∀ c ∈ ending, isBreak c) : trim (s ++ ending) = s := by
  have hfront : (s ++ ending).dropWhile (fun c => c == 32 || c == 9) = s ++ ending := by
    cases s with
    | nil => exact absurd rfl hne
    | cons c s =>
      have hc := h c (by simp)
      simp only [isBreak, Bool.or_eq_false_iff] at hc
      simp [hc.1.1.1, hc.1.1.2]
  have hall : ending.reverse.dropWhile isBreak = [] :=
    List.dropWhile_eq_nil_iff.mpr fun c hc => he c (List.mem_reverse.mp hc)
  have hback : s.reverse.dropWhile isBreak = s.reverse := by
    cases hr : s.reverse with
    | nil => rfl
    | cons c r =>
      have hc : c ∈ s := List.mem_reverse.mp (hr ▸ List.mem_cons_self)
      simp [h c hc]
  rw [trim, hfront, List.rdropWhile, List.reverse_append, List.dropWhile_append, hall]
  simp [hback]

theorem startsWith_le (s : Bytes) : startsWith (ascii ":le:") (ascii ":le:" ++ s) = true :=
  startsWith_append ..

/-- The content of a lemma line is its tag and the spelling. -/
theorem trim_lemmaLine {s ending : Bytes} (hs : Unbroken s) (hfree : NulFree s)
    (he : ending = [] ∨ ending = [10]) :
    trim (cstr (ascii ":le:" ++ s ++ ending)) = ascii ":le:" ++ s := by
  have hunbroken : Unbroken (ascii ":le:" ++ s) := by
    intro c hc
    rcases List.mem_append.mp hc with hc | hc
    · have htag : (ascii ":le:").all (fun c => !isBreak c) = true := by decide
      simpa using List.all_eq_true.mp htag c hc
    · exact hs c hc
  have hnul : NulFree (ascii ":le:" ++ s ++ ending) := by
    refine nulFree_append.mpr ⟨nulFree_append.mpr ⟨by decide, hfree⟩, ?_⟩
    rcases he with rfl | rfl <;> decide
  rw [cstr_of_nulFree hnul]
  refine trim_unbroken (by simp [ascii]) hunbroken ?_
  rcases he with rfl | rfl <;> simp [isBreak]

theorem canonicalLemma_lemmaLine {s : Bytes} (hne : s ≠ []) (hs : Unbroken s) :
    canonicalLemma (trim ((ascii ":le:" ++ s).drop 4)) = canonicalFrom 0 s := by
  have htrim : trim (s ++ []) = s := trim_unbroken hne hs (by simp)
  rw [List.append_nil] at htrim
  change canonicalLemma (trim s) = _
  rw [htrim, canonicalLemma_eq hs]

theorem parseLine_lemma {s ending : Bytes} (hne : s ≠ []) (hs : Unbroken s) (hfree : NulFree s)
    (hlen : s.length < maxWordSize) (he : ending = [] ∨ ending = [10]) (state : ParseState) :
    parseLine state (ascii ":le:" ++ s ++ ending) =
      if h : canonicalFrom 0 s = [] then .error .invalidLemma
      else .ok ⟨appendBlock state.index (canonicalFrom 0 s)
        ⟨h, hfree.sublist (canonicalFrom_sublist 0 s)⟩, some state.index.blocks.length⟩ := by
  have hshort : (cstr (ascii ":le:" ++ s ++ ending)).length < lineCapacity - 1 := by
    have hle := (List.takeWhile_sublist (l := ascii ":le:" ++ s ++ ending) (· != 0)).length_le
    have htag : (ascii ":le:").length = 4 := rfl
    have hend : ending.length ≤ 1 := by rcases he with rfl | rfl <;> simp
    simp only [List.length_append, htag, maxWordSize] at hle hlen
    simp only [cstr, lineCapacity]
    omega
  have hkey := canonicalLemma_lemmaLine hne hs
  simp only [parseLine, trim_lemmaLine hs hfree he]
  rw [if_neg fun h => hshort.ne h.1]
  unfold parseContent
  rw [if_neg (by simp [ascii]; decide), if_pos (startsWith_le s)]
  simp only [hkey]

/-- What a request is answered, when its text passes the first checks. -/
theorem canonicalRequest_eq {s : Bytes} (hne : s ≠ []) (hfree : NulFree s)
    (hlen : s.length < maxWordSize) :
    canonicalRequest s =
      if canonicalFrom 0 s = [] then .error .invalidArgument else .ok (canonicalFrom 0 s) := by
  rw [canonicalRequest, if_neg (by simpa using hne), if_neg (by omega), if_neg hfree]

theorem canonicalFrom_idem {s : Bytes} (h : (canonicalFrom 0 s).head? ≠ some 33) :
    canonicalFrom 0 (canonicalFrom 0 s) = canonicalFrom 0 s := by
  have hclean : ∀ (input : ℕ) (t : Bytes), ∀ c ∈ canonicalFrom input t, isLemmaMark c = false := by
    intro input t
    induction t generalizing input with
    | nil => simp [canonicalFrom]
    | cons d t ih =>
      rw [canonicalFrom]
      split
      · exact ih _
      · rename_i hd
        intro c hc
        rcases List.mem_cons.mp hc with rfl | hc
        · exact Bool.eq_false_iff.mpr fun hm => hd (.inr hm)
        · exact ih _ c hc
  have hmarks := hclean 0 s
  cases hk : canonicalFrom 0 s with
  | nil => rfl
  | cons c k =>
    rw [hk] at h hmarks
    have hc : c ≠ 33 := by simpa using h
    have hfilter : k.filter (fun c => !isLemmaMark c) = k :=
      List.filter_eq_self.mpr fun d hd => by simp [hmarks d (by simp [hd])]
    simp [canonicalFrom, canonicalFrom_succ, hc, hmarks c (by simp), hfilter]

theorem lineItem_lemmaLine {s ending : Bytes} (hne : s ≠ []) (hs : Unbroken s)
    (hfree : NulFree s) (he : ending = [] ∨ ending = [10]) :
    lineItem (ascii ":le:" ++ s ++ ending) = .opens (canonicalFrom 0 s) := by
  simp only [lineItem, trim_lemmaLine hs hfree he]
  rw [contentItem, if_pos (startsWith_le s), canonicalLemma_lemmaLine hne hs]

/-- A spelling is canonicalised alike in a request and on a lemma line, and refused
alike; a spelling indexed from a source is answered with the blocks of its lemma, the
one its line opens among them; and a canonical lemma asks for itself unless it starts
with `!`. -/
theorem canonicalRequest_agrees (s : Bytes) (hne : s ≠ []) (hspace : ∀ c ∈ s, isSpace c = false)
    (hfree : NulFree s) (hlen : s.length < maxWordSize) :
    (∀ (state : ParseState) (ending : Bytes), ending = [] ∨ ending = [10] →
      (∀ key, canonicalRequest s = .ok key ↔
        ∃ hk, parseLine state (ascii ":le:" ++ s ++ ending) =
          .ok ⟨appendBlock state.index key hk, some state.index.blocks.length⟩) ∧
      (canonicalRequest s = .error .invalidArgument ↔
        parseLine state (ascii ":le:" ++ s ++ ending) = .error .invalidLemma)) ∧
    (∀ (files : List Bytes) (index : SourceIndex) (file : Bytes) (hfit : file.length ≤ sizeMax)
      (read : Index), parseSources emptyIndex files = .ok index → writeIndex index = .ok file →
      validLayout ⟨file, hfit⟩ = .ok read →
      ∀ source ∈ files, ∀ (before after : List Bytes) (ending : Bytes),
        ending = [] ∨ ending = [10] →
        fgetsLines lineCapacity source = before ++ (ascii ":le:" ++ s ++ ending) :: after →
        ownedRecords (after.map lineItem) ≠ [] →
        ∃ key, canonicalRequest s = .ok key ∧
          requestRecords read s = .ok (.ok (.ok ((blocksFor (sourceBlocks files) key).map
            fun records => records.map SourceRecord.view))) ∧
          ownedRecords (after.map lineItem) ∈ blocksFor (sourceBlocks files) key) ∧
    (∀ key, canonicalRequest s = .ok key → key.head? ≠ some 33 →
      ∀ read, requestRecords read key = requestRecords read s) := by
  have hs := unbroken_of_isSpace hspace
  have hreq := canonicalRequest_eq hne hfree hlen
  refine ⟨fun state ending he => ?_, ?_, fun key hkey hbang read => ?_⟩
  · rw [parseLine_lemma hne hs hfree hlen he state, hreq]
    by_cases hk : canonicalFrom 0 s = []
    · simp [hk]
    · simp only [hk, if_false, dite_false, Except.ok.injEq, reduceCtorEq, iff_self, and_true]
      intro key
      constructor
      · rintro rfl
        exact ⟨⟨hk, hfree.sublist (canonicalFrom_sublist 0 s)⟩, rfl⟩
      · rintro ⟨hk', h⟩
        have hblocks := congrArg (fun state : ParseState => state.index.blocks) h
        simpa [appendBlock] using hblocks
  · intro files index file hfit read hparse hwrite hread source hsource before after ending he
      hlines hrecords
    obtain ⟨hfit', hread'⟩ := validLayout_of_writeIndex hwrite
    obtain rfl : _ = read := Except.ok.inj (hread'.symm.trans hread)
    have hmem := mem_sourceBlocks hsource hlines (lineItem_lemmaLine hne hs hfree he)
    obtain ⟨-, hrec⟩ := lookup_of_source hparse hwrite ⟨_, hmem, hrecords⟩
    have hpairs : index.pairs = sourceBlocks files := parseSources_pairs hparse
    have hk : canonicalFrom 0 s ≠ [] := by
      rw [← hpairs] at hmem
      obtain ⟨b, -, hb⟩ := List.mem_map.mp hmem
      exact (Prod.mk.inj hb).1 ▸ b.key_ok.1
    rw [if_neg hk] at hreq
    refine ⟨_, hreq, ?_, mem_blocksFor.mpr ⟨hmem, hrecords⟩⟩
    rw [requestRecords, hreq]
    simp only [hrec]
    rfl
  · rw [hreq] at hkey
    split at hkey
    · cases hkey
    · rename_i hk
      obtain rfl := Except.ok.inj hkey
      have hsub := canonicalFrom_sublist 0 s
      have hagain := canonicalRequest_eq hk (hfree.sublist hsub) (hsub.length_le.trans_lt hlen)
      rw [canonicalFrom_idem hbang, if_neg hk] at hagain
      rw [requestRecords, requestRecords, hagain, hreq, if_neg hk]

/-- A spelling with marks is indexed without them, and the request that has them walks
the block of its line. -/
theorem canonicalRequest_agrees_sample :
    canonicalRequest (ascii "!a)na-ba/llw") = .ok (ascii "a)naba/llw") ∧
      (∃ next, parseLine ⟨emptyIndex, none⟩ (ascii ":le:" ++ ascii "!a)na-ba/llw" ++ [10]) =
        .ok next) ∧
      ∃ (file : Bytes) (hfit : file.length ≤ sizeMax) (read : Index),
        writeIndex sampleIndex = .ok file ∧ validLayout ⟨file, hfit⟩ = .ok read ∧
        requestRecords read (ascii "!a)na-ba/llw") =
          .ok (.ok (.ok [[⟨3, some (ascii "bal"), some (ascii "aor2")⟩]])) ∧
        requestRecords read (ascii "a)naba/llw") =
          requestRecords read (ascii "!a)na-ba/llw") := by
  have hspace : (ascii "!a)na-ba/llw").all (fun c => !isSpace c) = true := by decide
  obtain ⟨hline, hfound, hagain⟩ := canonicalRequest_agrees (ascii "!a)na-ba/llw") (by decide)
    (fun c hc => by simpa using List.all_eq_true.mp hspace c hc) (by decide) (by decide)
  have hkey : canonicalRequest (ascii "!a)na-ba/llw") = .ok (ascii "a)naba/llw") := by decide
  obtain ⟨hk, hnext⟩ := ((hline ⟨emptyIndex, none⟩ [10] (by decide)).1 _).mp hkey
  obtain ⟨hfit, hread⟩ := validLayout_of_writeIndex writeIndex_sampleIndex
  have hlines : fgetsLines lineCapacity sampleSource =
      (fgetsLines lineCapacity sampleSource).take 3 ++
        (ascii ":le:" ++ ascii "!a)na-ba/llw" ++ [10]) ::
        (fgetsLines lineCapacity sampleSource).drop 4 := by
    decide +kernel
  obtain ⟨key, hkey', hrecords, -⟩ := hfound [sampleSource] sampleIndex _ hfit _
    parseSources_sampleSource writeIndex_sampleIndex hread sampleSource (by simp) _ _ [10]
    (.inr rfl) hlines (by decide +kernel)
  obtain rfl := Except.ok.inj (hkey'.symm.trans hkey)
  rw [sourceBlocks_sampleSource] at hrecords
  exact ⟨hkey, ⟨_, hnext⟩, _, hfit, _, writeIndex_sampleIndex, hread,
    hrecords.trans (by decide +kernel), hagain _ hkey (by decide) _⟩

end Morpheus.GenerIndex
