import Morpheus.GenerPreparer

/-!
# The derivation law of the preparer

What a source asks for, read off the order of its lines: which derivation is in force
at a line, whether its default request is still pending, and which base a continuation
belongs to. Lists of earlier lines have the most recent line first. The state of the
preparer follows the lines, so an accepted file is expanded exactly as they say.
-/
namespace Morpheus.GenerSource

open GenerIndex

/-- The values of a `:de:` line. -/
structure Derivation where
  stem : Bytes
  type : Bytes
  keys : Bytes
  deriving DecidableEq, Repr

def Derivation.expansion (d : Derivation) (request : Bytes) : Expansion :=
  ⟨d.stem, d.type, d.keys, request⟩

/-- What a line means to the preparer; the last two only stand in an exception manifest. -/
inductive SourceLine
  | lemmaLine (content : Bytes)
  | record (content base : Bytes)
  | derivation (d : Derivation)
  | request (part text : Bytes)
  | continuation (text : Bytes)
  | other
  | zeroRequest (part : Bytes)
  | invalidDerivation
  deriving DecidableEq, Repr

/-- The values of a well-formed `:de:` line. -/
def derivationOf (content : Bytes) : Option Derivation := do
  let (stem, rest) ← takeToken (content.drop 4) maxWordSize
  let (type, rest) ← takeToken rest maxWordSize
  some ⟨stem, type, trim rest⟩

/-- The principal part of a `;` line. -/
def principalPart (content : Bytes) : Option Bytes :=
  (takeToken (content.drop 1) longString).map (·.1)

/-- The meaning of a trimmed line. -/
def classify (content : Bytes) : SourceLine :=
  if startsWith (ascii ":le:") content then .lemmaLine content
  else if isGenerationRecord content then .record content ((basePrefix content).getD [])
  else if content.head? = some 64 then .continuation (content.drop 1)
  else if startsWith (ascii ":de:") content then
    ((derivationOf content).map SourceLine.derivation).getD .other
  else if content.head? = some 59 then
    .request ((principalPart content).getD []) (trim (content.drop 1))
  else .other

/-- The derivation in force: the last `:de:` with no lemma and no `:no:`, `:aj:` or `:vs:`
record since. -/
def inForce : List SourceLine → Option Derivation
  | [] => none
  | .lemmaLine _ :: _ => none
  | .invalidDerivation :: _ => none
  | .record content _ :: past => if clearsDerivation content then none else inForce past
  | .derivation d :: _ => some d
  | _ :: past => inForce past

/-- The derivation in force if it has had no `;` yet. -/
def pending : List SourceLine → Option Derivation
  | [] => none
  | .lemmaLine _ :: _ => none
  | .invalidDerivation :: _ => none
  | .record content _ :: past => if clearsDerivation content then none else pending past
  | .derivation d :: _ => some d
  | .request _ _ :: _ => none
  | .zeroRequest _ :: _ => none
  | _ :: past => pending past

/-- The kind of the most recent base: a record, a `:de:` or a `;`. -/
def lastBase : List SourceLine → BaseKind
  | [] => .none
  | .lemmaLine _ :: _ => .none
  | .invalidDerivation :: _ => .none
  | .record _ _ :: _ => .direct
  | .derivation _ :: _ => .derivation
  | .request _ _ :: _ => .derivation
  | .zeroRequest _ :: _ => .derivation
  | _ :: past => lastBase past

/-- The principal part of the last `;` behind the last `:de:`. -/
def lastPart : List SourceLine → Bytes
  | [] => []
  | .derivation _ :: _ => []
  | .request part _ :: _ => part
  | .zeroRequest part :: _ => part
  | _ :: past => lastPart past

/-- The first two fields of the last record. -/
def lastPrefix : List SourceLine → Bytes
  | [] => []
  | .record _ base :: _ => base
  | _ :: past => lastPrefix past

/-- A piece of the output: a copied line, or the record of an expansion. -/
inductive Written
  | copied (line : Bytes)
  | expanded (e : Expansion)
  deriving DecidableEq, Repr

def Written.expansion? : Written → Option Expansion
  | copied _ => none
  | expanded e => some e

/-- The default request of a derivation that ends without a `;`. -/
def flushed (past : List SourceLine) : List Written :=
  (pending past).toList.map fun d => .expanded (d.expansion defaultRequest)

/-- What a line adds to the output. -/
def writtenAt (past : List SourceLine) : SourceLine → List Written
  | .lemmaLine content => flushed past ++ [.copied content]
  | .record content _ => [.copied content]
  | .derivation _ => flushed past
  | .invalidDerivation => flushed past
  | .request _ text => (inForce past).toList.map fun d => .expanded (d.expansion text)
  | .continuation text =>
    if lastBase past = .derivation then
      (inForce past).toList.map fun d => .expanded (d.expansion (continued (lastPart past) text))
    else [.copied (lastPrefix past ++ text)]
  | .other => []
  | .zeroRequest _ => []

/-- What the lines behind `past` add, with the end of the file. -/
def writtenFrom : List SourceLine → List SourceLine → List Written
  | past, [] => flushed past
  | past, line :: lines => writtenAt past line ++ writtenFrom (line :: past) lines

/-- The expansions that a source asks for. -/
def requested (lines : List SourceLine) : List Expansion :=
  (writtenFrom [] lines).filterMap Written.expansion?

/-- The exception of a line of the file at `path`. -/
def exceptionOf (exceptions : List SourceException) (path : Bytes) (lineNumber : ℕ) :
    Option ExceptionKind :=
  (findException exceptions path lineNumber).bind fun item => (exceptions[item]?).map (·.kind)

/-- The meaning of a line that an exception names. -/
def classifyException (content : Bytes) : ExceptionKind → SourceLine
  | .invalidDerivation => .invalidDerivation
  | .zeroRequest => .zeroRequest ((principalPart content).getD [])
  | _ => .other

/-- The meaning of line `lineNumber`, and whether requests and continuations are skipped
behind it. -/
def lineMeaning (exceptions : List SourceException) (path : Bytes) (lineNumber : ℕ) (skip : Bool)
    (line : Bytes) : SourceLine × Bool :=
  let content := trim (cstr line)
  if isIgnored content || (skip && isUnexpanded content) then (.other, skip)
  else
    match exceptionOf exceptions path lineNumber with
    | none => (classify content, false)
    | some kind => (classifyException content kind, kind == .invalidDerivation)

/-- The meanings of the lines of a file behind the first `lineNumber`. -/
def meaningFrom (exceptions : List SourceException) (path : Bytes) :
    ℕ → Bool → List Bytes → List SourceLine
  | _, _, [] => []
  | lineNumber, skip, line :: lines =>
    let meaning := lineMeaning exceptions path (lineNumber + 1) skip line
    meaning.1 :: meaningFrom exceptions path (lineNumber + 1) meaning.2 lines

/-- The meanings of the lines of a file under a manifest of exceptions. -/
def meaning (exceptions : List SourceException) (path file : Bytes) : List SourceLine :=
  meaningFrom exceptions path 0 false (fgetsLines lineCapacity file)

/-- The lines of a file, when no exception names one of them. -/
def sourceLines (file : Bytes) : List SourceLine :=
  (fgetsLines lineCapacity file).map fun line => classify (trim (cstr line))

def Written.render (env : PrepareEnv) : Written → Bytes
  | copied line => line ++ [10]
  | expanded e => (env.expand e).getD []

theorem bind_eq_prepared {α β : Type} {x : Prepared α} {f : α → Prepared β} {b : β} :
    (x >>= f) = .ok b ↔ ∃ a, x = .ok a ∧ f a = .ok b := by
  cases x with
  | error problem =>
    constructor
    · intro h
      cases h
    · intro h
      obtain ⟨a, ha, -⟩ := h
      cases ha
  | ok a =>
    constructor
    · intro h
      exact ⟨a, rfl, h⟩
    · intro h
      obtain ⟨a', ha, h⟩ := h
      cases ha
      exact h

theorem map_eq_prepared {α β : Type} {x : Prepared α} {f : α → β} {b : β} :
    x.map f = .ok b ↔ ∃ a, x = .ok a ∧ f a = b := by
  cases x with
  | error problem => simp [Except.map]
  | ok a => simp [Except.map]

/-- The pieces `items` were written between the two states. -/
structure Wrote (env : PrepareEnv) (state state' : PrepareState) (items : List Written) : Prop where
  output : state'.output = state.output ++ items.flatMap (Written.render env)
  expansions : state'.expansions = state.expansions ++ items.filterMap Written.expansion?
  done : ∀ e, .expanded e ∈ items → ∃ record, env.expand e = some record

section
variable {env : PrepareEnv} {path : Bytes} {lineNumber : ℕ} {state state' state'' : PrepareState}

theorem Wrote.nothing (ho : state'.output = state.output)
    (he : state'.expansions = state.expansions) : Wrote env state state' [] where
  output := by simp [ho]
  expansions := by simp [he]
  done := by simp

theorem Wrote.trans {items items' : List Written} (h : Wrote env state state' items)
    (h' : Wrote env state' state'' items') : Wrote env state state'' (items ++ items') where
  output := by rw [h'.output, h.output, List.flatMap_append, List.append_assoc]
  expansions := by rw [h'.expansions, h.expansions, List.filterMap_append, List.append_assoc]
  done := by
    intro e he
    rcases List.mem_append.mp he with he | he
    · exact h.done e he
    · exact h'.done e he

theorem appendBytes_ok {data : Bytes}
    (h : appendBytes env path lineNumber state data = .ok state') :
    state' = { state with output := state.output ++ data } := by
  unfold appendBytes at h
  split_ifs at h
  cases h
  rfl

theorem writeLine_ok {line : Bytes} (h : writeLine env path lineNumber state line = .ok state') :
    state' = { state with output := state.output ++ (line ++ [10]) } :=
  appendBytes_ok h

theorem writeLine_wrote {line : Bytes}
    (h : writeLine env path lineNumber state line = .ok state') :
    Wrote env state state' [.copied line] := by
  rw [writeLine_ok h]
  exact ⟨by simp [Written.render], by simp [Written.expansion?], by simp⟩

theorem expandRequest_ok {request : Bytes}
    (h : expandRequest env path lineNumber state request = .ok state') :
    ∃ record, env.expand (state.expansion request) = some record ∧
      state' = { state with
        output := state.output ++ record
        expansions := state.expansions ++ [state.expansion request] } := by
  unfold expandRequest at h
  split_ifs at h
  cases hrecord : env.expand (state.expansion request) with
  | none =>
    rw [hrecord] at h
    cases h
  | some record =>
    rw [hrecord] at h
    exact ⟨record, rfl, appendBytes_ok h⟩

theorem expandRequest_wrote {request : Bytes}
    (h : expandRequest env path lineNumber state request = .ok state') :
    Wrote env state state' [.expanded (state.expansion request)] := by
  obtain ⟨record, hrecord, rfl⟩ := expandRequest_ok h
  refine ⟨by simp [Written.render, hrecord], by simp [Written.expansion?], ?_⟩
  intro e he
  obtain rfl : e = state.expansion request := by simpa using he
  exact ⟨record, hrecord⟩

end

def SourceLine.isLemma : SourceLine → Bool
  | .lemmaLine _ => true
  | _ => false

/-- The state of the preparer behind the lines `past` of a file. -/
structure Follows (past : List SourceLine) (state : PrepareState) : Prop where
  force : inForce past = if state.haveDerivation then
    some ⟨state.derivationStem, state.derivationType, state.derivationKeys⟩ else none
  pend : pending past = if state.haveExplicitRequest then none else inForce past
  base : state.base = lastBase past
  saved : lastBase past = .derivation →
    state.haveDerivation = true ∧ state.savedRequest = lastPart past
  record : lastBase past = .direct → state.basePrefix = some (lastPrefix past)
  opened : state.haveLemma = past.any SourceLine.isLemma
  covered : state.haveDerivation = true ∨ state.base ≠ .none → state.haveLemma = true

section
variable {env : PrepareEnv} {path : Bytes} {lineNumber : ℕ} {past : List SourceLine}
variable {state state' : PrepareState} {content : Bytes}

theorem follows_start (state : PrepareState) : Follows [] (startFile state) where
  force := rfl
  pend := rfl
  base := rfl
  saved := by simp [lastBase]
  record := by simp [lastBase]
  opened := rfl
  covered := by simp [startFile]

/-- A line that means nothing keeps the state. -/
theorem Follows.other (h : Follows past state) : Follows (.other :: past) state where
  force := h.force
  pend := h.pend
  base := h.base
  saved := h.saved
  record := h.record
  opened := h.opened
  covered := h.covered

theorem flushDerivation_keeps (hok : flushDerivation env path lineNumber state = .ok state') :
    state'.haveLemma = state.haveLemma := by
  unfold flushDerivation at hok
  split_ifs at hok
  · cases hok
    rfl
  · obtain ⟨record, -, rfl⟩ := expandRequest_ok hok
    rfl

/-- The flush writes the default request when it is pending. -/
theorem Follows.flush (h : Follows past state)
    (hok : flushDerivation env path lineNumber state = .ok state') :
    Wrote env state state' (flushed past) := by
  have hforce := h.force
  have hpend := h.pend
  unfold flushDerivation at hok
  unfold flushed
  cases hhave : state.haveDerivation with
  | false =>
    have hnone : pending past = none := by
      rw [hpend, hforce, hhave]
      simp
    simp only [hhave, Bool.not_false, Bool.true_or, ↓reduceIte] at hok
    cases hok
    rw [hnone]
    exact .nothing rfl rfl
  | true =>
    cases hexplicit : state.haveExplicitRequest with
    | true =>
      simp only [hhave, hexplicit, Bool.or_true, ↓reduceIte] at hok
      cases hok
      rw [hpend, hexplicit]
      exact .nothing rfl rfl
    | false =>
      simp only [hhave, hexplicit, Bool.not_true, Bool.or_self, Bool.false_eq_true,
        ↓reduceIte] at hok
      rw [hpend, hexplicit, hforce, hhave]
      have hwrote := expandRequest_wrote hok
      exact ⟨hwrote.output, hwrote.expansions, hwrote.done⟩

/-- A default request is pending only behind a lemma. -/
theorem Follows.flushed_opened (h : Follows past state) :
    flushed past = [] ∨ past.any SourceLine.isLemma = true := by
  by_cases hf : flushed past = []
  · exact .inl hf
  right
  rw [← h.opened]
  apply h.covered
  left
  by_contra hhave
  apply hf
  unfold flushed
  rw [h.pend, h.force]
  simp [hhave]

theorem Follows.prepareLemma (h : Follows past state)
    (hok : prepareLemma env path lineNumber state content = .ok state') :
    Follows (.lemmaLine content :: past) state' ∧
      Wrote env state state' (writtenAt past (.lemmaLine content)) := by
  unfold GenerSource.prepareLemma at hok
  obtain ⟨flushedState, hflush, hwrite⟩ := bind_eq_prepared.mp hok
  split_ifs at hwrite
  have hstate := writeLine_ok hwrite
  have hwrote := writeLine_wrote hwrite
  constructor
  · rw [hstate]
    exact ⟨rfl, rfl, rfl, by simp [lastBase], by simp [lastBase], rfl, fun _ => rfl⟩
  · exact (h.flush hflush).trans ⟨hwrote.output, hwrote.expansions, hwrote.done⟩

theorem Follows.prepareRecord (h : Follows past state)
    (hok : prepareRecord env path lineNumber state content = .ok state') :
    Follows (.record content ((basePrefix content).getD []) :: past) state' ∧
      Wrote env state state' (writtenAt past (.record content ((basePrefix content).getD []))) ∧
      basePrefix content = some ((basePrefix content).getD []) ∧
      past.any SourceLine.isLemma = true := by
  unfold GenerSource.prepareRecord at hok
  have hopen : state.haveLemma = true := by
    by_contra hnot
    rw [if_pos (by simpa using hnot)] at hok
    cases hok
  rw [if_neg (by simp [hopen])] at hok
  cases hpref : basePrefix content with
  | none =>
    rw [hpref] at hok
    cases hok
  | some prefix_ =>
    rw [hpref] at hok
    dsimp only at hok
    split_ifs at hok with _ hclears
    · have hstate := writeLine_ok hok
      have hwrote := writeLine_wrote hok
      refine ⟨?_, ⟨hwrote.output, hwrote.expansions, hwrote.done⟩, rfl, h.opened ▸ hopen⟩
      rw [hstate]
      refine ⟨?_, ?_, rfl, by simp [lastBase], fun _ => rfl, ?_, fun _ => hopen⟩
      · simp [inForce, hclears]
      · simp [pending, inForce, hclears]
      · simpa [SourceLine.isLemma] using h.opened
    · have hstate := writeLine_ok hok
      have hwrote := writeLine_wrote hok
      refine ⟨?_, ⟨hwrote.output, hwrote.expansions, hwrote.done⟩, rfl, h.opened ▸ hopen⟩
      rw [hstate]
      refine ⟨?_, ?_, rfl, by simp [lastBase], fun _ => rfl, ?_, fun _ => hopen⟩
      · simp only [inForce, hclears]
        exact h.force
      · simp only [pending, inForce, hclears]
        exact h.pend
      · simpa [SourceLine.isLemma] using h.opened

theorem writtenAt_continuation (text : Bytes) :
    writtenAt past (.continuation text) =
      if lastBase past = .derivation then
        (inForce past).toList.map fun d => .expanded (d.expansion (continued (lastPart past) text))
      else [.copied (lastPrefix past ++ text)] := rfl

/-- What stands behind a request or a continuation of a derivation: there is a derivation in
force, and the continuation has a principal part. -/
def Grounded (past : List SourceLine) : SourceLine → Prop
  | .request _ _ => ∃ d, inForce past = some d
  | .continuation _ =>
    lastBase past = .derivation → (∃ d, inForce past = some d) ∧ lastPart past ≠ []
  | _ => True

theorem Follows.prepareContinuation (h : Follows past state)
    (hok : prepareContinuation env path lineNumber state content = .ok state') :
    Follows (.continuation (content.drop 1) :: past) state' ∧
      Wrote env state state' (writtenAt past (.continuation (content.drop 1))) ∧
      lastBase past ≠ .none ∧ past.any SourceLine.isLemma = true ∧
      Grounded past (.continuation (content.drop 1)) := by
  unfold GenerSource.prepareContinuation at hok
  have hlemma : state.haveLemma = true := by
    by_contra hnot
    rw [if_pos (by simpa using hnot)] at hok
    cases hok
  have hopen : past.any SourceLine.isLemma = true := h.opened ▸ hlemma
  rw [if_neg (by simp [hlemma])] at hok
  rw [writtenAt_continuation]
  cases hbase : state.base with
  | none =>
    rw [hbase] at hok
    cases hok
  | direct =>
    rw [hbase] at hok
    have hlast : lastBase past = .direct := h.base ▸ hbase
    have hstate := writeLine_ok hok
    have hwrote := writeLine_wrote hok
    rw [h.record hlast, Option.getD_some] at hwrote
    have hgrounded : Grounded past (.continuation (content.drop 1)) :=
      fun hderivation => by cases hlast.symm.trans hderivation
    rw [hlast, if_neg (by decide)]
    refine ⟨?_, hwrote, by decide, hopen, hgrounded⟩
    rw [hstate]
    exact ⟨h.force, h.pend, h.base, h.saved, h.record, h.opened, h.covered⟩
  | derivation =>
    rw [hbase] at hok
    have hlast : lastBase past = .derivation := h.base ▸ hbase
    obtain ⟨hhave, hsaved⟩ := h.saved hlast
    dsimp only at hok
    split_ifs at hok with hpart hlong
    have hwrote := expandRequest_wrote hok
    obtain ⟨record, -, hstate⟩ := expandRequest_ok hok
    have hforce := h.force
    rw [hhave] at hforce
    have hgrounded : Grounded past (.continuation (content.drop 1)) :=
      fun _ => ⟨⟨_, hforce⟩, hsaved ▸ hpart⟩
    rw [hlast, if_pos rfl, hforce, ← hsaved]
    refine ⟨?_, hwrote, by decide, hopen, hgrounded⟩
    rw [hstate]
    exact ⟨h.force, h.pend, h.base, h.saved, h.record, h.opened, h.covered⟩

theorem Follows.prepareDerivation (h : Follows past state)
    (hok : prepareDerivation env path lineNumber state content = .ok state') :
    ∃ d, derivationOf content = some d ∧ Follows (.derivation d :: past) state' ∧
      Wrote env state state' (writtenAt past (.derivation d)) ∧
      past.any SourceLine.isLemma = true := by
  unfold GenerSource.prepareDerivation at hok
  split_ifs at hok with hbad
  have hopen : state.haveLemma = true := by
    by_contra hnot
    exact hbad (by simp [hnot])
  obtain ⟨flushedState, hflush, hrest⟩ := bind_eq_prepared.mp hok
  have hkeeps := flushDerivation_keeps hflush
  cases hstem : takeToken (content.drop 4) maxWordSize with
  | none =>
    rw [hstem] at hrest
    cases hrest
  | some stem =>
    rw [hstem] at hrest
    dsimp only at hrest
    cases htype : takeToken stem.2 maxWordSize with
    | none =>
      rw [htype] at hrest
      cases hrest
    | some type =>
      rw [htype] at hrest
      dsimp only at hrest
      split_ifs at hrest with hname
      unfold copyText at hrest
      split_ifs at hrest with hkeys
      cases hrest
      refine ⟨⟨stem.1, type.1, trim type.2⟩, ?_, ?_, ?_, h.opened ▸ hopen⟩
      · simp [derivationOf, hstem, htype]
      · refine ⟨rfl, rfl, rfl, fun _ => ⟨rfl, rfl⟩, by simp [lastBase], ?_, ?_⟩
        · simpa [SourceLine.isLemma, hkeeps] using h.opened
        · intro _
          exact hkeeps.trans hopen
      · have hwrote := h.flush hflush
        exact ⟨hwrote.output, hwrote.expansions, hwrote.done⟩

theorem Follows.prepareRequest (h : Follows past state)
    (hok : prepareRequest env path lineNumber state content = .ok state') :
    Follows (.request ((principalPart content).getD []) (trim (content.drop 1)) :: past) state' ∧
      Wrote env state state'
        (writtenAt past (.request ((principalPart content).getD []) (trim (content.drop 1)))) ∧
      past.any SourceLine.isLemma = true ∧
      Grounded past (.request ((principalPart content).getD []) (trim (content.drop 1))) := by
  unfold GenerSource.prepareRequest at hok
  split_ifs at hok with hhave
  have hin : state.haveDerivation = true := by simpa using hhave
  unfold copyText at hok
  cases hpart : takeToken (content.drop 1) longString with
  | none =>
    rw [hpart] at hok
    cases hok
  | some part =>
    rw [hpart] at hok
    split_ifs at hok with hfits
    have hwrote := expandRequest_wrote hok
    obtain ⟨record, -, hstate⟩ := expandRequest_ok hok
    have hforce := h.force
    rw [hin] at hforce
    have hcovered := h.covered (.inl hin)
    refine ⟨?_, ?_, h.opened ▸ hcovered, ⟨_, hforce⟩⟩
    · rw [hstate]
      refine ⟨h.force, rfl, rfl, fun _ => ⟨hin, ?_⟩, by simp [lastBase], ?_, fun _ => hcovered⟩
      · simp only [lastPart, principalPart, hpart, Option.map_some, Option.getD_some]
      · simpa [SourceLine.isLemma] using h.opened
    · unfold writtenAt
      rw [hforce]
      exact ⟨hwrote.output, hwrote.expansions, hwrote.done⟩

/-- Where a line may stand: records, derivations and their requests behind a lemma, a
continuation behind a base. -/
def Admissible (past : List SourceLine) : SourceLine → Prop
  | .lemmaLine content =>
    startsWith (ascii ":le:") content = true ∧
      (flushed past = [] ∨ past.any SourceLine.isLemma = true)
  | .record content base =>
    isGenerationRecord content = true ∧ basePrefix content = some base ∧
      past.any SourceLine.isLemma = true
  | .continuation _ => lastBase past ≠ .none ∧ past.any SourceLine.isLemma = true
  | .derivation _ => past.any SourceLine.isLemma = true
  | .request _ _ => past.any SourceLine.isLemma = true
  | .invalidDerivation => flushed past = [] ∨ past.any SourceLine.isLemma = true
  | .other => True
  | .zeroRequest _ => True

/-- What an accepted line does: the state follows it, and it writes what it asks for. -/
structure Step (env : PrepareEnv) (past : List SourceLine) (line : SourceLine)
    (state state' : PrepareState) : Prop where
  follows : Follows (line :: past) state'
  wrote : Wrote env state state' (writtenAt past line)
  admissible : Admissible past line
  grounded : Grounded past line

theorem Follows.prepareContent (h : Follows past state)
    (hok : prepareContent env path lineNumber state content = .ok state') :
    Step env past (classify content) state state' := by
  unfold GenerSource.prepareContent at hok
  unfold classify
  split_ifs at hok ⊢ with hlemma hrecord hcontinuation hderivation hrequest
  · obtain ⟨hfollows, hwrote⟩ := h.prepareLemma hok
    exact ⟨hfollows, hwrote, ⟨hlemma, h.flushed_opened⟩, trivial⟩
  · obtain ⟨hfollows, hwrote, hpref, hopen⟩ := h.prepareRecord hok
    exact ⟨hfollows, hwrote, ⟨hrecord, hpref, hopen⟩, trivial⟩
  · obtain ⟨hfollows, hwrote, hbase, hopen, hgrounded⟩ := h.prepareContinuation hok
    exact ⟨hfollows, hwrote, ⟨hbase, hopen⟩, hgrounded⟩
  · obtain ⟨d, hd, hfollows, hwrote, hopen⟩ := h.prepareDerivation hok
    rw [hd]
    exact ⟨hfollows, hwrote, hopen, trivial⟩
  · obtain ⟨hfollows, hwrote, hopen, hgrounded⟩ := h.prepareRequest hok
    exact ⟨hfollows, hwrote, hopen, hgrounded⟩
  · cases hok
    exact ⟨h.other, .nothing rfl rfl, trivial, trivial⟩

theorem writeLine_skip {line : Bytes}
    (h : writeLine env path lineNumber state line = .ok state') :
    state'.skipInvalidDerivation = state.skipInvalidDerivation := by
  rw [writeLine_ok h]

theorem expandRequest_skip {request : Bytes}
    (h : expandRequest env path lineNumber state request = .ok state') :
    state'.skipInvalidDerivation = state.skipInvalidDerivation := by
  obtain ⟨record, -, rfl⟩ := expandRequest_ok h
  rfl

theorem flushDerivation_skip (hok : flushDerivation env path lineNumber state = .ok state') :
    state'.skipInvalidDerivation = state.skipInvalidDerivation := by
  unfold flushDerivation at hok
  split_ifs at hok
  · cases hok
    rfl
  · exact (expandRequest_skip hok :)

/-- Only an exception sets the mark that skips requests. -/
theorem prepareContent_skip (hok : prepareContent env path lineNumber state content = .ok state') :
    state'.skipInvalidDerivation = state.skipInvalidDerivation := by
  unfold prepareContent at hok
  split_ifs at hok
  · unfold prepareLemma at hok
    obtain ⟨flushedState, hflush, hwrite⟩ := bind_eq_prepared.mp hok
    split_ifs at hwrite
    rw [← flushDerivation_skip hflush]
    exact (writeLine_skip hwrite :)
  · unfold prepareRecord at hok
    split at hok
    · cases hok
    · split at hok
      · cases hok
      · dsimp only at hok
        split_ifs at hok
        · exact (writeLine_skip hok :)
        · exact (writeLine_skip hok :)
  · unfold prepareContinuation at hok
    split at hok
    · cases hok
    · split at hok
      · cases hok
      · exact (writeLine_skip hok :)
      · dsimp only at hok
        split_ifs at hok
        exact (expandRequest_skip hok :)
  · unfold prepareDerivation at hok
    split at hok
    · cases hok
    · obtain ⟨flushedState, hflush, hrest⟩ := bind_eq_prepared.mp hok
      have hskip := flushDerivation_skip hflush
      split at hrest
      · cases hrest
      · split at hrest
        · cases hrest
        · split at hrest
          · cases hrest
          · split at hrest
            · cases hrest
            · cases hrest
              exact hskip
  · unfold prepareRequest at hok
    split at hok
    · cases hok
    · split at hok
      · exact (expandRequest_skip hok :)
      · cases hok
  · cases hok
    rfl

/-- An accepted exception acts like a line of its kind. -/
theorem Follows.applyKind (h : Follows past state) {kind : ExceptionKind}
    (hok : applyKind env path lineNumber state content kind = .ok state') :
    Step env past (classifyException content kind) state state' ∧
      state'.skipInvalidDerivation = (state.skipInvalidDerivation || kind == .invalidDerivation) := by
  have hother : state' = state → Step env past .other state state' := by
    intro heq
    rw [heq]
    exact ⟨h.other, .nothing rfl rfl, trivial, trivial⟩
  cases kind with
  | invalidDerivation =>
    simp only [GenerSource.applyKind] at hok
    split_ifs at hok
    obtain ⟨flushedState, hflush, hrest⟩ := bind_eq_prepared.mp hok
    cases hrest
    have hwrote := h.flush hflush
    have hopened := (flushDerivation_keeps hflush).trans h.opened
    refine ⟨⟨?_, ⟨hwrote.output, hwrote.expansions, hwrote.done⟩, ?_, trivial⟩, by simp⟩
    · exact ⟨rfl, rfl, rfl, by simp [lastBase, classifyException],
        by simp [lastBase, classifyException], hopened, by simp⟩
    · exact h.flushed_opened
  | zeroRequest =>
    simp only [GenerSource.applyKind] at hok
    split at hok
    · cases hok
    · rename_i hbad
      have hin : state.haveDerivation = true := by
        by_contra hnot
        exact hbad (.inr (by simpa using hnot))
      split at hok
      · cases hok
      · rename_i token rest hpart
        cases hok
        have hlemma := h.covered (.inl hin)
        refine ⟨⟨?_, .nothing rfl rfl, trivial, trivial⟩, by simp⟩
        refine ⟨h.force, rfl, rfl, fun _ => ⟨hin, ?_⟩, by simp [lastBase, classifyException],
          ?_, fun _ => hlemma⟩
        · simp only [classifyException, lastPart, principalPart, hpart, Option.map_some,
            Option.getD_some]
        · simpa [classifyException, SourceLine.isLemma] using h.opened
  | invalidRecord =>
    simp only [GenerSource.applyKind] at hok
    split_ifs at hok
    cases hok
    exact ⟨hother rfl, by simp⟩
  | orphanContinuation =>
    simp only [GenerSource.applyKind] at hok
    split_ifs at hok
    cases hok
    exact ⟨hother rfl, by simp⟩
  | orphanRequest =>
    simp only [GenerSource.applyKind] at hok
    split_ifs at hok
    cases hok
    exact ⟨hother rfl, by simp⟩
  | zeroContinuation =>
    simp only [GenerSource.applyKind] at hok
    split_ifs at hok
    cases hok
    exact ⟨hother rfl, by simp⟩

/-- What an exception is looked up by. -/
def SourceException.key (e : SourceException) : Bytes × ℕ × ExceptionKind :=
  (e.path, e.lineNumber, e.kind)

theorem findException_congr {exceptions exceptions' : List SourceException}
    (h : exceptions'.map SourceException.key = exceptions.map SourceException.key) :
    findException exceptions' path lineNumber = findException exceptions path lineNumber := by
  have hkey : ∀ l : List SourceException, findException l path lineNumber =
      (l.map SourceException.key).findIdx? fun key =>
        key.2.1 == lineNumber && pathHasSuffix path key.1 := by
    intro l
    rw [List.findIdx?_map]
    rfl
  rw [hkey, hkey, h]

theorem exceptionOf_congr {exceptions exceptions' : List SourceException}
    (h : exceptions'.map SourceException.key = exceptions.map SourceException.key) :
    exceptionOf exceptions' path lineNumber = exceptionOf exceptions path lineNumber := by
  have hkind : ∀ (l : List SourceException) (item : ℕ), (l[item]?).map (·.kind) =
      ((l.map SourceException.key)[item]?).map (·.2.2) := by
    intro l item
    rw [List.getElem?_map, Option.map_map]
    rfl
  unfold exceptionOf
  rw [findException_congr h]
  congr 1
  funext item
  rw [hkind, hkind, h]

theorem seen_key {exceptions : List SourceException} {item : ℕ} {e : SourceException}
    (h : exceptions[item]? = some e) :
    (exceptions.set item { e with seen := true }).map SourceException.key =
      exceptions.map SourceException.key := by
  rw [List.map_set]
  apply List.ext_getElem?
  intro i
  rw [List.getElem?_set]
  split_ifs with hi hlt
  · subst hi
    rw [List.getElem?_map, h]
    rfl
  · subst hi
    rw [List.getElem?_eq_none (not_lt.mp hlt)]
  · rfl

theorem meaningFrom_congr {exceptions exceptions' : List SourceException}
    (h : exceptions'.map SourceException.key = exceptions.map SourceException.key)
    (lineNumber : ℕ) (skip : Bool) (lines : List Bytes) :
    meaningFrom exceptions' path lineNumber skip lines =
      meaningFrom exceptions path lineNumber skip lines := by
  induction lines generalizing lineNumber skip with
  | nil => rfl
  | cons line lines ih =>
    unfold meaningFrom
    have hline : lineMeaning exceptions' path (lineNumber + 1) skip line =
        lineMeaning exceptions path (lineNumber + 1) skip line := by
      unfold lineMeaning
      rw [exceptionOf_congr h]
    rw [hline]
    dsimp only
    rw [ih]

/-- An accepted line does what it means. -/
theorem Follows.prepareLine (h : Follows past state) {exceptions exceptions' : List SourceException}
    {line : Bytes}
    (hok : prepareLine env path lineNumber exceptions state line = .ok (exceptions', state')) :
    exceptions'.map SourceException.key = exceptions.map SourceException.key ∧
      Step env past
        (lineMeaning exceptions path lineNumber state.skipInvalidDerivation line).1 state state' ∧
      state'.skipInvalidDerivation =
        (lineMeaning exceptions path lineNumber state.skipInvalidDerivation line).2 := by
  unfold GenerSource.prepareLine at hok
  dsimp only at hok
  by_cases hlong : (cstr line).length = lineCapacity - 1 ∧ (cstr line).getLast? ≠ some 10
  · rw [if_pos hlong] at hok
    cases hok
  rw [if_neg hlong] at hok
  have hother : Step env past .other state state :=
    ⟨h.other, .nothing rfl rfl, trivial, trivial⟩
  by_cases hignored : isIgnored (trim (cstr line)) = true
  · rw [if_pos hignored] at hok
    cases hok
    have hmeaning : lineMeaning exceptions path lineNumber state.skipInvalidDerivation line =
        (.other, state.skipInvalidDerivation) := by
      simp [lineMeaning, hignored]
    rw [hmeaning]
    exact ⟨rfl, hother, rfl⟩
  rw [if_neg hignored] at hok
  by_cases hskip : (state.skipInvalidDerivation && isUnexpanded (trim (cstr line))) = true
  · rw [if_pos hskip] at hok
    cases hok
    have hmeaning : lineMeaning exceptions path lineNumber state.skipInvalidDerivation line =
        (.other, state.skipInvalidDerivation) := by
      simp only [lineMeaning, hskip, Bool.or_true, ↓reduceIte]
    rw [hmeaning]
    exact ⟨rfl, hother, rfl⟩
  rw [if_neg hskip] at hok
  have hread : Follows past { state with skipInvalidDerivation := false } :=
    ⟨h.force, h.pend, h.base, h.saved, h.record, h.opened, h.covered⟩
  cases hfind : findException exceptions path lineNumber with
  | none =>
    have hmeaning : lineMeaning exceptions path lineNumber state.skipInvalidDerivation line =
        (classify (trim (cstr line)), false) := by
      simp [lineMeaning, hignored, hskip, exceptionOf, hfind]
    rw [hfind] at hok
    rw [hmeaning]
    obtain ⟨next, hnext, hpair⟩ := map_eq_prepared.mp hok
    cases hpair
    have hstep := hread.prepareContent hnext
    exact ⟨rfl, ⟨hstep.follows, ⟨hstep.wrote.output, hstep.wrote.expansions, hstep.wrote.done⟩,
      hstep.admissible, hstep.grounded⟩, prepareContent_skip hnext⟩
  | some item =>
    rw [hfind] at hok
    dsimp only at hok
    cases hitem : exceptions[item]? with
    | none =>
      rw [hitem] at hok
      cases hok
    | some e =>
      have hmeaning : lineMeaning exceptions path lineNumber state.skipInvalidDerivation line =
          (classifyException (trim (cstr line)) e.kind, e.kind == .invalidDerivation) := by
        simp [lineMeaning, hignored, hskip, exceptionOf, hfind, hitem]
      rw [hitem] at hok
      rw [hmeaning]
      obtain ⟨next, hnext, hpair⟩ := bind_eq_prepared.mp hok
      cases hpair
      unfold applyException at hnext
      split_ifs at hnext
      obtain ⟨hstep, hmark⟩ := hread.applyKind hnext
      exact ⟨seen_key hitem, ⟨hstep.follows,
        ⟨hstep.wrote.output, hstep.wrote.expansions, hstep.wrote.done⟩, hstep.admissible,
        hstep.grounded⟩, by simpa using hmark⟩

/-- The lines of an accepted file behind `past`. -/
def Admitted : List SourceLine → List SourceLine → Prop
  | past, [] => flushed past = [] ∨ past.any SourceLine.isLemma = true
  | past, line :: lines => Admissible past line ∧ Admitted (line :: past) lines

/-- Every request and every continuation of a derivation behind `past` has a derivation in
force. -/
def GroundedFrom (past lines : List SourceLine) : Prop :=
  ∀ before line after, lines = before ++ line :: after → Grounded (before.reverse ++ past) line

theorem GroundedFrom.cons {past lines : List SourceLine} {line : SourceLine}
    (hline : Grounded past line) (hlines : GroundedFrom (line :: past) lines) :
    GroundedFrom past (line :: lines) := by
  intro before line' after heq
  cases before with
  | nil =>
    cases heq
    exact hline
  | cons first before =>
    obtain ⟨rfl, hrest⟩ := List.cons_eq_cons.mp heq
    have hgrounded := hlines before line' after hrest
    rwa [List.reverse_cons, List.append_assoc, List.singleton_append]

/-- A line that fills the buffer without an end. -/
def TooLong (line : Bytes) : Prop :=
  (cstr line).length = lineCapacity - 1 ∧ (cstr line).getLast? ≠ some 10

theorem prepareLine_length {exceptions : List SourceException}
    {next : List SourceException × PrepareState} {line : Bytes}
    (hok : prepareLine env path lineNumber exceptions state line = .ok next) : ¬ TooLong line := by
  intro hlong
  unfold TooLong at hlong
  unfold prepareLine at hok
  dsimp only at hok
  rw [if_pos hlong] at hok
  cases hok

/-- An accepted file is written as its lines say. -/
theorem Follows.prepareLines (h : Follows past state)
    {exceptions exceptions' : List SourceException} {lines : List Bytes}
    (hok : prepareLines env path lineNumber (exceptions, state) lines = .ok (exceptions', state')) :
    exceptions'.map SourceException.key = exceptions.map SourceException.key ∧
      Wrote env state state' (writtenFrom past
        (meaningFrom exceptions path lineNumber state.skipInvalidDerivation lines)) ∧
      Admitted past (meaningFrom exceptions path lineNumber state.skipInvalidDerivation lines) ∧
      GroundedFrom past
        (meaningFrom exceptions path lineNumber state.skipInvalidDerivation lines) ∧
      ∀ line ∈ lines, ¬ TooLong line := by
  induction lines generalizing lineNumber past state exceptions with
  | nil =>
    obtain ⟨next, hflush, hpair⟩ := bind_eq_prepared.mp hok
    cases hpair
    have hgrounded : GroundedFrom past [] := fun before line after heq => by simp at heq
    exact ⟨rfl, h.flush hflush, h.flushed_opened, hgrounded, by simp⟩
  | cons line lines ih =>
    obtain ⟨next, hline, hrest⟩ := bind_eq_prepared.mp hok
    obtain ⟨exceptions₁, state₁⟩ := next
    obtain ⟨hkeys, hstep, hskip⟩ := h.prepareLine hline
    obtain ⟨hkeys', hwrote, hadmitted, hgrounded, hlengths⟩ := ih hstep.follows hrest
    rw [hskip, meaningFrom_congr hkeys] at hwrote hadmitted hgrounded
    refine ⟨hkeys'.trans hkeys, hstep.wrote.trans hwrote, ⟨hstep.admissible, hadmitted⟩,
      hgrounded.cons hstep.grounded, ?_⟩
    exact List.forall_mem_cons.mpr ⟨prepareLine_length hline, hlengths⟩

theorem prepareFile_wrote {exceptions exceptions' : List SourceException}
    (hok : prepareFile env path exceptions state = .ok (exceptions', state')) :
    ∃ file, env.file path = some file ∧
      exceptions'.map SourceException.key = exceptions.map SourceException.key ∧
      Wrote env state state' (writtenFrom [] (meaning exceptions path file)) ∧
      Admitted [] (meaning exceptions path file) ∧
      GroundedFrom [] (meaning exceptions path file) ∧
      ∀ line ∈ fgetsLines lineCapacity file, ¬ TooLong line := by
  unfold prepareFile at hok
  cases hfile : env.file path with
  | none =>
    rw [hfile] at hok
    cases hok
  | some file =>
    rw [hfile] at hok
    obtain ⟨hkeys, hwrote, hrest⟩ := (follows_start state).prepareLines hok
    exact ⟨file, rfl, hkeys, ⟨hwrote.output, hwrote.expansions, hwrote.done⟩, hrest⟩

end

theorem classify_ignored {content : Bytes} (h : isIgnored content = true) :
    classify content = .other := by
  have hmarks : content = [] ∨ content.head? = some 35 ∨ content.head? = some 63 := by
    simpa [isIgnored, or_assoc] using h
  rcases hmarks with rfl | hmark | hmark
  · rfl
  · cases content with
    | nil => cases hmark
    | cons c content =>
      obtain rfl : c = 35 := Option.some.inj hmark
      rfl
  · cases content with
    | nil => cases hmark
    | cons c content =>
      obtain rfl : c = 63 := Option.some.inj hmark
      rfl

theorem meaning_noExceptions {exceptions : List SourceException} {path : Bytes}
    (hnone : ∀ lineNumber, findException exceptions path lineNumber = none) (file : Bytes) :
    meaning exceptions path file = sourceLines file := by
  have hlines : ∀ (lineNumber : ℕ) (lines : List Bytes),
      meaningFrom exceptions path lineNumber false lines =
        lines.map fun line => classify (trim (cstr line)) := by
    intro lineNumber lines
    induction lines generalizing lineNumber with
    | nil => rfl
    | cons line lines ih =>
      have hmeaning : lineMeaning exceptions path (lineNumber + 1) false line =
          (classify (trim (cstr line)), false) := by
        simp only [lineMeaning, exceptionOf, hnone, Bool.false_and, Bool.or_false,
          Option.bind_none]
        split_ifs with hignored
        · rw [classify_ignored hignored]
        · rfl
      rw [meaningFrom, hmeaning, ih, List.map_cons]
  exact hlines 0 _

/-- An expander that writes the stem with the request. -/
def echoExpander (file : Bytes) : PrepareEnv :=
  ⟨fun e => some (ascii ":vs:" ++ e.stem ++ ascii " " ++ e.request ++ [10]), fun _ => some file,
    fun _ _ => true⟩

def luwSource : Bytes :=
  ascii ":le:lu/w\n:de:lu reg_conj\n:le:timaw\n:de:tim aw_denom\n; fu,mid\n@ ionic\n:wd:timh noun\n"

end Morpheus.GenerSource
