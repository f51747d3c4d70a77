import Morpheus.GenerIndexSource
import Morpheus.Sha256

/-!
# Preparing generation sources

`gener-source-preparer.c`: it copies lemma and record lines, puts the base record in
front of its continuations and writes a generated record for each derivation request.
The derivation expander is a parameter; the calls made to it are recorded in order.
-/
namespace Morpheus.GenerSource

open GenerIndex

/-- `LONGSTRING` -/
def longString : ℕ := 1024

inductive BaseKind
  | none
  | direct
  | derivation
  deriving DecidableEq, Repr

inductive ExceptionKind
  | invalidDerivation
  | invalidRecord
  | orphanContinuation
  | orphanRequest
  | zeroContinuation
  | zeroRequest
  deriving DecidableEq, Repr

structure SourceException where
  path : Bytes
  lineNumber : ℕ
  kind : ExceptionKind
  sha256 : Bytes
  seen : Bool
  deriving DecidableEq, Repr

/-- The arguments of a call of `morpheus_gener_expand_derivation`. -/
structure Expansion where
  stem : Bytes
  derivation : Bytes
  globalKeys : Bytes
  request : Bytes
  deriving DecidableEq, Repr

structure PrepareState where
  output : Bytes
  basePrefix : Option Bytes
  derivationStem : Bytes
  derivationType : Bytes
  derivationKeys : Bytes
  savedRequest : Bytes
  base : BaseKind
  haveLemma : Bool
  haveDerivation : Bool
  haveExplicitRequest : Bool
  skipInvalidDerivation : Bool
  /-- The expansions performed so far. -/
  expansions : List Expansion
  deriving DecidableEq, Repr

def PrepareState.zero : PrepareState :=
  ⟨[], none, [], [], [], [], .none, false, false, false, false, []⟩

/-- What a run depends on: the record that an expansion writes, if its return code is 1,
the contents of the files that can be read, and whether the allocations made for a line
succeed. -/
structure PrepareEnv where
  expand : Expansion → Option Bytes
  file : Bytes → Option Bytes
  memory : Bytes → ℕ → Bool

/-- Why a file is rejected. -/
inductive PrepareProblem
  | cannotRead
  | outOfMemory
  | lineTooLong
  | exceptionMismatch
  | invalidLemma
  | recordBeforeLemma
  | incompleteRecord
  | continuationWithoutRecord
  | continuationWithoutPart
  | requestTooLong
  | invalidDerivation
  | invalidRequest
  | noRecord
  | unmatchedException
  deriving DecidableEq, Repr

abbrev Prepared (α : Type) := Except PrepareProblem α

def isBlankByte (c : Byte) : Bool := c == 32 || c == 9

/-- `take_token`: the token and the text behind it. -/
def takeToken (text : Bytes) (capacity : ℕ) : Option (Bytes × Bytes) :=
  let start := text.dropWhile isBlankByte
  let token := start.takeWhile fun c => !isBlankByte c
  if token = [] ∨ token.length ≥ capacity then none
  else some (token, start.dropWhile fun c => !isBlankByte c)

/-- `copy_text` -/
def copyText (capacity : ℕ) (source : Bytes) : Option Bytes :=
  if source.length < capacity then some source else none

def isNameByte (c : Byte) : Bool :=
  (97 ≤ c && c ≤ 122) || (65 ≤ c && c ≤ 90) || (48 ≤ c && c ≤ 57) || c == 95

def validDerivationName (name : Bytes) : Bool := !name.isEmpty && name.all isNameByte

/-- `is_generation_record` -/
def isGenerationRecord (line : Bytes) : Bool := (recordPrefix line).isSome

/-- The tags that end a derivation: `:no:`, `:aj:` and `:vs:`. -/
def clearsDerivation (line : Bytes) : Bool :=
  startsWith (ascii ":no:") line || startsWith (ascii ":aj:") line ||
    startsWith (ascii ":vs:") line

/-- `base_prefix`: the first two fields of a record line. -/
def basePrefix (line : Bytes) : Option Bytes :=
  let first := line.takeWhile fun c => !isBlankByte c
  let rest := line.drop first.length
  let blanks := rest.takeWhile isBlankByte
  let second := (rest.drop blanks.length).takeWhile fun c => !isBlankByte c
  if rest = [] ∨ second = [] then none else some (first ++ blanks ++ second)

def pathHasSuffix (path suffix : Bytes) : Bool :=
  suffix.isSuffixOf path &&
    (suffix.length == path.length || path[path.length - suffix.length - 1]? == some 47)

/-- `find_exception`: the position of the exception of a line. -/
def findException (exceptions : List SourceException) (path : Bytes) (lineNumber : ℕ) :
    Option ℕ :=
  exceptions.findIdx? fun e => e.lineNumber == lineNumber && pathHasSuffix path e.path

section
variable (env : PrepareEnv) (path : Bytes) (lineNumber : ℕ)

/-- `append_bytes` -/
def appendBytes (state : PrepareState) (data : Bytes) : Prepared PrepareState :=
  if env.memory path lineNumber then .ok { state with output := state.output ++ data }
  else .error .outOfMemory

/-- `write_line` -/
def writeLine (state : PrepareState) (line : Bytes) : Prepared PrepareState :=
  appendBytes env path lineNumber state (line ++ [10])

/-- The derivation in force with a request. -/
def PrepareState.expansion (state : PrepareState) (request : Bytes) : Expansion :=
  ⟨state.derivationStem, state.derivationType, state.derivationKeys, request⟩

def expandRequest (state : PrepareState) (request : Bytes) : Prepared PrepareState :=
  if !env.memory path lineNumber then .error .outOfMemory
  else
    match env.expand (state.expansion request) with
    | none => .error .noRecord
    | some record =>
      appendBytes env path lineNumber
        { state with expansions := state.expansions ++ [state.expansion request] } record

/-- The default present principal part. -/
def defaultRequest : Bytes := ascii "pr"

def flushDerivation (state : PrepareState) : Prepared PrepareState :=
  if !state.haveDerivation || state.haveExplicitRequest then .ok state
  else expandRequest env path lineNumber { state with haveExplicitRequest := true } defaultRequest

/-- The `switch` of `apply_exception`. -/
def applyKind (state : PrepareState) (content : Bytes) :
    ExceptionKind → Prepared PrepareState
  | .invalidDerivation =>
    if !startsWith (ascii ":de:") content then .error .exceptionMismatch
    else do
      let state ← flushDerivation env path lineNumber state
      .ok { state with
        base := .none
        haveDerivation := false
        haveExplicitRequest := false
        savedRequest := []
        skipInvalidDerivation := true }
  | .invalidRecord =>
    if isGenerationRecord content && (content[4]?).any isBlankByte then .ok state
    else .error .exceptionMismatch
  | .orphanContinuation =>
    if content.head? = some 64 then .ok state else .error .exceptionMismatch
  | .orphanRequest =>
    if content.head? = some 59 ∧ !state.haveDerivation then .ok state
    else .error .exceptionMismatch
  | .zeroContinuation =>
    if content.head? = some 64 ∧ state.base = .derivation then .ok state
    else .error .exceptionMismatch
  | .zeroRequest =>
    if content.head? ≠ some 59 ∨ !state.haveDerivation then .error .exceptionMismatch
    else
      match takeToken (content.drop 1) longString with
      | none => .error .exceptionMismatch
      | some (token, _) =>
        .ok { state with savedRequest := token, haveExplicitRequest := true, base := .derivation }

/-- `apply_exception` -/
def applyException (state : PrepareState) (e : SourceException) (content : Bytes) :
    Prepared PrepareState :=
  if e.seen || Sha256.sha256Hex content ≠ e.sha256 then .error .exceptionMismatch
  else applyKind env path lineNumber state content e.kind

/-- A `:le:` line. -/
def prepareLemma (state : PrepareState) (content : Bytes) : Prepared PrepareState := do
  let state ← flushDerivation env path lineNumber state
  if trim (content.drop 4) = [] then .error .invalidLemma
  else
    writeLine env path lineNumber { state with
      basePrefix := none
      base := .none
      haveLemma := true
      haveDerivation := false
      haveExplicitRequest := false } content

/-- A generation record. -/
def prepareRecord (state : PrepareState) (content : Bytes) : Prepared PrepareState :=
  if !state.haveLemma then .error .recordBeforeLemma
  else
    match basePrefix content with
    | none => .error .incompleteRecord
    | some prefix_ =>
      if !env.memory path lineNumber then .error .outOfMemory
      else
        let state := { state with basePrefix := some prefix_, base := .direct }
        let state := if clearsDerivation content then
            { state with haveDerivation := false, haveExplicitRequest := false, savedRequest := [] }
          else state
        writeLine env path lineNumber state content

/-- The request of a continuation: the principal part and what the line adds. -/
def continued (part text : Bytes) : Bytes :=
  part ++ (if trim text = [] then [] else [32]) ++ trim text

/-- An `@` line. -/
def prepareContinuation (state : PrepareState) (content : Bytes) : Prepared PrepareState :=
  if !state.haveLemma then .error .continuationWithoutRecord
  else
    match state.base with
    | .none => .error .continuationWithoutRecord
    | .direct =>
      writeLine env path lineNumber state (state.basePrefix.getD [] ++ content.drop 1)
    | .derivation =>
      if state.savedRequest = [] then .error .continuationWithoutPart
      else
        let request := continued state.savedRequest (content.drop 1)
        if request.length ≥ longString * 2 then .error .requestTooLong
        else expandRequest env path lineNumber state request

/-- A `:de:` line. -/
def prepareDerivation (state : PrepareState) (content : Bytes) : Prepared PrepareState :=
  if !state.haveLemma || (content[4]?).any isBlankByte then .error .invalidDerivation
  else do
    let state ← flushDerivation env path lineNumber state
    match takeToken (content.drop 4) maxWordSize with
    | none => .error .invalidDerivation
    | some (stem, rest) =>
      match takeToken rest maxWordSize with
      | none => .error .invalidDerivation
      | some (type, rest) =>
        if !validDerivationName type then .error .invalidDerivation
        else
          match copyText longString (trim rest) with
          | none => .error .outOfMemory
          | some keys =>
            .ok { state with
              derivationStem := stem
              derivationType := type
              derivationKeys := keys
              savedRequest := []
              haveExplicitRequest := false
              base := .derivation
              haveDerivation := true }

/-- A `;` line. -/
def prepareRequest (state : PrepareState) (content : Bytes) : Prepared PrepareState :=
  if !state.haveDerivation then .error .invalidRequest
  else
    match takeToken (content.drop 1) longString, copyText longString (trim (content.drop 1)) with
    | some (token, _), some request =>
      expandRequest env path lineNumber
        { state with savedRequest := token, haveExplicitRequest := true, base := .derivation }
        request
    | _, _ => .error .invalidRequest

/-- The lines that hold no record: empty ones and those of the marks `#` and `?`. -/
def isIgnored (content : Bytes) : Bool :=
  content.isEmpty || content.head? == some 35 || content.head? == some 63

def isUnexpanded (content : Bytes) : Bool := content.head? == some 59 || content.head? == some 64

/-- The branches of the loop on a line without exception. -/
def prepareContent (state : PrepareState) (content : Bytes) : Prepared PrepareState :=
  if startsWith (ascii ":le:") content then prepareLemma env path lineNumber state content
  else if isGenerationRecord content then prepareRecord env path lineNumber state content
  else if content.head? = some 64 then prepareContinuation env path lineNumber state content
  else if startsWith (ascii ":de:") content then
    prepareDerivation env path lineNumber state content
  else if content.head? = some 59 then prepareRequest env path lineNumber state content
  else .ok state

/-- The body of the loop of `prepare_file`. -/
def prepareLine (exceptions : List SourceException) (state : PrepareState) (line : Bytes) :
    Prepared (List SourceException × PrepareState) :=
  let text := cstr line
  let content := trim text
  if text.length = lineCapacity - 1 ∧ text.getLast? ≠ some 10 then .error .lineTooLong
  else if isIgnored content then .ok (exceptions, state)
  else if state.skipInvalidDerivation && isUnexpanded content then .ok (exceptions, state)
  else
    let state := { state with skipInvalidDerivation := false }
    match findException exceptions path lineNumber with
    | none => (prepareContent env path lineNumber state content).map fun state => (exceptions, state)
    | some item =>
      match exceptions[item]? with
      | none => .error .exceptionMismatch
      | some e => do
        let state ← applyException env path lineNumber state e content
        .ok (exceptions.set item { e with seen := true }, state)

end

section
variable (env : PrepareEnv) (path : Bytes)

/-- The loop of `prepare_file` and the flush behind it; `lineNumber` lines are read already. -/
def prepareLines : ℕ → List SourceException × PrepareState → List Bytes →
    Prepared (List SourceException × PrepareState)
  | lineNumber, (exceptions, state), [] => do
    let state ← flushDerivation env path (lineNumber + 1) state
    .ok (exceptions, state)
  | lineNumber, (exceptions, state), line :: lines => do
    let next ← prepareLine env path (lineNumber + 1) exceptions state line
    prepareLines (lineNumber + 1) next lines

/-- The state in which the first line of a file is read. -/
def startFile (state : PrepareState) : PrepareState :=
  { state with
    basePrefix := none
    base := .none
    haveLemma := false
    haveDerivation := false
    haveExplicitRequest := false
    skipInvalidDerivation := false }

def prepareFile (exceptions : List SourceException) (state : PrepareState) :
    Prepared (List SourceException × PrepareState) :=
  match env.file path with
  | none => .error .cannotRead
  | some file => prepareLines env path 0 (exceptions, startFile state) (fgetsLines lineCapacity file)

end

/-- The input loop of `main`. -/
def prepareFiles (env : PrepareEnv) : List SourceException × PrepareState → List Bytes →
    Prepared (List SourceException × PrepareState)
  | next, [] => .ok next
  | (exceptions, state), path :: paths => do
    let next ← prepareFile env path exceptions state
    prepareFiles env next paths

/-- `main`: the text written for the inputs. -/
def prepareSources (env : PrepareEnv) (exceptions : List SourceException) (paths : List Bytes) :
    Prepared Bytes := do
  let (exceptions, state) ← prepareFiles env (exceptions, .zero) paths
  if exceptions.all (·.seen) then .ok state.output else .error .unmatchedException

end Morpheus.GenerSource
