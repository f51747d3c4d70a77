import Morpheus.Comparison
import Morpheus.EndIO
import Morpheus.IndexLines
import Morpheus.LineInput
import Morpheus.RuntimeContext

/-!
# Compiling ending tables

`expendtables` (`expendtable.c`) over the store of endings that a context keeps from
table to table (`stor.c`). What `ScanAsciiKeys` and `mk_end` make of a line is given; of
the context it depends on the pending runtime error only, since the tables they load are
the same whenever they are loaded.
-/
namespace Morpheus
open Comparison

/-- `MAXENDINGS` -/
def maxEndings : ℕ := 10000

/-- `BUFSIZ` -/
def bufSiz : ℕ := 8192

/-- `IS_DERIV` -/
def isDeriv : ℕ := 46

/-- A record whose text is a string in its buffer. -/
structure Ending where
  gstr : GkString
  length_lt : gstr.gkstring.length < maxWordSize
  nulFree : NulFree gstr.gkstring
  deriving DecidableEq

/-- What `expendtables` uses of a context. -/
structure CompileContext where
  allocated : Bool
  /-- the first `ending_store_count` slots of `ending_store` -/
  stored : List Ending
  /-- `ending_store_max_string` -/
  maxString : ℕ
  runtimeError : RuntimeError
  deriving DecidableEq

/-- A new context. -/
def CompileContext.fresh : CompileContext := ⟨false, [], 0, .none⟩

/-- `morpheus_runtime_error_record` -/
def CompileContext.record (context : CompileContext) (error : RuntimeError) : CompileContext :=
  if context.runtimeError = .none then { context with runtimeError := error } else context

/-- `InitGstrMem`, `none` when it returns 0. -/
def initGstrMem (memory : Bool) (context : CompileContext) : Option CompileContext :=
  if !context.allocated && !memory then none
  else some { context with allocated := true, stored := [] }

/-- `ResetGstrBuf` -/
def resetGstrBuf (context : CompileContext) : CompileContext := { context with stored := [] }

/-- `stripzeroend` -/
def stripzeroend (word : Bytes) : Bytes := if word.getLast? = some 42 then word.dropLast else word

/-- `stripchar` -/
def stripchar (s : Bytes) (c : Byte) : Bytes := s.filter (· != c)

/-- `is_diphth` of the byte `c2` behind `before` and in front of `rest`. -/
def isDiphth (before : Bytes) (c2 : Byte) (rest : Bytes) : Bool :=
  match before.getLast? with
  | none => false
  | some c1 =>
    let c2 := tolower c2
    let c1 := tolower c1
    (c2 == 105 || c2 == 117) && rest.headD 0 != 43 && isVowel c1 &&
      (c1 == 97 || c1 == 101 || c1 == 111 || (if c2 == 105 then c1 == 117 else c1 == 104))

/-- `hyphtodiaer` from a byte of the word on: the byte that follows a hyphen is passed over,
with the diaeresis that it gets. -/
def hyphtodiaerFrom : Bytes → Bytes → Bytes
  | before, [] => before
  | before, [c] => if c = 45 then before else before ++ [c]
  | before, c :: d :: rest =>
    if c = 45 then
      hyphtodiaerFrom (before ++ if isDiphth before d rest then [d, 43] else [d]) rest
    else hyphtodiaerFrom (before ++ [c]) (d :: rest)

/-- The text that `AddNewGstr` stores for a string. -/
def storedText (news : Bytes) : Bytes :=
  let news := if news.headD 0 ≠ 42 then stripzeroend news else news
  stripchar (hyphtodiaerFrom [] news) 33

theorem hyphtodiaerFrom_spec (before s : Bytes) (hbefore : NulFree before) (hs : NulFree s) :
    (hyphtodiaerFrom before s).length ≤ before.length + s.length ∧
      NulFree (hyphtodiaerFrom before s) := by
  induction before, s using hyphtodiaerFrom.induct with
  | case1 before => simpa [hyphtodiaerFrom] using hbefore
  | case2 before => simpa [hyphtodiaerFrom] using hbefore
  | case3 before c hc =>
    rw [hyphtodiaerFrom, if_neg hc]
    simp [hbefore, (nulFree_cons.mp hs).1]
  | case4 before d rest ih =>
    obtain ⟨-, hd, hrest⟩ : (45 : Byte) ≠ 0 ∧ d ≠ 0 ∧ NulFree rest := by simpa using hs
    rw [hyphtodiaerFrom, if_pos rfl]
    obtain ⟨hlength, hfree⟩ := ih (by split_ifs <;> simp [hbefore, hd]) hrest
    refine ⟨hlength.trans ?_, hfree⟩
    simp only [List.length_append, List.length_cons]
    split_ifs <;> simp <;> omega
  | case5 before c d rest hc ih =>
    obtain ⟨hc0, hrest⟩ := nulFree_cons.mp hs
    rw [hyphtodiaerFrom, if_neg hc]
    obtain ⟨hlength, hfree⟩ := ih (by simp [hbefore, hc0]) hrest
    refine ⟨hlength.trans ?_, hfree⟩
    simp only [List.length_append, List.length_cons, List.length_nil]
    omega

theorem storedText_spec {news : Bytes} (h : NulFree news) :
    (storedText news).length ≤ news.length ∧ NulFree (storedText news) := by
  have hzero : (if news.headD 0 ≠ 42 then stripzeroend news else news).Sublist news := by
    unfold stripzeroend
    split_ifs
    · exact List.dropLast_sublist news
    · exact .refl news
    · exact .refl news
  obtain ⟨hlength, hfree⟩ := hyphtodiaerFrom_spec [] _ nulFree_nil (h.sublist hzero)
  have hfilter : (storedText news).Sublist
      (hyphtodiaerFrom [] (if news.headD 0 ≠ 42 then stripzeroend news else news)) :=
    List.filter_sublist
  refine ⟨?_, hfree.sublist hfilter⟩
  have h1 := hfilter.length_le
  have h2 := hzero.length_le
  simp only [List.length_nil] at hlength
  omega

/-- The record that `AddNewGstr` stores. -/
def Ending.stripped (ending : Ending) : Ending where
  gstr := { ending.gstr with gkstring := storedText ending.gstr.gkstring }
  length_lt := (storedText_spec ending.nulFree).1.trans_lt ending.length_lt
  nulFree := (storedText_spec ending.nulFree).2

/-- `AddNewGstr`; `mk_end` does not look at what it returns. -/
def addNewGstr (context : CompileContext) (ending : Ending) : CompileContext :=
  if context.stored.length ≥ maxEndings then context
  else
    let measure := ending.gstr.gkstring.length + 1
    { context with
      stored := context.stored ++ [ending.stripped]
      maxString := if measure ≥ context.maxString then measure else context.maxString }

/-- The bytes that `dictstrcmp` does not pass over. -/
def isDictChar (c : Byte) : Bool := isAlpha c || c == 124 || c == 95

/-- `dictstrcmp` -/
def dictstrcmp (s1 s2 : Bytes) : Int :=
  strcmpBy comptab (s1.filter isDictChar) (s2.filter isDictChar)

/-- `CompByDictStr` -/
def compByDictStr (gstr1 gstr2 : Ending) : Int :=
  dictstrcmp gstr1.gstr.gkstring gstr2.gstr.gkstring

/-- The buffer of a record, with zeros behind its text. -/
def Ending.slot (ending : Ending) : EndingSlot where
  gstr := ending.gstr
  buffer := fill ending.gstr.gkstring maxWordSize
  buffer_length := fill_length ending.length_lt.le
  text := cstr_fill ending.nulFree maxWordSize

def Ending.zapDeriv (ending : Ending) : Ending where
  gstr := { ending.gstr with morphflags := zapMorphflag ending.gstr.morphflags isDeriv }
  length_lt := ending.length_lt
  nulFree := ending.nulFree

/-- The stored endings are those of a suffix table; without endings it makes no difference. -/
def storedDeriv (stored : List Ending) : Bool :=
  match stored with
  | [] => false
  | first :: _ => hasMorphflag first.gstr.morphflags isDeriv

/-- The records that `PrntNewGstrings` writes; one that `WriteEnding` refuses is missing. -/
def compiledRecords (stored : List Ending) (maxString : ℕ) : Bytes :=
  let deriv := storedDeriv stored
  let sorted := if deriv then stored else sortBy compByDictStr stored
  sorted.flatMap fun ending =>
    (writeEnding maxString (if deriv then ending.zapDeriv else ending).slot).getD []

/-- `PrntNewGstrings` for a compiled table, with the bytes it writes. -/
def prntNewGstrings (context : CompileContext) : CompileContext × Bytes :=
  match setEndheader context.maxString with
  | none => (context.record .internal, compiledRecords context.stored context.maxString)
  | some header => (context, header ++ compiledRecords context.stored context.maxString)

inductive FormCode
  | doEnd
  | doWord
  | doDeriv
  deriving DecidableEq, Repr

/-- What becomes of a line: whether it is scanned, the strings that `mk_end` gives to
`AddNewGstr`, and the runtime error that is recorded. -/
structure LineOutcome where
  scanned : Bool
  added : List Ending
  error : RuntimeError
  deriving DecidableEq

/-- What `expendtables` uses of the rest of the program: the files for `fopen` and for
`MorphFopen`, the record that `ScanAsciiKeys` makes of a table's name, and its lines. -/
structure TableEnv where
  fopen : Bytes → Option Bytes
  morphFopen : Bytes → Option Bytes
  create : Bytes → Bool
  memory : Bool
  scanName : Bytes → Option GkString
  line : RuntimeError → Bytes → Bytes → LineOutcome

/-- The arguments of `expendtables`; the name of a table is not empty. -/
structure TableRequest where
  tabname : Bytes
  maintable : Bool
  formcode : FormCode
  named : tabname ≠ []

/-- A table whose files are open: the name that the ASCII table gets, the keys of its name,
its source and the path of its compiled table. -/
structure OpenTable where
  fname : Bytes
  basename : Bytes
  input : Bytes
  output : Option Bytes
  deriving DecidableEq

/-- The text behind the last directory separator. -/
def lastComponent (tabname : Bytes) : Bytes := (tabname.reverse.takeWhile (· ≠ 47)).reverse

/-- The source of a main table and the path of its compiled table. -/
def openInput (env : TableEnv) (formcode : FormCode) (fname : Bytes) : Option (Bytes × Bytes) :=
  if formcode = .doDeriv then
    match env.fopen (fname ++ ascii ".deriv") with
    | some input => some (input, fname ++ ascii ".deriv")
    | none => (env.morphFopen (ascii "derivs/source/" ++ fname ++ ascii ".deriv")).map fun input =>
        (input, ascii "derivs/out/" ++ fname ++ ascii ".out")
  else
    ((env.fopen (fname ++ ascii ".end")).or
      (env.morphFopen (ascii "endtables/source/" ++ fname ++ ascii ".end"))).map fun input =>
        (input, ascii "endtables/out/" ++ fname ++ ascii ".out")

/-- The first part of `expendtables`, up to the opened files. -/
def openTable (env : TableEnv) (request : TableRequest) : Option OpenTable :=
  let name := lastComponent request.tabname
  if request.maintable then
    if name.length ≥ maxWordSize then none
    else do
      let scanned ← env.scanName name
      if (request.formcode = .doEnd ∧ scanned.stemtype = 0) ∨
          (request.formcode = .doDeriv ∧ scanned.derivtype = 0) then none
      else do
        let (input, output) ← openInput env request.formcode name
        if env.create output then some ⟨name, name, input, some output⟩ else none
  else
    let fname := if 47 ∈ request.tabname then 47 :: name else name
    if fname.length ≥ maxPathName then none
    else (env.fopen fname).map fun input => ⟨fname, [], input, none⟩

/-- The keys that are common to the lines of a table. -/
def tableKeys (formcode : FormCode) (basename : Bytes) : Option Bytes :=
  let keys := match formcode with
    | .doEnd => []
    | .doWord => ascii " indeclform"
    | .doDeriv => ascii " is_deriv"
  if keys ≠ [] ∧ basename.length + keys.length ≥ maxWordSize then none else some (basename ++ keys)

/-- `AddEndLine` -/
def addEndLine (env : TableEnv) (basename line : Bytes) (context : CompileContext) :
    CompileContext × Bool :=
  let outcome := env.line context.runtimeError basename line
  let context := if outcome.scanned then outcome.added.foldl addNewGstr context else context
  let context := context.record outcome.error
  (context, outcome.scanned && context.runtimeError = .none)

/-- The loop of `expendtables` over the lines. -/
def addEndLines (env : TableEnv) (basename : Bytes) :
    List Bytes → CompileContext → CompileContext × Bool
  | [], context => (context, true)
  | line :: lines, context =>
    if isBlank line || line.head? == some 35 then addEndLines env basename lines context
    else
      let added := addEndLine env basename line context
      if added.2 then addEndLines env basename lines added.1 else added

/-- What `expendtables` leaves: the context, its status, and the path and the bytes of the
compiled table when it opened one. -/
structure TableResult where
  context : CompileContext
  status : Int
  compiled : Option (Bytes × Bytes)
  deriving DecidableEq

/-- `expendtables` with its files open and its store ready. -/
def expendOpened (env : TableEnv) (request : TableRequest) (opened : OpenTable)
    (basename : Bytes) (context : CompileContext) : TableResult :=
  let lines := (fgetsLines bufSiz opened.input).map cstr
  let added := addEndLines env basename lines context
  let printed :=
    if request.maintable ∧ request.formcode ≠ .doWord then prntNewGstrings added.1
    else (added.1, [])
  let directory := if request.formcode = .doDeriv then ascii "derivs" else ascii "endtables"
  let ascName := directory ++ ascii "/ascii/" ++ opened.fname ++ ascii ".asc"
  let written := added.2 && decide (ascName.length < longString) && env.create ascName
  ⟨resetGstrBuf printed.1, if written then 0 else -1, opened.output.map (·, printed.2)⟩

def expendtables (env : TableEnv) (context : CompileContext) (request : TableRequest) :
    TableResult :=
  match openTable env request with
  | none => ⟨context, -1, none⟩
  | some opened =>
    match tableKeys request.formcode opened.basename with
    | none => ⟨context.record .internal, -1, opened.output.map (·, [])⟩
    | some basename =>
      match initGstrMem env.memory context with
      | none => ⟨context.record .noMemory, -1, opened.output.map (·, [])⟩
      | some context => expendOpened env request opened basename context

/-- The compiled tables of a run in one context. -/
def compileTables (env : TableEnv) : CompileContext → List TableRequest → List (Option (Bytes × Bytes))
  | _, [] => []
  | context, request :: requests =>
    let result := expendtables env context request
    result.compiled :: compileTables env result.context requests

open Comparison

namespace CompileContext

/-- The context with the measure that tables before it left. -/
def raise (m : ℕ) (context : CompileContext) : CompileContext :=
  { context with maxString := max m context.maxString }

@[simp] theorem raise_stored (m : ℕ) (context : CompileContext) :
    (context.raise m).stored = context.stored := rfl

@[simp] theorem raise_runtimeError (m : ℕ) (context : CompileContext) :
    (context.raise m).runtimeError = context.runtimeError := rfl

theorem raise_of_le {m : ℕ} {context : CompileContext} (h : m ≤ context.maxString) :
    context.raise m = context := by
  unfold raise
  rw [max_eq_right h]

theorem record_raise (m : ℕ) (context : CompileContext) (error : RuntimeError) :
    (context.raise m).record error = (context.record error).raise m := by
  unfold record
  rw [raise_runtimeError]
  split_ifs
  · rfl
  · rfl

end CompileContext

theorem addNewGstr_of_room {context : CompileContext} (h : context.stored.length < maxEndings)
    (ending : Ending) :
    addNewGstr context ending =
      { context with
        stored := context.stored ++ [ending.stripped]
        maxString := max context.maxString (ending.gstr.gkstring.length + 1) } := by
  unfold addNewGstr
  rw [if_neg (not_le.mpr h)]
  rfl

theorem addNewGstr_raise (m : ℕ) (context : CompileContext) (ending : Ending) :
    addNewGstr (context.raise m) ending = (addNewGstr context ending).raise m := by
  by_cases hroom : context.stored.length < maxEndings
  · have hraised : (context.raise m).stored.length < maxEndings := hroom
    rw [addNewGstr_of_room hroom, addNewGstr_of_room hraised]
    simp only [CompileContext.raise, max_assoc]
  · unfold addNewGstr
    rw [CompileContext.raise_stored, if_pos (not_lt.mp hroom), if_pos (not_lt.mp hroom)]

theorem addNewGstrs_raise (m : ℕ) (endings : List Ending) (context : CompileContext) :
    endings.foldl addNewGstr (context.raise m) = (endings.foldl addNewGstr context).raise m := by
  induction endings generalizing context with
  | nil => rfl
  | cons ending endings ih => rw [List.foldl_cons, List.foldl_cons, addNewGstr_raise, ih]

section
variable (env : TableEnv)

theorem addEndLine_raise (m : ℕ) (basename line : Bytes) (context : CompileContext) :
    addEndLine env basename line (context.raise m) =
      ((addEndLine env basename line context).1.raise m,
        (addEndLine env basename line context).2) := by
  unfold addEndLine
  dsimp only
  rw [CompileContext.raise_runtimeError]
  split_ifs
  · rw [addNewGstrs_raise, CompileContext.record_raise]
    rfl
  · rw [CompileContext.record_raise]
    rfl

/-- The measure of earlier tables goes through the lines of a table unchanged. -/
theorem addEndLines_raise (m : ℕ) (basename : Bytes) (lines : List Bytes)
    (context : CompileContext) :
    addEndLines env basename lines (context.raise m) =
      ((addEndLines env basename lines context).1.raise m,
        (addEndLines env basename lines context).2) := by
  induction lines generalizing context with
  | nil => rfl
  | cons line lines ih =>
    rw [addEndLines, addEndLines]
    dsimp only
    rw [addEndLine_raise]
    split_ifs with hskip hok
    · exact ih context
    · exact ih _
    · rfl

/-- The endings that the lines of a table give to the store, when no error is pending. -/
def addedEndings (basename : Bytes) : List Bytes → List Ending
  | [] => []
  | line :: lines =>
    if isBlank line || line.head? == some 35 then addedEndings basename lines
    else
      let outcome := env.line .none basename line
      if !outcome.scanned then []
      else if outcome.error ≠ .none then outcome.added
      else outcome.added ++ addedEndings basename lines

/-- The measure of the longest of them that finds a place in the store. -/
def longestEnding (basename input : Bytes) : ℕ :=
  ((addedEndings env basename ((fgetsLines bufSiz input).map cstr)).take maxEndings).foldl
    (fun measure ending => max measure (ending.gstr.gkstring.length + 1)) 0

variable {env}

theorem addNewGstrs_eq (endings : List Ending) (context : CompileContext) :
    endings.foldl addNewGstr context =
      { context with
        stored := context.stored ++
          (endings.take (maxEndings - context.stored.length)).map Ending.stripped
        maxString := (endings.take (maxEndings - context.stored.length)).foldl
          (fun measure ending => max measure (ending.gstr.gkstring.length + 1))
          context.maxString } := by
  induction endings generalizing context with
  | nil => simp
  | cons ending endings ih =>
    rw [List.foldl_cons, ih]
    by_cases hlt : context.stored.length < maxEndings
    · obtain ⟨room, hroom⟩ : ∃ room, maxEndings - context.stored.length = room + 1 :=
        ⟨maxEndings - context.stored.length - 1, by omega⟩
      have hnext : maxEndings - (context.stored.length + 1) = room := by omega
      rw [addNewGstr_of_room hlt]
      simp [hroom, hnext]
    · have hroom : maxEndings - context.stored.length = 0 := by omega
      unfold addNewGstr
      rw [if_pos (not_lt.mp hlt), hroom]
      simp

theorem addNewGstrs_runtimeError (endings : List Ending) (context : CompileContext) :
    (endings.foldl addNewGstr context).runtimeError = context.runtimeError := by
  rw [addNewGstrs_eq]

theorem CompileContext.record_of_none {context : CompileContext}
    (h : context.runtimeError = .none) (error : RuntimeError) :
    context.record error = { context with runtimeError := error } := if_pos h

/-- Without a pending error the lines store their endings, up to the first that fails. -/
theorem addEndLines_eq (env : TableEnv) (basename : Bytes) (lines : List Bytes) {context : CompileContext}
    (h : context.runtimeError = .none) :
    ∃ error, (addEndLines env basename lines context).1 =
      { (addedEndings env basename lines).foldl addNewGstr context with runtimeError := error } := by
  induction lines generalizing context with
  | nil => exact ⟨context.runtimeError, rfl⟩
  | cons line lines ih =>
    rw [addEndLines, addedEndings]
    by_cases hskip : (isBlank line || line.head? == some 35) = true
    · rw [if_pos hskip, if_pos hskip]
      exact ih h
    · rw [if_neg hskip, if_neg hskip]
      unfold addEndLine
      dsimp only
      rw [h]
      generalize env.line .none basename line = outcome
      by_cases hscanned : outcome.scanned = true
      · have hstored := addNewGstrs_runtimeError outcome.added context
        rw [h] at hstored
        have hscan : ¬(!outcome.scanned) = true := by simp [hscanned]
        rw [if_pos hscanned, if_neg hscan, CompileContext.record_of_none hstored]
        by_cases herror : outcome.error = .none
        · rw [if_pos (by simp [hscanned, herror]), if_neg (not_not.mpr herror), List.foldl_append,
            ← hstored.trans herror.symm]
          exact ih hstored
        · rw [if_neg (by simp [herror]), if_pos herror]
          exact ⟨outcome.error, rfl⟩
      · have hscan : (!outcome.scanned) = true := by simpa using hscanned
        rw [if_neg hscanned, if_pos hscan, CompileContext.record_of_none h,
          if_neg (by simp [hscanned])]
        exact ⟨outcome.error, rfl⟩

theorem addEndLines_measure (env : TableEnv) (basename input : Bytes) {context : CompileContext}
    (h : context.runtimeError = .none) (hstored : context.stored = [])
    (hmeasure : context.maxString = 0) :
    (addEndLines env basename ((fgetsLines bufSiz input).map cstr) context).1.maxString =
      longestEnding env basename input := by
  obtain ⟨error, heq⟩ := addEndLines_eq env basename ((fgetsLines bufSiz input).map cstr) h
  rw [heq, addNewGstrs_eq, hstored, hmeasure]
  rfl

/-- A table whose compiled form does not depend on the tables before it: when it is compiled
at all, no runtime error is pending, and its longest ending is not shorter than theirs. -/
def HistoryFree (env : TableEnv) (context : CompileContext) (request : TableRequest) : Prop :=
  ∀ opened basename, openTable env request = some opened →
    tableKeys request.formcode opened.basename = some basename →
    request.maintable ∧ request.formcode ≠ .doWord →
    context.runtimeError = .none ∧ context.maxString ≤ longestEnding env basename opened.input

/-- A run of such tables. -/
def HistoryFreeRun (env : TableEnv) : CompileContext → List TableRequest → Prop
  | _, [] => True
  | context, request :: requests =>
    HistoryFree env context request ∧
      HistoryFreeRun env (expendtables env context request).context requests

/-- The store of a context was allocated while there was memory for it. -/
def StoreSound (env : TableEnv) (context : CompileContext) : Prop :=
  context.allocated = true → env.memory = true

theorem initGstrMem_eq {context : CompileContext} (h : StoreSound env context) :
    initGstrMem env.memory context =
      if env.memory then some { context with allocated := true, stored := [] } else none := by
  unfold initGstrMem
  cases hmemory : env.memory with
  | true => simp
  | false =>
    have hnew : context.allocated = false := by
      by_contra hallocated
      have hsome := h (by simpa using hallocated)
      rw [hmemory] at hsome
      cases hsome
    simp [hnew]

theorem expendOpened_compiled (request : TableRequest) (opened : OpenTable) (basename : Bytes)
    (context : CompileContext) :
    (expendOpened env request opened basename context).compiled =
      opened.output.map (·, if request.maintable ∧ request.formcode ≠ .doWord then
        (prntNewGstrings (addEndLines env basename
          ((fgetsLines bufSiz opened.input).map cstr) context).1).2 else []) := by
  unfold expendOpened
  dsimp only
  split_ifs
  · rfl
  · rfl

/-- One table, compiled after others and alone. -/
theorem expendtables_alone {context : CompileContext} (hsound : StoreSound env context)
    {request : TableRequest} (h : HistoryFree env context request) :
    (expendtables env context request).compiled =
      (expendtables env .fresh request).compiled := by
  have hfresh : StoreSound env .fresh := by simp [StoreSound, CompileContext.fresh]
  unfold expendtables
  cases hopen : openTable env request with
  | none => rfl
  | some opened =>
    dsimp only
    cases hkeys : tableKeys request.formcode opened.basename with
    | none => rfl
    | some basename =>
      dsimp only
      rw [initGstrMem_eq hsound, initGstrMem_eq hfresh]
      cases hmemory : env.memory with
      | false => rfl
      | true =>
        rw [if_pos rfl, if_pos rfl]
        dsimp only
        rw [expendOpened_compiled, expendOpened_compiled]
        by_cases hcompiled : request.maintable ∧ request.formcode ≠ .doWord
        · obtain ⟨herror, hmeasure⟩ := h opened basename hopen hkeys hcompiled
          have hraise : ({ context with allocated := true, stored := [] } : CompileContext) =
              CompileContext.raise context.maxString
                { CompileContext.fresh with allocated := true, stored := [] } := by
            simp [CompileContext.raise, CompileContext.fresh, herror]
          rw [if_pos hcompiled, if_pos hcompiled, hraise, addEndLines_raise]
          have hown : (addEndLines env basename ((fgetsLines bufSiz opened.input).map cstr)
              { CompileContext.fresh with allocated := true, stored := [] }).1.maxString =
                longestEnding env basename opened.input :=
            addEndLines_measure env basename opened.input rfl rfl rfl
          rw [← hown] at hmeasure
          rw [CompileContext.raise_of_le hmeasure]
        · rw [if_neg hcompiled, if_neg hcompiled]

theorem record_allocated (context : CompileContext) (error : RuntimeError) :
    (context.record error).allocated = context.allocated := by
  unfold CompileContext.record
  split_ifs
  · rfl
  · rfl

theorem StoreSound.expendtables {context : CompileContext} (h : StoreSound env context)
    (request : TableRequest) : StoreSound env (expendtables env context request).context := by
  unfold Morpheus.expendtables
  split
  · exact h
  · split
    · intro hallocated
      rw [record_allocated] at hallocated
      exact h hallocated
    · rw [initGstrMem_eq h]
      cases hmemory : env.memory with
      | false =>
        intro hallocated
        rw [if_neg (by simp)] at hallocated
        rw [record_allocated] at hallocated
        exact h hallocated
      | true => exact fun _ => hmemory

theorem putInt32_injective {a b : UInt32} (h : putInt32 a = putInt32 b) : a = b := by
  have ha := getInt32_reads a [] []
  have hb := getInt32_reads b [] []
  rw [h, hb] at ha
  simpa using (EStateM.Result.ok.inj ha).1.symm

/-- A header that is wider than the one of the table alone shows in the file. -/
theorem prntNewGstrings_raise_iff {context : CompileContext} {m : ℕ} (h : m ≤ maxWordSize) :
    (prntNewGstrings (context.raise m)).2 = (prntNewGstrings context).2 ↔
      m ≤ context.maxString := by
  constructor
  · intro heq
    by_contra hlt
    have hmax : (context.raise m).maxString = m := max_eq_left (by omega)
    have hwide : ∀ n : ℕ, n ≠ 0 → n ≤ m →
        setEndheader n = some (putInt32 morphVersion ++ putInt32 (UInt32.ofNat n)) := by
      intro n hn hle
      unfold setEndheader
      rw [if_neg (by omega)]
      rfl
    unfold prntNewGstrings at heq
    rw [hmax, hwide m (by omega) le_rfl] at heq
    by_cases hzero : context.maxString = 0
    · have hempty : compiledRecords context.stored 0 = [] := by
        simp [compiledRecords, writeEnding, validEndingIo]
      have hnone : setEndheader 0 = none := rfl
      rw [hzero] at heq
      dsimp only at heq
      rw [Nat.cast_zero, hnone] at heq
      dsimp only at heq
      rw [hempty] at heq
      have hlength := congrArg List.length heq
      simp at hlength
    · rw [hwide context.maxString hzero (by omega)] at heq
      dsimp only at heq
      rw [List.append_assoc, List.append_assoc, List.append_cancel_left_eq] at heq
      have hheader := (List.append_inj heq (by simp)).1
      have hvalue := congrArg UInt32.toNat (putInt32_injective hheader)
      have hsixty : maxWordSize = 60 := rfl
      rw [UInt32.toNat_ofNat_of_lt' (by simp [UInt32.size]; omega),
        UInt32.toNat_ofNat_of_lt' (by simp [UInt32.size]; omega)] at hvalue
      omega
  · intro hle
    rw [CompileContext.raise_of_le hle]

/-- Without a pending error a table that is compiled comes out the same exactly when its own
longest ending is not shorter than those before. -/
theorem expendtables_alone_iff {context : CompileContext} (hsound : StoreSound env context)
    (hmemory : env.memory = true) (herror : context.runtimeError = .none)
    (hwide : context.maxString ≤ maxWordSize) {request : TableRequest} {opened : OpenTable}
    {basename path : Bytes} (hopen : openTable env request = some opened)
    (hkeys : tableKeys request.formcode opened.basename = some basename)
    (houtput : opened.output = some path)
    (hcompiled : request.maintable ∧ request.formcode ≠ .doWord) :
    (expendtables env context request).compiled = (expendtables env .fresh request).compiled ↔
      context.maxString ≤ longestEnding env basename opened.input := by
  have hfresh : StoreSound env .fresh := by simp [StoreSound, CompileContext.fresh]
  have hraise : ({ context with allocated := true, stored := [] } : CompileContext) =
      CompileContext.raise context.maxString
        { CompileContext.fresh with allocated := true, stored := [] } := by
    simp [CompileContext.raise, CompileContext.fresh, herror]
  have hown : (addEndLines env basename ((fgetsLines bufSiz opened.input).map cstr)
      { CompileContext.fresh with allocated := true, stored := [] }).1.maxString =
        longestEnding env basename opened.input :=
    addEndLines_measure env basename opened.input rfl rfl rfl
  rw [← hown, ← prntNewGstrings_raise_iff hwide]
  unfold expendtables
  rw [hopen]
  dsimp only
  rw [hkeys]
  dsimp only
  rw [initGstrMem_eq hsound, initGstrMem_eq hfresh, hmemory, if_pos rfl, if_pos rfl]
  dsimp only
  rw [expendOpened_compiled, expendOpened_compiled, if_pos hcompiled, if_pos hcompiled, hraise,
    addEndLines_raise, houtput]
  simp

/-- In a run whose tables are all free of their history, each of them is compiled as it is
alone in a new context. -/
theorem compileTables_alone (env : TableEnv) (requests : List TableRequest)
    (h : HistoryFreeRun env .fresh requests) :
    compileTables env .fresh requests =
      requests.map fun request => (expendtables env .fresh request).compiled := by
  have hrun : ∀ context, StoreSound env context → HistoryFreeRun env context requests →
      compileTables env context requests =
        requests.map fun request => (expendtables env .fresh request).compiled := by
    clear h
    induction requests with
    | nil => exact fun _ _ _ => rfl
    | cons request requests ih =>
      intro context hsound hfree
      rw [compileTables, List.map_cons, expendtables_alone hsound hfree.1,
        ih _ (hsound.expendtables request) hfree.2]
  exact hrun .fresh (by simp [StoreSound, CompileContext.fresh]) h
end

/-- Tables whose names start with `w` have one ending of five letters, the others one of one. -/
def twoTables : TableEnv where
  fopen := fun _ => some (ascii "a\n")
  morphFopen := fun _ => none
  create := fun _ => true
  memory := true
  scanName := fun _ => some { GkString.zero with stemtype := 1 }
  line := fun error basename _ =>
    if error ≠ .none then ⟨true, [], error⟩
    else if basename.head? = some 119 then
      ⟨true, [⟨{ GkString.zero with gkstring := ascii "ontai" }, by decide, by decide⟩], .none⟩
    else ⟨true, [⟨{ GkString.zero with gkstring := ascii "a" }, by decide, by decide⟩], .none⟩

def wStem : TableRequest := ⟨ascii "w_stem", true, .doEnd, by decide⟩

def aStem : TableRequest := ⟨ascii "a_stem", true, .doEnd, by decide⟩

/-- The short table first: both come out as they do alone. -/
theorem compileTables_alone_short :
    HistoryFreeRun twoTables .fresh [aStem, wStem] ∧
      compileTables twoTables .fresh [aStem, wStem] =
        [aStem, wStem].map fun request => (expendtables twoTables .fresh request).compiled := by
  have hrun : HistoryFreeRun twoTables .fresh [aStem, wStem] := by
    refine ⟨?_, ?_, trivial⟩
    · intro opened basename hopen hkeys _
      exact ⟨rfl, Nat.zero_le _⟩
    · intro opened basename hopen hkeys _
      have hname : openTable twoTables wStem = some ⟨ascii "w_stem", ascii "w_stem", ascii "a\n",
          some (ascii "endtables/out/w_stem.out")⟩ := by
        decide
      rw [hname] at hopen
      cases hopen
      cases hkeys
      exact ⟨by decide, by decide⟩
  exact ⟨hrun, compileTables_alone twoTables [aStem, wStem] hrun⟩

/-- The long table first: the short one gets the width of the long one. -/
theorem compileTables_dependsOnHistory :
    compileTables twoTables .fresh [wStem, aStem] ≠
      [wStem, aStem].map fun request => (expendtables twoTables .fresh request).compiled := by
  decide

end Morpheus
