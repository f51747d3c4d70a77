import Morpheus.AnalysisStore
import Morpheus.EarlyReturn
import Morpheus.EndTables
import Morpheus.EndingRetrieval

/-!
# Spelling retries

`checkstring3`, `checkstring4` and `checkapostr` of `checkstring.c`: a word is looked up, and
when it has no analysis it is looked up again in other spellings. What the dictionary answers is
given, and may change from one lookup to the next.
-/
namespace Morpheus

/-- What the retries read of the `gk_word`, with the number of lookups made so far. -/
structure SpellWord where
  workword : Bytes
  morphflags : MorphFlags
  analyses : List GkAnalysis
  lookups : ℕ

/-- The language, the option `STRICT_CASE`, and the lookups: in the dictionary, each with its
return value and the analysis store afterwards, and in the tables of preverbs and endings. -/
structure Spelling where
  language : ℤ
  strictCase : Bool
  checkword : SpellWord → ℕ × List GkAnalysis
  checkindecl : SpellWord → ℕ × List GkAnalysis
  checknom : SpellWord → ℕ × List GkAnalysis
  isRawpreverb : Bytes → Bool
  chckend : Bytes → Bool

abbrev Check := SpellWord → Option (ℕ × SpellWord)

/-- `set_workword` -/
def SpellWord.setWorkword (gkword : SpellWord) (s : Bytes) : SpellWord :=
  { gkword with workword := xstrncpy s maxWordSize }

/-- A lookup in the dictionary. -/
def SpellWord.ask (gkword : SpellWord) (lookup : SpellWord → ℕ × List GkAnalysis) :
    ℕ × SpellWord :=
  ((lookup gkword).1,
    { gkword with analyses := (lookup gkword).2, lookups := gkword.lookups + 1 })

section Spellings

/-- `cmpend`: what stands in front of an ending. -/
def cmpend (word ending : Bytes) : Option Bytes :=
  if ending ≠ [] ∧ ending.length < word.length ∧ ending <:+ word then
    some (word.take (word.length - ending.length))
  else none

/-- `has_cun` -/
def hasCun : Bytes → Option Bytes
  | [] => none
  | c :: s =>
    if c = 99 ∧ s.headD 0 = 117 then some (115 :: s) else (hasCun s).map fun s => c :: s

/-- `has_tt` -/
def hasTt : Bytes → Option Bytes
  | [] => none
  | c :: s =>
    if c = 116 ∧ s.headD 0 = 116 then some (115 :: 115 :: s.tail)
    else (hasTt s).map fun s => c :: s

/-- `LatVow`; `strchr` finds the end of the text too. -/
def latVow (c : Byte) : Bool := c == 0 || (ascii "aeiouAEIOU").contains c

/-- `u2v` behind the first letter: the word, and the number of changes. -/
def u2vFrom (spelling : Spelling) : Bytes → Bytes → Bytes × ℕ
  | _, [] => ([], 0)
  | half1, c :: s =>
    let changes := c == 117 && latVow (s.headD 0) &&
      (latVow (half1.getLastD 0) || spelling.isRawpreverb half1 || spelling.chckend s)
    let c := if changes then 118 else c
    let rest := u2vFrom spelling (half1 ++ [c]) s
    (c :: rest.1, (if changes then 1 else 0) + rest.2)

/-- `u2v` -/
def u2v (spelling : Spelling) : Bytes → Bytes × ℕ
  | [] => ([], 0)
  | c :: s =>
    let changes := (c == 85 || c == 117) && latVow (s.headD 0)
    let c := if changes then (if c == 85 then 86 else 118) else c
    let rest := u2vFrom spelling [c] s
    (c :: rest.1, (if changes then 1 else 0) + rest.2)

/-- `morpheus_latin_can_retry_j` -/
def latinCanRetryJ : Bytes → Bool
  | c :: d :: _ :: _ => c == 105 && (ascii "aeiou").contains d
  | _ => false

/-- The spellings with `j` for one `i`. -/
def jSpellings : Bytes → Bytes → List Bytes
  | _, [] => []
  | before, c :: s =>
    (if latinCanRetryJ (c :: s) then [before ++ 106 :: s] else []) ++ jSpellings (before ++ [c]) s

/-- `morpheus_latin_expand_ex` -/
def latinExpandEx (word : Bytes) (capacity : ℕ) : Option Bytes :=
  if word.length < 3 ∨ word.length ≥ capacity - 1 then none
  else if word.take 2 = ascii "ex" ∧ (ascii "cpt").contains (word.getD 2 0) then
    some (word.take 2 ++ 115 :: word.drop 2)
  else none

/-- `isupper` -/
def isUpper (c : Byte) : Bool := 65 ≤ c && c ≤ 90

/-- `toupper` -/
def toupper (c : Byte) : Byte := if 97 ≤ c ∧ c ≤ 122 then c - 32 else c

/-- `beta_tolower` -/
def betaTolower (word : Bytes) : Bytes :=
  if word.headD 0 ≠ 42 then word
  else
    match word.dropWhile fun c => !isAlpha c with
    | [] => word
    | c :: s => c :: ((word.takeWhile fun c => !isAlpha c).tail ++ s)

/-- The word with its first letter in lower case. -/
def lowerFirst (language : ℤ) (word : Bytes) : Bytes :=
  if language = latin ∨ language = italian then
    match word with
    | [] => []
    | c :: s => (if tolower c = 118 ∧ isAlpha (s.headD 0) then 117 else tolower c) :: s
  else betaTolower word

/-- The word in lower case. -/
def lowerAll : Bytes → Bytes
  | [] => []
  | c :: s =>
    (if tolower c = 118 ∧ s ≠ [] ∧ (ascii "aeiou").contains (s.headD 0) = false then 117
      else tolower c) :: lowerAll s

/-- The word with its first letter in upper case. -/
def upperFirst : Bytes → Bytes
  | [] => []
  | c :: s => toupper c :: s

/-- `nsylls` of a word from a position on. -/
def nsyllsFrom : Bytes → Bytes → ℕ
  | _, [] => 0
  | before, c :: s =>
    (if isVowel c && !isDiphth before c s then 1 else 0) + nsyllsFrom (before ++ [c]) s

/-- `nsylls` -/
def nsylls (word : Bytes) : ℕ := nsyllsFrom [] word

/-- `Is_breath` and `Is_quant` -/
def isBreathOrQuant (c : Byte) : Bool := c == 40 || c == 41 || c == 95 || c == 94

/-- `checkaccent` finds an accent on the last syllable. -/
def ultimaAccent (word : Bytes) : Bool :=
  word.any isVowel &&
    isAccent (((word.reverse.takeWhile fun c => !isVowel c).reverse.dropWhile
      isBreathOrQuant).headD 0)

/-- The word in front of a rough breathing with its last consonant unaspirated. The byte before
a word of two letters is outside of it. -/
def unaspirate (word : Bytes) : Option Bytes :=
  match word.reverse with
  | p :: c :: s =>
    if c = 113 then
      some (p :: 116 :: if s.headD 0 = 120 then 107 :: s.tail else s).reverse
    else if c = 120 then some (p :: 107 :: s).reverse
    else if c = 102 then some (p :: 112 :: s).reverse
    else none
  | _ => none

/-- `add_apostrvowel`, with the apostrophe at the end of the word. -/
def addApostrvowel (word vow : Bytes) : Bytes :=
  let word := word.dropLast ++ vow
  let candidate := if word.any isAccent then some word else appendText word maxWordSize [47]
  let candidate :=
    if vow.headD 0 = 117 ∨ vow.headD 0 = 105 ∨ vow.headD 0 = 97 then
      candidate.bind fun candidate => appendText candidate maxWordSize [94]
    else candidate
  if word.length ≥ maxWordSize then word else candidate.getD word

end Spellings

section Enclitics

/-- `GreekSuff` -/
def greekSuff : List (Bytes × UInt32) := [(ascii "per", 0o14000)]

/-- `LatinSuff` -/
def latinSuff : List (Bytes × UInt32) :=
  ([ascii "que", ascii "cumque", ascii "cunque", ascii "ne", ascii "ve", ascii "ue",
    ascii "libet", ascii "vis", ascii "piam", ascii "dem", ascii "dum"].map fun s => (s, 0)) ++
    [(ascii "met", 0o40016)]

/-- `ItalianSuff` -/
def italianSuff : List (Bytes × UInt32) :=
  [ascii "glie", ascii "gli", ascii "mi", ascii "me", ascii "ci", ascii "ce", ascii "ti",
    ascii "te", ascii "vi", ascii "ve", ascii "lo", ascii "li", ascii "la", ascii "le",
    ascii "loro", ascii "ne", ascii "si", ascii "se"].map fun s => (s, ppartMask)

def enclitArr (language : ℤ) : List (Bytes × UInt32) :=
  if language = latin then latinSuff else if language = italian then italianSuff else greekSuff

end Enclitics

section Activation

/-- An activation of `checkstring3`: the return value so far, the word, and the spellings it was
tried in so far with what each try returned. -/
structure Activation where
  rval : ℕ
  gkword : SpellWord
  tried : List (Bytes × ℕ)

/-- A retry: the spelling; whether the result is added to the return value or replaces it;
whether it is made only while there is no analysis; the stem types that are kept afterwards, all
of them for 0; whether the function returns when there is a result; and whether the word gets its
spelling back when there is none. -/
structure Retry where
  spelling : Bytes
  adds : Bool := false
  whileEmpty : Bool := false
  mask : UInt32 := 0
  returns : Bool := true
  restores : Bool := false

/-- The retries of a place in `checkstring3`, for the word that stands in the record there, and
whether the record has no analysis. -/
abbrev Plan := Bytes → Bool → List Retry

variable (spelling : Spelling) (saveword : Bytes)

/-- Enclitics. -/
def enclitics : Plan := fun word _ =>
  (enclitArr spelling.language).filterMap fun enclitic =>
    (cmpend word enclitic.1).map fun stem =>
      { spelling := stem, adds := true, whileEmpty := true, mask := enclitic.2, restores := true }

/-- Latin prodelision. -/
def prodelision : Plan := fun word _ =>
  if spelling.language = latin ∧
      [ascii "ast", ascii "est", ascii "umst", ascii "amst", ascii "emst", ascii "omst"].any
        fun ending => (cmpend word ending).isSome then
    [{ spelling := word.take (word.length - 2) }]
  else []

/-- `...us` and `est` written as `...ust`. -/
def ustRetry : Plan := fun word _ =>
  if spelling.language = latin ∧ (cmpend word (ascii "ust")).isSome then
    [{ spelling := word.dropLast }]
  else []

/-- `...ist` and `...ost`: without the `t`, and without the letter before it. -/
def istRetry : Plan := fun word _ =>
  if spelling.language = latin ∧
      ((cmpend word (ascii "ist")).isSome ∨ (cmpend word (ascii "ost")).isSome) then
    [{ spelling := word.dropLast, adds := true, returns := false },
      { spelling := word.dropLast.dropLast, adds := true }]
  else []

/-- A final `n`, for `s` or tacked on. -/
def finalN : Plan := fun word empty =>
  if spelling.language = latin ∧ empty = true ∧ (cmpend word (ascii "n")).isSome then
    [{ spelling := word.dropLast ++ [115], adds := true, returns := false },
      { spelling := word.dropLast, adds := true }]
  else []

/-- `uenio` and `venio`. -/
def uRetry : Plan := fun _ _ =>
  if spelling.language = latin ∧ (u2v spelling saveword).2 ≠ 0 then
    [{ spelling := (u2v spelling saveword).1 }]
  else []

/-- In Italian every `u` for `v`. -/
def italianU : Plan := fun _ empty =>
  if spelling.language = italian ∧ empty = true ∧ saveword.any fun c => c == 85 || c == 117 then
    [{ spelling := saveword.map fun c => if c = 85 then 86 else if c = 117 then 118 else c
       adds := true }]
  else []

/-- `jubeo` and `iubeo`. The `J` of the first retry stays in the later ones. -/
def jRetry : Plan := fun _ _ =>
  if spelling.language = latin then
    let first := saveword.headD 0 == 73
    let workword := if first then 74 :: saveword.tail else saveword
    ((if first then [workword] else []) ++ jSpellings [] workword).map
      fun spelling => { spelling }
  else []

/-- `exsT` for `exT`. -/
def exRetry : Plan := fun word _ =>
  if spelling.language = latin ∧ word.take 2 = ascii "ex" then
    (latinExpandEx word maxWordSize).toList.map fun spelling => { spelling }
  else []

/-- The retries of `checkstring3` in their order. -/
def plans : List Plan :=
  [enclitics spelling, prodelision spelling, ustRetry spelling, istRetry spelling,
    finalN spelling, uRetry spelling saveword, italianU spelling saveword,
    jRetry spelling saveword, exRetry spelling]

/-- The spelling of the entered word. -/
def Activation.restore (act : Activation) : Activation :=
  { act with gkword := act.gkword.setWorkword saveword }

/-- The return value and the analyses behind a retry. -/
def Retry.result (retry : Retry) (act : Activation) (found : ℕ × SpellWord) : Activation where
  rval := if retry.adds then act.rval + found.1 else found.1
  gkword :=
    if retry.mask ≠ 0 then
      { found.2 with
        analyses := found.2.analyses.filter fun anal => anal.stemtype &&& retry.mask ≠ 0 }
    else found.2
  tried := act.tried ++ [(retry.spelling, found.1)]

def Retry.run (self : Check) (retry : Retry) (act : Activation) : Flow Activation :=
  if retry.whileEmpty = true ∧ act.gkword.analyses ≠ [] then .goes act
  else
    match self (act.gkword.setWorkword retry.spelling) with
    | none => .stuck
    | some found =>
      let act := retry.result act found
      if retry.returns = true ∧ act.rval ≠ 0 then .returned (act.restore saveword)
      else .goes (if retry.restores then act.restore saveword else act)

/-- The retries of one place. -/
def Plan.run (self : Check) (plan : Plan) (act : Activation) : Flow Activation :=
  Flow.runAll ((plan act.gkword.workword act.gkword.analyses.isEmpty).map
    (Retry.run saveword self)) act

/-- The word as it was entered. -/
def firstTry (check4 : Check) (gkword : SpellWord) : Flow Activation :=
  match check4 gkword with
  | none => .stuck
  | some (rval, gkword) => .goes ⟨rval, gkword, []⟩

/-- The word with other capitals. -/
def tryVariant (check4 : Check) (variant : Bytes → Bytes) (act : Activation) : Flow Activation :=
  match check4 { act.gkword with workword := variant act.gkword.workword } with
  | none => .stuck
  | some (rval, gkword) =>
    let act := { act with rval, gkword }
    if rval > 0 then .returned (act.restore saveword) else .goes act

/-- A word in upper case, which may be so because it begins a sentence. -/
def capitals (check4 : Check) (act : Activation) : Flow Activation :=
  let first := act.gkword.workword.headD 0
  if (isUpper first ∨ first = 42) ∧ spelling.strictCase = false then
    Flow.runAll ([tryVariant saveword check4 (lowerFirst spelling.language)] ++
      (if spelling.language ≠ greek then
        [tryVariant saveword check4 lowerAll, tryVariant saveword check4 upperFirst] else []) ++
      [fun act => .goes (act.restore saveword)]) act
  else .goes act

/-- A word with an apostrophe at its end. -/
def apostrophe (apostr : Check) (act : Activation) : Flow Activation :=
  if act.gkword.workword.getLast? = some 39 then
    match apostr act.gkword with
    | none => .stuck
    | some (workval, gkword) =>
      let act := { act with rval := act.rval + workval, gkword }
      if act.rval ≠ 0 then .returned (act.restore saveword) else .goes act
  else .goes act

end Activation

/-- The body of `checkstring3`, for what it calls. -/
def activation (spelling : Spelling) (check4 self apostr : Check) (gkword : SpellWord) :
    Flow Activation :=
  let saveword := xstrncpy gkword.workword maxWordSize
  (firstTry check4 gkword).andThen (Flow.runAll
    ([capitals spelling saveword check4, apostrophe saveword apostr] ++
      (plans spelling saveword).map (Plan.run saveword self) ++ [fun act => .goes (act.restore saveword)]))

/-- The retry of `checkstring4` with `su` for `cu`, only as an indeclinable or a nominal. -/
def checkCun (spelling : Spelling) (saveword : Bytes) (gkword : SpellWord) : ℕ × SpellWord :=
  match hasCun saveword with
  | none => (0, gkword)
  | some workword =>
    let indecl := (gkword.setWorkword workword).ask spelling.checkindecl
    let nom := indecl.2.ask spelling.checknom
    (indecl.1 + nom.1, nom.2.setWorkword saveword)

/-- `checkstring4`, with `fuel` activations left. -/
def checkstring4 (spelling : Spelling) : ℕ → Check
  | 0, _ => none
  | fuel + 1, gkword =>
    let first := gkword.ask spelling.checkword
    if first.1 > 0 then some first
    else
      let saveword := xstrncpy first.2.workword maxWordSize
      if spelling.language ≠ greek then some (0, first.2)
      else
        let cun := checkCun spelling saveword first.2
        if cun.1 > 0 then some cun
        else
          match hasTt saveword with
          | none => some (0, cun.2)
          | some workword =>
            (checkstring4 spelling fuel (cun.2.setWorkword workword)).map fun found =>
              (found.1, found.2.setWorkword saveword)

/-- A call whose result is added to the return value. -/
def accumulate (check : Check) (enter leave : SpellWord → SpellWord) (state : ℕ × SpellWord) :
    Option (ℕ × SpellWord) :=
  (check (enter state.2)).map fun found => (state.1 + found.1, leave found.2)

/-- The vowels that may have been elided, and whether such an elision is poetic. -/
def elidedVowels (numSylls : ℕ) : List (Bytes × Bool) :=
  if numSylls ≥ 1 then
    [(ascii "a", false), (ascii "i", false), (ascii "o", false), (ascii "e", false),
      (ascii "ai", true)]
  else [(ascii "e", false)]

/-- A retry of `checkapostr` with a vowel for the apostrophe. -/
def tryVowel (self : Check) (saveword : Bytes) (state : ℕ × SpellWord) (vow : Bytes × Bool) :
    Option (ℕ × SpellWord) :=
  let flags := state.2.morphflags
  accumulate self
    (fun gkword =>
      { gkword with
        workword := addApostrvowel gkword.workword vow.1
        morphflags := if vow.2 then addMorphflag flags poetic else flags })
    (fun gkword =>
      { gkword.setWorkword saveword with
        morphflags := if vow.2 then flags else gkword.morphflags })
    state

/-- The retry of `checkapostr` in front of a rough breathing. -/
def tryUnaspirated (apostr : Check) (saveword : Bytes) (gkword : SpellWord) :
    Option (ℕ × SpellWord) :=
  match unaspirate gkword.workword with
  | none => some (0, gkword)
  | some word =>
    accumulate apostr (fun gkword => { gkword with workword := word })
      (fun gkword => gkword.setWorkword saveword) (0, gkword)

/-- The last retry of `checkapostr`, without an accent on the last syllable. -/
def tryUnaccented (apostr : Check) (saveword : Bytes) (state : ℕ × SpellWord) :
    Option (ℕ × SpellWord) :=
  if state.1 = 0 ∧ ultimaAccent saveword = true then
    accumulate apostr (fun gkword => { gkword with workword := stripacc saveword })
      (fun gkword => gkword.setWorkword saveword) state
  else some state

/-- The body of `checkapostr`, for what it calls. -/
def elision (self apostr : Check) (gkword : SpellWord) : Option (ℕ × SpellWord) :=
  if gkword.workword.getLast? = some 39 then
    let saveword := xstrncpy gkword.workword maxWordSize
    ((tryUnaspirated apostr saveword gkword).bind fun state =>
      (elidedVowels (nsylls state.2.workword)).foldlM (tryVowel self saveword) state).bind
        (tryUnaccented apostr saveword)
  else some (0, gkword)

mutual

/-- `checkstring3`, with `fuel` activations left. -/
def checkstring3 (spelling : Spelling) : ℕ → Check
  | 0, _ => none
  | fuel + 1, gkword =>
    (activation spelling (checkstring4 spelling fuel) (checkstring3 spelling fuel)
      (checkapostr spelling fuel) gkword).final.map fun act => (act.rval, act.gkword)

/-- `checkapostr`, with `fuel` activations left. -/
def checkapostr (spelling : Spelling) : ℕ → Check
  | 0, _ => none
  | fuel + 1, gkword => elision (checkstring3 spelling fuel) (checkapostr spelling fuel) gkword

end

end Morpheus
