import Morpheus.DerivationKeys
import Morpheus.EndTables
import Morpheus.GenerPreparer
import Morpheus.PreverbCombination
import Morpheus.PublicValues

/-!
# The two derivation expanders

`morpheus_gener_expand_derivation` of `derivation.c` and `combine_conj` of `combconj.c` write the
record of a principal part by the first rule of a derivation table that goes with a request. The
helpers that both call are given.
-/
namespace Morpheus

/-- `SYLL_AUG` -/
def syllAug : ℕ := 1

/-- `NO_REDUPL` -/
def noRedupl : ℕ := 48

/-- `N_INFIX` -/
def nInfix : ℕ := 49

/-- `PRES_REDUPL` -/
def presRedupl : ℕ := 64

/-- `PRIM_DERIV` -/
def primDeriv : UInt32 := 0o4000000

/-- `PP_PR` -/
def ppPr : UInt32 := 0o10000000

/-- `PP_FU` -/
def ppFu : UInt32 := 0o20000000

/-- `PP_AO` -/
def ppAo : UInt32 := 0o30000000

/-- `PP_PP` -/
def ppPp : UInt32 := 0o50000000

/-- `PP_AP` -/
def ppAp : UInt32 := 0o60000000

/-- `PP_FP` -/
def ppFp : UInt32 := 0o70000000

/-- The voices `ACTIVE`, `MIDDLE`, `PASSIVE` and `MEDIO_PASS`. -/
def plainVoices : List (BitVec 3) := [1, 2, 4, 6]

/-- What `ScanAsciiKeys` finds in a list of keys. -/
structure ScannedKeys where
  gstr : GkString
  prvbFlags : MorphFlags
  oddkeys : Option Bytes
  preverb : Bytes
  endstring : Bytes

/-- The helpers of both expanders. `ScanAsciiKeys` passes over blanks at the end, and each suffix
for passive stems has a letter. -/
structure ConjHelpers where
  scanAsciiKeys : Bytes → ScannedKeys
  wantGkEnd : GkString → GkString → Bool × MorphFlags × GkString
  presRedupl : Bytes → Bytes
  addninfix : Bytes → Bytes
  addDiaeresis : Bytes → Bytes
  addbreath : Bytes → Byte → Bytes
  doEuph : GkString → Option GkString
  simpleredupit : Bytes → Bool → Bytes
  fixperf : Bytes → Bytes
  endsIn : Bytes → Bytes → Bool
  getStemNum : Bytes → UInt32
  ppassTable : List (Bytes × Bytes)
  doDissim : Bytes → UInt32 → Bytes × Bool
  sprintGkFlags : GkString → Bool × Bytes
  scan_blank : ∀ keys, scanAsciiKeys (keys ++ [32]) = scanAsciiKeys keys
  ppass_letter : ∀ entry ∈ ppassTable, endsIn [] entry.1 = false

/-- `derivation_request`, with what `ConjGkstr` returns. -/
structure DerivationRequest where
  constraints : GkString
  principalPart : UInt32
  suffix : Bytes
  oddKeys : Bytes
  preverb : Bytes

/-- What comes of a request: an error, no rule, or a line. -/
inductive Expanded
  | failed
  | noRule
  | line (text : Bytes)
  deriving DecidableEq, Repr

/-- The commas of a text up to the first byte that `stop` names become blanks. -/
def commasToBlanks (stop : Byte → Bool) : Bytes → Bytes
  | [] => []
  | c :: s => if stop c then c :: s else (if c = 44 then 32 else c) :: commasToBlanks stop s

section Requests
variable (c : ConjHelpers)

/-- The principal parts of `arg_stemclass`. -/
def argStemclass : List (String × UInt32) :=
  [("pp_pr", ppPr), ("pp_fu", ppFu), ("pp_ao", ppAo), ("pp_pf", ppPf), ("pp_pp", ppPp),
    ("pp_ap", ppAp), ("pp_fp", ppFp), ("pp_p4", ppSu), ("pp_su", ppSu), ("pp_va", adjStem),
    ("pp_vn", nounStem)]

/-- `GetStemClass` of a principal part. -/
def getStemClass (classp : Bytes) : UInt32 :=
  ((argStemclass.find? fun row => ascii row.1 == classp).map Prod.snd).getD 0xFFFFFFFF

/-- `GetStemClass` of `pp_` with a key; no principal part, and a name that does not fit, are
errors. -/
def principalPartOf (key : Bytes) : Option UInt32 :=
  if (ascii "pp_" ++ key).length ≥ maxWordSize then none
  else
    let stype := getStemClass (ascii "pp_" ++ key)
    if stype = 0 ∨ stype = 0xFFFFFFFF then none else some stype

/-- The suffix that a text asks for first, and the rest of the text. -/
def takeSuffix (local_ : Bytes) : Option (Bytes × Bytes) :=
  if local_.head? = some 45 then
    if (nextkey local_).1.length ≥ maxWordSize then none
    else some ((nextkey local_).1.drop 1, (nextkey local_).2)
  else some ([], local_)

/-- The request that keys ask for. -/
def requestOf (principalPart : UInt32) (suffix parsedKeys : Bytes) : Option DerivationRequest :=
  let scanned := c.scanAsciiKeys parsedKeys
  let oddKeys := scanned.oddkeys.getD []
  if oddKeys.length ≥ 2 * GenerSource.longString ∨ scanned.preverb.length ≥ maxWordSize then none
  else some {
    constraints := { scanned.gstr with
      gkstring := scanned.endstring
      morphflags := addMorphflag (addMorphflags scanned.gstr.morphflags scanned.prvbFlags) isDeriv }
    principalPart
    suffix
    oddKeys
    preverb := scanned.preverb }

/-- `join_keys` -/
def joinRequestKeys (capacity : ℕ) (left right : Bytes) : Option Bytes :=
  let joined := if left = [] then right else if right = [] then left else left ++ 32 :: right
  if joined.length < capacity then some joined else none

/-- `parse_request`; a key that leaves its buffer is taken for an error. -/
def parseRequest (globalKeys requestKeys : Bytes) : Option DerivationRequest :=
  if requestKeys.length ≥ GenerSource.longString then none
  else
    let next := nextkey (commasToBlanks isSpace requestKeys)
    if next.1 = [] then none
    else do
      let principalPart ← principalPartOf next.1
      let suffixed ← takeSuffix next.2
      let parsedKeys ← joinRequestKeys (2 * GenerSource.longString) globalKeys suffixed.2
      requestOf c principalPart suffixed.1 parsedKeys

/-- `conj_key`: the first word of a text and the text after it. -/
def conjKey (input : Bytes) : Bytes × Bytes :=
  let start := input.dropWhile isSpace
  (start.takeWhile fun c => !isSpace c, (start.dropWhile fun c => !isSpace c).dropWhile isSpace)

/-- `ConjGkstr`; where it has nothing to return the program ends. -/
def conjGkstr (globalkeys keys : Bytes) : Option DerivationRequest :=
  if keys.length ≥ 2 * GenerSource.longString then none
  else do
    let next := conjKey (commasToBlanks (· == 32) keys)
    let stype ← principalPartOf next.1
    let suffixed ← takeSuffix next.2
    let keytmp := if globalkeys = [] then suffixed.2 else globalkeys ++ 32 :: suffixed.2
    if keytmp.length ≥ 2 * GenerSource.longString then none
    else requestOf c stype suffixed.1 keytmp

end Requests

section Rules
variable (c : ConjHelpers)

/-- `MatchSuff` and `suffix_matches` -/
def matchSuff (ruleSuffix requested : Bytes) : Bool :=
  ruleSuffix == requested || stripshortmark ruleSuffix == requested

/-- `rule_matches`, which `DoConjStem` tests in the same words. -/
def ruleMatches (request : DerivationRequest) (rule : GkString) : Bool :=
  (rule.stemtype &&& ppartMask == request.principalPart ||
      rule.stemtype &&& adjStem == request.principalPart ||
      rule.stemtype &&& nounStem == request.principalPart) &&
    (request.suffix.isEmpty || matchSuff rule.gkstring request.suffix)

/-- The tests in front of `WantGkEnd`. -/
def ruleFits (constraints rule : GkString) : Bool :=
  (constraints.stemtype == 0 || constraints.stemtype == rule.stemtype) &&
    !(rule.stemtype &&& ppartMask == ppPf && constraints.forminfo.voice &&& 6 != 0)

/-- The stem with its reduplication and its infix. -/
def presentStem (constraints : GkString) (stem : Bytes) : Bytes :=
  let word := if constraints.has presRedupl then c.presRedupl stem else stem
  if constraints.has nInfix then c.addninfix word else word

/-- `conjoin_rule` and `conjoinX` -/
def conjoinRule (rule : GkString) (word : Bytes) : Option (Bytes × GkString) :=
  let joined := word ++ rule.gkstring
  if joined.length ≥ maxWordSize then none
  else
    match c.doEuph { rule with gkstring := joined } with
    | none => some (joined, { rule with gkstring := joined })
    | some contracted =>
      if contracted.gkstring.length ≥ maxWordSize then none
      else some (contracted.gkstring, contracted)

/-- The ending put to the word, with `ending` for the rule's own. -/
def attachEnding (stem word ending : Bytes) (rule : GkString) : Option (Bytes × GkString) :=
  let rule := { rule with gkstring := ending }
  if isBreath (stem.headD 0) then some (c.addbreath ending (stem.headD 0), rule)
  else conjoinRule c rule word

/-- Whether a vowel before the ending would make a diphthong of its first letter. -/
def makesDiphthong (last : Byte) (ending : Bytes) : Bool :=
  isVowel (ending.headD 0) && !isDiphth (ending.take 1) (ending.getD 1 0) (ending.drop 2) &&
    isVowel last && isDiphth [last] (ending.headD 0) []

/-- The first rule for a passive stem. -/
def passiveEntry (word : Bytes) : Option (Bytes × Bytes) :=
  c.ppassTable.find? fun entry => c.endsIn word entry.1

/-- The stem and the type that an entry gives. -/
def passiveStem (word : Bytes) (rule : GkString) : Bytes × GkString :=
  match passiveEntry c word with
  | none => (word, rule)
  | some entry => (word.take (word.length - entry.1.length),
      { rule with stemtype := c.getStemNum entry.2 })

/-- `make_passive_stem` -/
def makePassiveStem (stem : Bytes) (rule : GkString) : Bytes × GkString :=
  if stem = [] ∨ isVowel (stem.getLastD 0) then (stem, rule) else passiveStem c stem rule

/-- `makeppass` -/
def makeppass (origstem : Bytes) (gstr : GkString) : Bytes × GkString :=
  if isVowel (origstem.getLastD 0) then (origstem, gstr) else passiveStem c origstem gstr

/-- The perfect stem, with `passive` for the stem of the perfect passive. -/
def perfectStem (passive : Bytes → GkString → Bytes × GkString) (constraints : GkString)
    (principalPart : UInt32) (word : Bytes) (rule : GkString) : Bytes × GkString :=
  if isPerfect principalPart then
    let word := if constraints.has noRedupl then word
      else c.simpleredupit word (constraints.has syllAug)
    if rule.derivtype &&& primDeriv ≠ 0 then
      if principalPart = ppPf then (c.fixperf word, rule)
      else if principalPart = ppPp then passive word rule
      else (word, rule)
    else (word, rule)
  else (word, rule)

/-- The rule with the dialect of a request, none when the two do not go together. -/
def ruleDialect (constraints rule : GkString) : Option GkString :=
  if constraints.dialect = 0 then some rule
  else if negativeDialect (andDialect constraints.dialect rule.dialect) then none
  else some { rule with
    dialect := if rule.dialect = 0 then andDialect constraints.dialect rule.dialect
      else constraints.dialect }

/-- The flags of the request go over to the rule. -/
def ruleFlags (constraints rule : GkString) : GkString :=
  { rule with
    morphflags := zapMorphflag
      (zapMorphflag (addMorphflags rule.morphflags constraints.morphflags) isDeriv) rEIAlpha }

/-- The voice that `write_rule` gives a rule for that of the request. -/
def writtenVoice (voice : BitVec 3) (rule : GkString) : BitVec 3 :=
  if voice = 0 then rule.forminfo.voice
  else if voice = 6 then
    if rule.stemtype &&& ppartMask = ppAp then 4
    else if rule.stemtype &&& ppartMask = ppFu ∨ rule.stemtype &&& ppartMask = ppAo then 2
    else 6
  else if voice = 1 then 1
  else if voice = 2 then 2
  else if voice = 4 then 4
  else rule.forminfo.voice

/-- The voice that `CheckConjPpart` gives it. -/
def conjVoice (voice : BitVec 3) (rule : GkString) : BitVec 3 :=
  if voice = 0 then rule.forminfo.voice
  else if voice = 6 then
    if rule.stemtype &&& ppartMask = ppAp then 4
    else if rule.stemtype &&& ppartMask = ppFu ∨ rule.stemtype &&& ppartMask = ppAo then 2
    else voice
  else voice

/-- The rule with a voice, and with what else the request says of the form. -/
def ruleForm (voice : BitVec 3) (constraints rule : GkString) : GkString :=
  let f := constraints.forminfo
  { rule with
    forminfo := { rule.forminfo with
      voice := voice
      tense := if f.tense ≠ 0 then f.tense else rule.forminfo.tense
      mood := if f.mood ≠ 0 then f.mood else rule.forminfo.mood
      person := if f.person ≠ 0 then f.person else rule.forminfo.person
      number := if f.number ≠ 0 then f.number else rule.forminfo.number }
    morphflags := zapMorphflag rule.morphflags rootPreverb
    domains := constraints.domains }

/-- The tag of a record, by its stem type. -/
def recordTag (stemtype : UInt32) : Option Bytes :=
  if stemtype &&& ppartMask ≠ 0 then some (ascii ":vs:")
  else if stemtype &&& adjStem ≠ 0 then some (ascii ":aj:")
  else if stemtype &&& nounStem ≠ 0 then some (ascii ":no:")
  else none

/-- The line of a record behind its tag. -/
def recordText (request : DerivationRequest) (root : Bool) (word flags : Bytes) : Bytes :=
  word ++ [32] ++ flags ++
    (if request.constraints.gkstring = [] then [] else ascii " end:" ++ request.constraints.gkstring) ++
    (if request.preverb = [] then []
      else [32] ++ (if root then ascii "rpb" else ascii "pb") ++ [58] ++ request.preverb) ++
    (if request.oddKeys = [] then [] else [32] ++ request.oddKeys) ++ [10]

/-- The word of a rule and the rule behind `do_dissim`, with the answer of it. -/
structure Spelled where
  word : Bytes
  rule : GkString
  dissimilated : Bool

/-- `write_rule` up to `do_dissim`. -/
def writtenWord (constraints rule : GkString) (stem : Bytes) : Option Spelled :=
  if stem.length ≥ maxWordSize then none
  else
    let principalPart := rule.stemtype &&& ppartMask
    let word := presentStem c constraints stem
    let ending := if word ≠ [] ∧ makesDiphthong (word.getLastD 0) rule.gkstring then
        c.addDiaeresis rule.gkstring
      else rule.gkstring
    let attached := if rule.gkstring.head? = some 42 then some (word, rule)
      else attachEnding c stem word ending rule
    attached.map fun attached =>
      let spelled := perfectStem c (makePassiveStem c) constraints principalPart attached.1 attached.2
      let dissim := c.doDissim spelled.1 principalPart
      ⟨dissim.1, spelled.2, dissim.2⟩

/-- `CheckConjPpart` up to `do_dissim`. In front of an empty word stands no vowel. -/
def conjWord (constraints rule : GkString) (stem : Bytes) : Option Spelled :=
  if stem.length ≥ maxWordSize then none
  else
    let principalPart := rule.stemtype &&& ppartMask
    let word := presentStem c constraints stem
    let ending := if makesDiphthong (word.getLastD 0) rule.gkstring then
        c.addDiaeresis rule.gkstring
      else rule.gkstring
    let attached := if rule.gkstring.head? = some 42 then some (word, rule)
      else attachEnding c stem word ending rule
    attached.map fun attached =>
      let spelled := perfectStem c (makeppass c) constraints principalPart attached.1 attached.2
      let dissim := c.doDissim spelled.1 principalPart
      ⟨dissim.1, spelled.2, dissim.2⟩

/-- The flags of a request with `DISSIMILATION` where the word was dissimilated. -/
def withDissimilation (constraints : GkString) (dissimilated : Bool) : GkString :=
  if dissimilated then
    { constraints with morphflags := addMorphflag constraints.morphflags dissimilation }
  else constraints

/-- `write_rule` -/
def writeRule (request : DerivationRequest) (rule : GkString) (stem : Bytes) : Expanded :=
  match writtenWord c request.constraints rule stem with
  | none => .failed
  | some spelled =>
    let constraints := withDissimilation request.constraints spelled.dissimilated
    match ruleDialect constraints spelled.rule with
    | none => .noRule
    | some rule =>
      let rule := ruleFlags constraints rule
      let root := rule.has rootPreverb
      let rule := ruleForm (writtenVoice constraints.forminfo.voice rule) constraints rule
      let flags := c.sprintGkFlags rule
      if flags.1 = false then .failed
      else
        match recordTag rule.stemtype with
        | none => .failed
        | some tag => .line (tag ++ recordText { request with constraints } root spelled.word flags.2)

/-- `CheckConjPpart` behind `WantGkEnd`: what comes of the rule, and the request afterwards. -/
def conjRecord (request : DerivationRequest) (rule : GkString) (stem : Bytes) :
    Expanded × DerivationRequest :=
  match conjWord c request.constraints rule stem with
  | none => (.failed, request)
  | some spelled =>
    let gstr1 := withDissimilation request.constraints spelled.dissimilated
    match ruleDialect gstr1 spelled.rule with
    | none => (.noRule, { request with constraints := gstr1 })
    | some rule =>
      let rule := ruleFlags gstr1 rule
      let root := rule.has rootPreverb
      let rule := ruleForm (conjVoice gstr1.forminfo.voice rule) gstr1 rule
      let tag := (recordTag rule.stemtype).getD (ascii ":??:")
      let request := { request with constraints := gstr1 }
      (.line (tag ++ recordText request root spelled.word (c.sprintGkFlags rule).2), request)

/-- `CheckConjPpart` -/
def checkConjPpart (request : DerivationRequest) (rule : GkString) (stem : Bytes) :
    Expanded × DerivationRequest :=
  let gstr1 := request.constraints
  let gstr1 := if gstr1.dialect = 0 ∧ rule.gkstring = [] then
      { gstr1 with dialect := UInt16.ofNat attic }
    else gstr1
  if ruleFits gstr1 rule = false then (.noRule, { request with constraints := gstr1 })
  else
    let want := c.wantGkEnd gstr1 rule
    let request := { request with constraints := { gstr1 with morphflags := want.2.1 } }
    if want.1 = false then (.noRule, request) else conjRecord c request want.2.2 stem

/-- The loop of `morpheus_gener_expand_derivation` over the rules of a table. -/
def expandRules (stem : Bytes) : DerivationRequest → List GkString → Expanded
  | _, [] => .noRule
  | request, rule :: rules =>
    if ruleMatches request rule = false ∨ ruleFits request.constraints rule = false then
      expandRules stem request rules
    else
      let want := c.wantGkEnd request.constraints rule
      let request := { request with
        constraints := { request.constraints with morphflags := want.2.1 } }
      if want.1 = false then expandRules stem request rules
      else writeRule c request want.2.2 stem

/-- The loop of `DoConjStem`. -/
def conjRules (stem : Bytes) : DerivationRequest → List GkString → Expanded
  | _, [] => .noRule
  | request, rule :: rules =>
    if ruleMatches request rule = false then conjRules stem request rules
    else
      let checked := checkConjPpart c request rule stem
      if checked.1 = .noRule then conjRules stem checked.2 rules else checked.1

end Rules

/-- A derivation table: every rule has a suffix, an asterisk for none. -/
structure DerivationTable where
  rules : List GkString
  suffix_ne : ∀ rule ∈ rules, rule.gkstring ≠ []

/-- `morpheus_gener_expand_derivation` with a table that it can read. -/
def expandDerivation (c : ConjHelpers) (table : DerivationTable)
    (stem globalKeys requestKeys : Bytes) : Expanded :=
  if stem = [] ∨ requestKeys = [] then .failed
  else
    match parseRequest c globalKeys requestKeys with
    | none => .failed
    | some request => expandRules c stem request table.rules

/-- `combine_conj` with a table that it can read. -/
def combineConj (c : ConjHelpers) (table : DerivationTable)
    (stemstr globalkeys localkeys : Bytes) : Expanded :=
  if stemstr.length ≥ maxWordSize then .failed
  else
    match conjGkstr c globalkeys localkeys with
    | none => .failed
    | some request => conjRules c stemstr request table.rules

section Agreement
variable {c : ConjHelpers} {request : DerivationRequest} {rules : List GkString}
  {rule : GkString} {stem : Bytes}

/-- The two results of a request go together: the same line, and no rule at once. -/
def Agree (expanded combined : Expanded) : Prop :=
  (∀ text text', expanded = .line text → combined = .line text' → text = text') ∧
    (expanded = .noRule ↔ combined = .noRule)

theorem agree_refl (expanded : Expanded) : Agree expanded expanded := by
  refine ⟨fun text text' h h' => ?_, Iff.rfl⟩
  rw [h] at h'
  exact Expanded.line.inj h'

theorem agree_failed_line (text : Bytes) : Agree .failed (.line text) := by
  refine ⟨fun _ _ h => ?_, ⟨fun h => ?_, fun h => ?_⟩⟩ <;> cases h

theorem agree_noRule (combined : Expanded) : Agree .noRule combined ↔ combined = .noRule := by
  constructor
  · exact fun h => h.2.mp rfl
  · rintro rfl
    exact agree_refl _

theorem makeppass_eq : makeppass c = makePassiveStem c := by
  funext word rule
  unfold makeppass makePassiveStem
  by_cases hword : word = []
  · subst hword
    have hnone : passiveEntry c [] = none := by
      refine List.find?_eq_none.mpr fun entry hentry => ?_
      rw [c.ppass_letter entry hentry]
      decide
    rw [if_neg (by decide), if_pos (.inl rfl), passiveStem, hnone]
  · simp only [hword, false_or]

/-- The two make the same word. -/
theorem conjWord_eq (constraints rule : GkString) (stem : Bytes) :
    conjWord c constraints rule stem = writtenWord c constraints rule stem := by
  have hending (word : Bytes) : (word ≠ [] ∧ makesDiphthong (word.getLastD 0) rule.gkstring = true) ↔
      makesDiphthong (word.getLastD 0) rule.gkstring = true := by
    refine and_iff_right_of_imp fun hmakes hword => ?_
    have hnone : makesDiphthong 0 rule.gkstring = false := by
      have hzero : isVowel 0 = false := by decide
      simp only [makesDiphthong, hzero, Bool.and_false, Bool.false_and]
    rw [hword, List.getLastD_nil, hnone] at hmakes
    cases hmakes
  unfold conjWord writtenWord
  simp only [hending, makeppass_eq]

theorem conjVoice_eq {voice : BitVec 3} (h : voice = 0 ∨ voice ∈ plainVoices) (rule : GkString) :
    conjVoice voice rule = writtenVoice voice rule := by
  have hcases : voice = 0 ∨ voice = 1 ∨ voice = 2 ∨ voice = 4 ∨ voice = 6 := by
    simpa [plainVoices] using h
  unfold conjVoice writtenVoice
  rcases hcases with rfl | rfl | rfl | rfl | rfl <;> simp

/-- `write_rule` has no branch for any other voice. -/
theorem voice_other {voice : BitVec 3} (h : ¬ (voice = 0 ∨ voice ∈ plainVoices))
    (rule : GkString) :
    writtenVoice voice rule = rule.forminfo.voice ∧ conjVoice voice rule = voice := by
  have hcases : ¬ (voice = 0 ∨ voice = 1 ∨ voice = 2 ∨ voice = 4 ∨ voice = 6) := by
    simpa [plainVoices] using h
  simp only [not_or] at hcases
  obtain ⟨h0, h1, h2, h4, h6⟩ := hcases
  constructor
  · rw [writtenVoice, if_neg h0, if_neg h6, if_neg h1, if_neg h2, if_neg h4]
  · rw [conjVoice, if_neg h0, if_neg h6]

/-- The voice of the request is one that both give to the rule, or nothing shows that they
give it another one. -/
def VoiceShown (c : ConjHelpers) (constraints rule : GkString) : Prop :=
  constraints.forminfo.voice = 0 ∨ constraints.forminfo.voice ∈ plainVoices ∨
    (c.sprintGkFlags (ruleForm rule.forminfo.voice constraints rule)).1 = false ∨
    recordTag rule.stemtype = none ∨
    (c.sprintGkFlags (ruleForm rule.forminfo.voice constraints rule)).2 =
      (c.sprintGkFlags (ruleForm constraints.forminfo.voice constraints rule)).2

/-- No rule passes the tests of `DoConjStem` and `CheckConjPpart`. -/
def AllRefused (c : ConjHelpers) (stem : Bytes) : DerivationRequest → List GkString → Prop
  | _, [] => True
  | request, rule :: rules =>
    if ruleMatches request rule = false ∨ ruleFits request.constraints rule = false then
      AllRefused c stem request rules
    else
      let want := c.wantGkEnd request.constraints rule
      let request := { request with
        constraints := { request.constraints with morphflags := want.2.1 } }
      if want.1 = false then AllRefused c stem request rules
      else ∃ spelled, writtenWord c request.constraints want.2.2 stem = some spelled ∧
        let constraints := withDissimilation request.constraints spelled.dissimilated
        ruleDialect constraints spelled.rule = none ∧
          AllRefused c stem { request with constraints } rules

/-- At the first rule that goes with the request in all else and whose word can be made: its
dialect goes with that of the request and the voice is shown, or no rule behind it passes. -/
def WrittenAlike (c : ConjHelpers) (stem : Bytes) : DerivationRequest → List GkString → Prop
  | _, [] => True
  | request, rule :: rules =>
    if ruleMatches request rule = false ∨ ruleFits request.constraints rule = false then
      WrittenAlike c stem request rules
    else
      let want := c.wantGkEnd request.constraints rule
      let request := { request with
        constraints := { request.constraints with morphflags := want.2.1 } }
      if want.1 = false then WrittenAlike c stem request rules
      else ∀ spelled, writtenWord c request.constraints want.2.2 stem = some spelled →
        let constraints := withDissimilation request.constraints spelled.dissimilated
        (∀ rule, ruleDialect constraints spelled.rule = some rule →
          VoiceShown c constraints (ruleFlags constraints rule)) ∧
        (ruleDialect constraints spelled.rule = none →
          AllRefused c stem { request with constraints } rules)

theorem withDissimilation_voice (constraints : GkString) (dissimilated : Bool) :
    (withDissimilation constraints dissimilated).forminfo = constraints.forminfo := by
  unfold withDissimilation
  split_ifs <;> rfl

/-- A table of one rule is written alike under a voice that both give to the rule. -/
theorem writtenAlike_single (hvoice : request.constraints.forminfo.voice = 0 ∨
    request.constraints.forminfo.voice ∈ plainVoices ∨
      ruleFits request.constraints rule = false) : WrittenAlike c stem request [rule] := by
  unfold WrittenAlike
  dsimp only
  split_ifs with hrefused
  · trivial
  · trivial
  · intro spelled _
    refine ⟨fun rule _ => ?_, fun _ => trivial⟩
    unfold VoiceShown
    rw [withDissimilation_voice]
    rcases hvoice with hvoice | hvoice | hvoice
    · exact .inl hvoice
    · exact .inr (.inl hvoice)
    · exact absurd (.inr hvoice) hrefused

theorem recordText_inj {root : Bool} {word flags flags' : Bytes} :
    recordText request root word flags = recordText request root word flags' ↔
      flags = flags' := by
  simp [recordText]

/-- What `write_rule` does with a rule behind its tests. -/
def recordOf (c : ConjHelpers) (request : DerivationRequest) (word : Bytes) (root : Bool)
    (rule : GkString) : Expanded :=
  let flags := c.sprintGkFlags rule
  if flags.1 = false then .failed
  else
    match recordTag rule.stemtype with
    | none => .failed
    | some tag => .line (tag ++ recordText request root word flags.2)

/-- The records of the two programs agree exactly when the voice is shown. -/
theorem recordOf_agrees {word : Bytes} {root : Bool} :
    Agree (recordOf c request word root (ruleForm
        (writtenVoice request.constraints.forminfo.voice rule) request.constraints rule))
      (.line ((recordTag (ruleForm (conjVoice request.constraints.forminfo.voice rule)
        request.constraints rule).stemtype).getD (ascii ":??:") ++
        recordText request root word (c.sprintGkFlags (ruleForm
          (conjVoice request.constraints.forminfo.voice rule) request.constraints rule)).2)) ↔
      VoiceShown c request.constraints rule := by
  have hstem (voice : BitVec 3) :
      (ruleForm voice request.constraints rule).stemtype = rule.stemtype := rfl
  unfold recordOf
  dsimp only
  rw [hstem, hstem]
  by_cases hplain : request.constraints.forminfo.voice = 0 ∨
      request.constraints.forminfo.voice ∈ plainVoices
  · rw [conjVoice_eq hplain]
    refine iff_of_true ?_ (or_assoc.mp (.inl hplain))
    split_ifs
    · exact agree_failed_line _
    · cases recordTag rule.stemtype with
      | none => exact agree_failed_line _
      | some tag => exact agree_refl _
  · obtain ⟨hwritten, hconj⟩ := voice_other hplain rule
    have hshown : VoiceShown c request.constraints rule ↔
        (c.sprintGkFlags (ruleForm rule.forminfo.voice request.constraints rule)).1 = false ∨
        recordTag rule.stemtype = none ∨
        (c.sprintGkFlags (ruleForm rule.forminfo.voice request.constraints rule)).2 =
          (c.sprintGkFlags (ruleForm request.constraints.forminfo.voice
            request.constraints rule)).2 := by
      unfold VoiceShown
      rw [← or_assoc]
      exact or_iff_right hplain
    rw [hwritten, hconj, hshown]
    by_cases hflags : (c.sprintGkFlags (ruleForm rule.forminfo.voice request.constraints
        rule)).1 = false
    · rw [if_pos hflags]
      exact iff_of_true (agree_failed_line _) (.inl hflags)
    rw [if_neg hflags, or_iff_right hflags]
    cases htag : recordTag rule.stemtype with
    | none => exact iff_of_true (agree_failed_line _) (.inl rfl)
    | some tag =>
      rw [or_iff_right (Option.some_ne_none tag), Option.getD_some]
      simp [Agree, recordText_inj]

theorem writeRule_eq {spelled : Spelled}
    (hword : writtenWord c request.constraints rule stem = some spelled) {written : GkString}
    (hdialect : ruleDialect (withDissimilation request.constraints spelled.dissimilated)
      spelled.rule = some written) :
    Agree (writeRule c request rule stem) (conjRecord c request rule stem).1 ↔
      VoiceShown c (withDissimilation request.constraints spelled.dissimilated)
        (ruleFlags (withDissimilation request.constraints spelled.dissimilated) written) := by
  unfold writeRule conjRecord
  rw [conjWord_eq, hword]
  dsimp only
  rw [hdialect]
  exact @recordOf_agrees c { request with
    constraints := withDissimilation request.constraints spelled.dissimilated } _ _ _

/-- What comes of a rule behind its tests in `CheckConjPpart`. -/
theorem conjRecord_noRule :
    (conjRecord c request rule stem).1 = .noRule ↔
      ∃ spelled, writtenWord c request.constraints rule stem = some spelled ∧
        ruleDialect (withDissimilation request.constraints spelled.dissimilated)
          spelled.rule = none := by
  unfold conjRecord
  rw [conjWord_eq]
  cases writtenWord c request.constraints rule stem with
  | none => simp
  | some spelled =>
    dsimp only
    cases hdialect : ruleDialect (withDissimilation request.constraints spelled.dissimilated)
        spelled.rule <;> simp [hdialect]

theorem conjRecord_failing {spelled : Spelled}
    (hword : writtenWord c request.constraints rule stem = some spelled)
    (hdialect : ruleDialect (withDissimilation request.constraints spelled.dissimilated)
      spelled.rule = none) :
    conjRecord c request rule stem = (.noRule, { request with
      constraints := withDissimilation request.constraints spelled.dissimilated }) := by
  unfold conjRecord
  rw [conjWord_eq, hword]
  dsimp only
  rw [hdialect]

theorem writeRule_failing {spelled : Spelled}
    (hword : writtenWord c request.constraints rule stem = some spelled)
    (hdialect : ruleDialect (withDissimilation request.constraints spelled.dissimilated)
      spelled.rule = none) : writeRule c request rule stem = .noRule := by
  unfold writeRule
  rw [hword]
  dsimp only
  rw [hdialect]

theorem checkConjPpart_eq (hsuffix : rule.gkstring ≠ []) :
    checkConjPpart c request rule stem =
      if ruleFits request.constraints rule = false then (.noRule, request)
      else if (c.wantGkEnd request.constraints rule).1 = false then
        (.noRule, { request with constraints := { request.constraints with
          morphflags := (c.wantGkEnd request.constraints rule).2.1 } })
      else conjRecord c { request with constraints := { request.constraints with
          morphflags := (c.wantGkEnd request.constraints rule).2.1 } }
        (c.wantGkEnd request.constraints rule).2.2 stem := by
  have hattic : ¬ (request.constraints.dialect = 0 ∧ rule.gkstring = []) := fun h => hsuffix h.2
  unfold checkConjPpart
  simp only [hattic, if_false]

/-- The loop of `DoConjStem` over a rule that goes with the request. -/
theorem conjRules_cons (hsuffix : rule.gkstring ≠ []) :
    conjRules c stem request (rule :: rules) =
      if ruleMatches request rule = false ∨ ruleFits request.constraints rule = false then
        conjRules c stem request rules
      else
        let want := c.wantGkEnd request.constraints rule
        let request := { request with
          constraints := { request.constraints with morphflags := want.2.1 } }
        if want.1 = false then conjRules c stem request rules
        else
          let checked := conjRecord c request want.2.2 stem
          if checked.1 = .noRule then conjRules c stem checked.2 rules else checked.1 := by
  rw [conjRules, checkConjPpart_eq hsuffix]
  by_cases hmatches : ruleMatches request rule = false
  · rw [if_pos hmatches, if_pos (.inl hmatches)]
  rw [if_neg hmatches]
  by_cases hfits : ruleFits request.constraints rule = false
  · rw [if_pos hfits]
    dsimp only
    rw [if_pos (Or.inr hfits)]
    rfl
  rw [if_neg hfits]
  dsimp only
  rw [if_neg (not_or.mpr ⟨hmatches, hfits⟩)]
  by_cases hwant : (c.wantGkEnd request.constraints rule).1 = false
  · rw [if_pos hwant, if_pos hwant]
    rfl
  · rw [if_neg hwant, if_neg hwant]

theorem conjRules_noRule (hsuffix : ∀ rule ∈ rules, rule.gkstring ≠ []) :
    conjRules c stem request rules = .noRule ↔ AllRefused c stem request rules := by
  induction rules generalizing request with
  | nil => exact iff_of_true rfl trivial
  | cons rule rules ih =>
    obtain ⟨hrule, hrules⟩ := List.forall_mem_cons.mp hsuffix
    rw [conjRules_cons hrule, AllRefused]
    dsimp only
    split_ifs with hrefused hwant hno
    · exact ih hrules
    · exact ih hrules
    · obtain ⟨spelled, hword, hdialect⟩ := conjRecord_noRule.mp hno
      rw [conjRecord_failing hword hdialect, ih hrules]
      constructor
      · exact fun hrest => ⟨spelled, hword, hdialect, hrest⟩
      · rintro ⟨spelled', hword', -, hrest⟩
        obtain rfl := Option.some.inj (hword.symm.trans hword')
        exact hrest
    · refine iff_of_false hno ?_
      rintro ⟨spelled, hword, hdialect, -⟩
      exact hno (conjRecord_noRule.mpr ⟨spelled, hword, hdialect⟩)

/-- The loops behind the first rule that passes the tests in front of its word. -/
theorem writtenRule_agrees (hsuffix : ∀ rule ∈ rules, rule.gkstring ≠ []) :
    Agree (writeRule c request rule stem)
      (if (conjRecord c request rule stem).1 = .noRule then
        conjRules c stem (conjRecord c request rule stem).2 rules
      else (conjRecord c request rule stem).1) ↔
    ∀ spelled, writtenWord c request.constraints rule stem = some spelled →
      let constraints := withDissimilation request.constraints spelled.dissimilated
      (∀ rule, ruleDialect constraints spelled.rule = some rule →
        VoiceShown c constraints (ruleFlags constraints rule)) ∧
      (ruleDialect constraints spelled.rule = none →
        AllRefused c stem { request with constraints } rules) := by
  cases hword : writtenWord c request.constraints rule stem with
  | none =>
    refine iff_of_true ?_ fun spelled hspelled => by cases hspelled
    have hfailed : conjRecord c request rule stem = (.failed, request) := by
      unfold conjRecord
      rw [conjWord_eq, hword]
    rw [hfailed, if_neg (by simp), writeRule, hword]
    exact agree_refl _
  | some spelled =>
    have hone (P : Spelled → Prop) :
        (∀ spelled', some spelled = some spelled' → P spelled') ↔ P spelled := by simp
    rw [hone]
    dsimp only
    cases hdialect : ruleDialect (withDissimilation request.constraints spelled.dissimilated)
        spelled.rule with
    | none =>
      rw [conjRecord_failing hword hdialect, writeRule_failing hword hdialect, if_pos rfl,
        agree_noRule, conjRules_noRule hsuffix]
      simp
    | some written =>
      have hwritten : ¬ (conjRecord c request rule stem).1 = .noRule := by
        rw [conjRecord_noRule]
        rintro ⟨spelled', hword', hnone⟩
        obtain rfl := Option.some.inj (hword.symm.trans hword')
        rw [hdialect] at hnone
        cases hnone
      rw [if_neg hwritten, writeRule_eq hword hdialect]
      simp

/-- The two loops over the rules go together exactly when the first rule that passes is
written alike. -/
theorem conjRules_agrees (hsuffix : ∀ rule ∈ rules, rule.gkstring ≠ []) :
    Agree (expandRules c stem request rules) (conjRules c stem request rules) ↔
      WrittenAlike c stem request rules := by
  induction rules generalizing request with
  | nil => exact iff_of_true (agree_refl _) trivial
  | cons rule rules ih =>
    obtain ⟨hrule, hrules⟩ := List.forall_mem_cons.mp hsuffix
    rw [expandRules, conjRules_cons hrule, WrittenAlike]
    by_cases hrefused : ruleMatches request rule = false ∨
        ruleFits request.constraints rule = false
    · rw [if_pos hrefused, if_pos hrefused, if_pos hrefused]
      exact ih hrules
    rw [if_neg hrefused, if_neg hrefused, if_neg hrefused]
    dsimp only
    by_cases hwant : (c.wantGkEnd request.constraints rule).1 = false
    · rw [if_pos hwant, if_pos hwant, if_pos hwant]
      exact ih hrules
    · rw [if_neg hwant, if_neg hwant, if_neg hwant]
      exact writtenRule_agrees hrules

end Agreement

section Keys
variable {c : ConjHelpers} {keys globalKeys requestKeys : Bytes}

/-- No comma stands between another white space and the first blank. -/
def PlainKeys (keys : Bytes) : Prop :=
  44 ∉ (keys.takeWhile (· != 32)).dropWhile fun c => !isSpace c

theorem commasToBlanks_none (h : 44 ∉ keys.takeWhile (· != 32)) :
    commasToBlanks (· == 32) keys = keys := by
  induction keys with
  | nil => rfl
  | cons d keys ih =>
    rw [commasToBlanks]
    by_cases hd : d = 32
    · rw [if_pos (by simp [hd])]
    · rw [List.takeWhile_cons_of_pos (by simp [hd]), List.mem_cons, not_or] at h
      rw [if_neg (by simp [hd]), if_neg (Ne.symm h.1), ih h.2]

/-- Both put blanks for the same commas. -/
theorem commasToBlanks_eq (h : PlainKeys keys) :
    commasToBlanks isSpace keys = commasToBlanks (· == 32) keys := by
  induction keys with
  | nil => rfl
  | cons d keys ih =>
    unfold PlainKeys at h
    rw [commasToBlanks, commasToBlanks]
    by_cases hd : d = 32
    · subst hd
      rfl
    · rw [List.takeWhile_cons_of_pos (by simp [hd])] at h
      rw [if_neg (show ¬ (d == 32) = true by simp [hd])]
      by_cases hspace : isSpace d = true
      · rw [List.dropWhile_cons_of_neg (by simp [hspace]), List.mem_cons, not_or] at h
        rw [if_pos hspace, if_neg (Ne.symm h.1), commasToBlanks_none h.2]
      · rw [List.dropWhile_cons_of_pos (by simp [hspace])] at h
        rw [if_neg hspace, ih h]

theorem principalPartOf_nil : principalPartOf [] = none := by
  decide

theorem conjKey_fst (keys : Bytes) : (conjKey keys).1 = (nextkey keys).1 := by
  unfold nextkey conjKey
  dsimp only
  split_ifs with hstart
  · rw [hstart]
    rfl
  · rfl

theorem conjKey_eq (h : (nextkey keys).1 ≠ []) : conjKey keys = nextkey keys := by
  unfold nextkey at h ⊢
  unfold conjKey
  dsimp only at h ⊢
  split_ifs at h ⊢ with hstart
  · exact absurd rfl h
  · rfl

/-- Keys are read alike with and without a blank at their end. -/
theorem requestOf_joined {principalPart : UInt32} {suffix rest : Bytes}
    (h : rest = [] → globalKeys.length + 1 ≠ 2 * GenerSource.longString) :
    (joinRequestKeys (2 * GenerSource.longString) globalKeys rest).bind
        (requestOf c principalPart suffix) =
      let keytmp := if globalKeys = [] then rest else globalKeys ++ 32 :: rest
      if keytmp.length ≥ 2 * GenerSource.longString then none
      else requestOf c principalPart suffix keytmp := by
  have hfits (keys : Bytes) : (if keys.length < 2 * GenerSource.longString then some keys
      else none).bind (requestOf c principalPart suffix) =
      if keys.length ≥ 2 * GenerSource.longString then none
      else requestOf c principalPart suffix keys := by
    by_cases hlength : keys.length < 2 * GenerSource.longString
    · rw [if_pos hlength, if_neg (not_le.mpr hlength)]
      rfl
    · rw [if_neg hlength, if_pos (not_lt.mp hlength)]
      rfl
  unfold joinRequestKeys
  dsimp only
  rw [hfits]
  by_cases hglobal : globalKeys = []
  · rw [if_pos hglobal, if_pos hglobal]
  rw [if_neg hglobal, if_neg hglobal]
  by_cases hrest : rest = []
  · have hblank := h hrest
    rw [if_pos hrest, hrest, List.length_append, List.length_singleton]
    by_cases hlength : globalKeys.length ≥ 2 * GenerSource.longString
    · rw [if_pos hlength, if_pos (by omega)]
    · rw [if_neg hlength, if_neg (by omega)]
      unfold requestOf
      rw [c.scan_blank]
  · rw [if_neg hrest]

/-- Both read the same request. -/
theorem parseRequest_eq (hshort : requestKeys.length < GenerSource.longString)
    (hplain : PlainKeys requestKeys)
    (hjoined : globalKeys.length + 1 = 2 * GenerSource.longString → ∀ suffix,
      takeSuffix (nextkey (commasToBlanks isSpace requestKeys)).2 ≠ some (suffix, [])) :
    parseRequest c globalKeys requestKeys = conjGkstr c globalKeys requestKeys := by
  have hfits : ¬ requestKeys.length ≥ GenerSource.longString := not_le.mpr hshort
  have hlong : ¬ requestKeys.length ≥ 2 * GenerSource.longString := by omega
  unfold parseRequest conjGkstr
  rw [if_neg hfits, if_neg hlong, ← commasToBlanks_eq hplain]
  dsimp only
  rw [conjKey_fst]
  by_cases hpart : (nextkey (commasToBlanks isSpace requestKeys)).1 = []
  · rw [if_pos hpart, hpart, principalPartOf_nil]
    rfl
  rw [if_neg hpart, conjKey_eq hpart]
  cases principalPartOf (nextkey (commasToBlanks isSpace requestKeys)).1 with
  | none => rfl
  | some principalPart =>
    cases hsuffix : takeSuffix (nextkey (commasToBlanks isSpace requestKeys)).2 with
    | none => rfl
    | some suffixed =>
      refine requestOf_joined fun hrest hlast => hjoined hlast suffixed.1 ?_
      rw [hsuffix, ← hrest]

end Keys

section Expanders
variable (c : ConjHelpers) (table : DerivationTable) (stem globalKeys requestKeys : Bytes)

/-- A stem and keys that both expanders read alike. -/
structure ReadAlike : Prop where
  stem_ne : stem ≠ []
  stem_fits : stem.length < maxWordSize
  keys_fit : requestKeys.length < GenerSource.longString
  plain : PlainKeys requestKeys
  joined : globalKeys.length + 1 = 2 * GenerSource.longString → ∀ suffix,
    takeSuffix (nextkey (commasToBlanks isSpace requestKeys)).2 ≠ some (suffix, [])

/-- The voice of the key `dep`; every other text is odd. -/
def scanDeponent (text : Bytes) : ScannedKeys where
  gstr := if text = ascii "dep" then
      { GkString.zero with forminfo := { GkString.zero.forminfo with voice := 3 } }
    else GkString.zero
  prvbFlags := fun _ => 0
  oddkeys := if text = [] ∨ text = ascii "dep" then none else some text
  preverb := []
  endstring := []

/-- The helpers on the stem `lu`. -/
def deponentHelpers : ConjHelpers where
  scanAsciiKeys keys := scanDeponent (keys.reverse.dropWhile isSpace).reverse
  wantGkEnd wantend haveend := (true, wantend.morphflags, haveend)
  presRedupl word := word
  addninfix word := word
  addDiaeresis ending := ending
  addbreath ending breath := ending ++ [breath]
  doEuph _ := none
  simpleredupit word _ := word
  fixperf word := word
  endsIn word suffix := suffix.isSuffixOf word
  getStemNum _ := 0
  ppassTable := []
  doDissim word _ := (word, false)
  sprintGkFlags gstr := (true, ascii " w_stem reg_conj" ++
    if gstr.forminfo.voice = 3 then ascii " dep" else [])
  scan_blank keys := by
    rw [List.reverse_append, List.reverse_singleton, List.singleton_append,
      List.dropWhile_cons_of_pos (by decide)]
  ppass_letter entry hentry := by cases hentry

/-- The rule `* w_stem reg_conj`. -/
def presentRule : GkString :=
  { GkString.zero with
    stemtype := 0o10000001
    derivtype := 0o4000023
    gkstring := ascii "*" }

def presentTable : DerivationTable where
  rules := [presentRule]
  suffix_ne rule hrule := by
    rw [List.mem_singleton.mp hrule]
    decide

/-- The rule `k perf_act` of a perfect. -/
def perfectRule : GkString :=
  { GkString.zero with stemtype := ppPf ||| 2, gkstring := ascii "k" }

/-- A table with one rule, for a perfect. -/
def perfectTable : DerivationTable where
  rules := [perfectRule]
  suffix_ne rule hrule := by
    rw [List.mem_singleton.mp hrule]
    decide

theorem readAlike_lu {keys : Bytes} (hfits : keys.length < GenerSource.longString)
    (hplain : PlainKeys keys) : ReadAlike (ascii "lu") [] keys :=
  ⟨by decide, by decide, hfits, hplain, fun hlength => absurd hlength (by decide)⟩

end Expanders

end Morpheus
