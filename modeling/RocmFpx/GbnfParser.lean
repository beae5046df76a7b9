import RocmFpx.GbnfText

/-!
The parser of GBNF texts (`llama_grammar_parser`), which writes the elements of its rules as it
reads. A group and a repetition become rules of their own, under names that no text can hold.
-/

namespace RocmFpx

/-- A place where a repetition has been rewritten: the elements of the item and what stands there
now. No function of the parser reads it. -/
structure Repetition where
  item : List GrammarElement
  minTimes : ℕ
  maxTimes : Option ℕ
  emitted : List GrammarElement

/-- `llama_grammar_parser`. The id of a symbol is its place in the order of first use. -/
structure GbnfState where
  symbolIds : List (List UInt8)
  rules : GrammarRules
  repetitions : List Repetition

namespace GbnfState

def empty : GbnfState := ⟨[], [], []⟩

/-- The id of a name. -/
def idOf (st : GbnfState) (name : List UInt8) : ℕ := st.symbolIds.idxOf name

def getSymbolId (st : GbnfState) (name : List UInt8) : ℕ × GbnfState :=
  (st.idOf name,
    if name ∈ st.symbolIds then st else { st with symbolIds := st.symbolIds ++ [name] })

def generateSymbolId (st : GbnfState) (baseName : List UInt8) : ℕ × GbnfState :=
  (st.symbolIds.length,
    { st with
      symbolIds := st.symbolIds ++ [baseName ++ '_'.toUInt8 :: Gbnf.bytes (toString st.symbolIds.length)] })

def addRule (st : GbnfState) (ruleId : ℕ) (rule : List GrammarElement) : GbnfState :=
  { st with
    rules := (st.rules ++ List.replicate (ruleId + 1 - st.rules.length) []).set ruleId rule }

end GbnfState

namespace Gbnf

open GrammarElement (endRule)

/-! ## Repetitions -/

/-- `S'(x) ::= S S'(x-1) |`, the reference left out for the last of them. -/
def recRule (prevRule : List GrammarElement) (next : Option ℕ) : List GrammarElement :=
  prevRule ++ (next.map (GrammarElement.mk .ruleRef)).toList ++ [⟨.alt, 0⟩, endRule]

/-- The loop that adds the optional rules; the id of the last one added. -/
def addRecRules (ruleName : List UInt8) (prevRule : List GrammarElement) (noMax : Bool) :
    ℕ → GbnfState → Option ℕ → GbnfState × Option ℕ
  | 0, st, last => (st, last)
  | n + 1, st, last =>
    let (recRuleId, st) := st.generateSymbolId ruleName
    addRecRules ruleName prevRule noMax n
      (st.addRule recRuleId (recRule prevRule (if noMax then some recRuleId else last)))
      (some recRuleId)

/-- How many optional rules there are, in 64-bit arithmetic. -/
def optionalCount (minTimes : ℕ) : Option ℕ → ℕ
  | none => 1
  | some maxTimes => (maxTimes + 2 ^ 64 - minTimes) % 2 ^ 64

def totalRules (minTimes : ℕ) (maxTimes : Option ℕ) : ℕ :=
  if 0 < maxTimes.getD 0 then maxTimes.getD 0 else if 0 < minTimes then minTimes else 1

/-- `handle_repetitions`: the item is what stands in the rule from `lastSymStart` on. -/
def handleRepetitions (st : GbnfState) (pos ruleName : List UInt8) (rule : List GrammarElement)
    (lastSymStart nPrevRules minTimes : ℕ) (maxTimes : Option ℕ) :
    Except GbnfError (GbnfState × List GrammarElement × ℕ) :=
  if lastSymStart = rule.length then
    .error (.thrown "expecting preceding item to */+/?/\x7b at " pos)
  else if maxRepetitionThreshold < nPrevRules * totalRules minTimes maxTimes then
    .error (.thrown ("number of rules that are going to be repeated multiplied by the new " ++
      "repetition exceeds sane defaults, please reduce the number of repetitions or rule " ++
      "complexity") [])
  else
    let prevRule := rule.drop lastSymStart
    let rule :=
      if minTimes = 0 then rule.take lastSymStart
      else rule ++ (List.replicate (minTimes - 1) prevRule).flatten
    let r := addRecRules ruleName prevRule maxTimes.isNone (optionalCount minTimes maxTimes) st none
    let rule := rule ++ (r.2.map (GrammarElement.mk .ruleRef)).toList
    .ok ({ r.1 with
        repetitions := r.1.repetitions ++
          [⟨prevRule, minTimes, maxTimes, rule.drop lastSymStart⟩] },
      rule, nPrevRules * totalRules minTimes maxTimes)

/-! ## Sequences and alternates -/

section

variable (vocab : Option (List UInt8 → Option ℕ))

mutual

/-- `parse_alternates` -/
def parseAlternates : ℕ → GbnfState → List UInt8 → List UInt8 → ℕ → Bool →
    Except GbnfError (List UInt8 × GbnfState)
  | 0, _, _, _, _, _ => .error .depth
  | n + 1, st, src, ruleName, ruleId, isNested => do
    let (pos, st, rule) ← parseSequence n st src ruleName isNested [] 0 1
    let (pos, st, rule) ← alternatesFrom n st pos ruleName isNested rule
    return (pos, st.addRule ruleId (rule ++ [endRule]))

/-- The loop of `parse_alternates` -/
def alternatesFrom : ℕ → GbnfState → List UInt8 → List UInt8 → Bool → List GrammarElement →
    Except GbnfError (List UInt8 × GbnfState × List GrammarElement)
  | 0, _, _, _, _, _ => .error .depth
  | n + 1, st, pos, ruleName, isNested, rule =>
    if pos.head? = some '|'.toUInt8 then do
      let (pos, st, rule) ← parseSequence n st (parseSpace true pos.tail) ruleName isNested
        (rule ++ [⟨.alt, 0⟩]) (rule.length + 1) 1
      alternatesFrom n st pos ruleName isNested rule
    else .ok (pos, st, rule)

/-- The loop of `parse_sequence` -/
def parseSequence : ℕ → GbnfState → List UInt8 → List UInt8 → Bool → List GrammarElement → ℕ → ℕ →
    Except GbnfError (List UInt8 × GbnfState × List GrammarElement)
  | 0, _, _, _, _, _, _, _ => .error .depth
  | n + 1, st, pos, ruleName, isNested, rule, lastSymStart, nPrevRules => do
    let (lexeme, pos) ← nextLexeme vocab isNested pos
    match lexeme with
    | .stop => return (pos, st, rule)
    | .elements es => parseSequence n st pos ruleName isNested (rule ++ es) rule.length 1
    | .name name =>
      let (refRuleId, st) := st.getSymbolId name
      parseSequence n st pos ruleName isNested (rule ++ [⟨.ruleRef, refRuleId⟩]) rule.length 1
    | .group =>
      let nRulesBefore := st.symbolIds.length
      let (subRuleId, st) := st.generateSymbolId ruleName
      let (pos, st) ← parseAlternates n st pos ruleName subRuleId true
      let pos ← expect ')'.toUInt8 "expecting ')' at " pos
      parseSequence n st (parseSpace isNested pos) ruleName isNested
        (rule ++ [⟨.ruleRef, subRuleId⟩]) rule.length (max 1 (st.symbolIds.length - nRulesBefore))
    | .times minTimes maxTimes =>
      let (st, rule, nPrevRules) ← handleRepetitions st pos ruleName rule lastSymStart nPrevRules
        minTimes maxTimes
      parseSequence n st pos ruleName isNested rule lastSymStart nPrevRules

end

/-! ## Rules -/

/-- The end of the line behind a rule. -/
def parseNewline : List UInt8 → Except GbnfError (List UInt8)
  | [] => .ok []
  | c :: pos =>
    if c = '\r'.toUInt8 then .ok (if pos.head? = some '\n'.toUInt8 then pos.tail else pos)
    else if c = '\n'.toUInt8 then .ok pos
    else .error (.thrown "expecting newline or end at " (c :: pos))

def parseRule (st : GbnfState) (src : List UInt8) : Except GbnfError (List UInt8 × GbnfState) := do
  let (name, pos) ← parseName src
  let pos := parseSpace false pos
  let (ruleId, st) := st.getSymbolId name
  if ¬ bytes "::=" <+: pos then throw (.thrown "expecting ::= at " pos)
  let pos := parseSpace true (pos.drop 3)
  let (pos, st) ← parseAlternates vocab (2 * pos.length + 3) st pos name ruleId false
  let pos ← parseNewline pos
  return (parseSpace true pos, st)

def parseRules : ℕ → GbnfState → List UInt8 → Except GbnfError GbnfState
  | _, st, [] => .ok st
  | 0, _, _ :: _ => .error .depth
  | n + 1, st, c :: pos => do
    let (pos, st) ← parseRule vocab st (c :: pos)
    parseRules n st pos

/-- A reference to a rule that does not exist. -/
def checkElement (st : GbnfState) (elem : GrammarElement) : Except GbnfError Unit :=
  if elem.type = .ruleRef ∧ st.rules.getD elem.value [] = [] then
    match st.symbolIds[elem.value]? with
    | some name => .error (.thrown "Undefined rule identifier '" (name ++ [39]))
    | none => .ok ()
  else .ok ()

def checkRule (st : GbnfState) (rule : List GrammarElement) : Except GbnfError Unit :=
  if rule = [] then .error (.thrown "Undefined rule" []) else rule.forM (checkElement st)

/-- `parse`: an exception is caught, the rules cleared and the text refused. -/
def parse (src : List UInt8) : Except GbnfError GbnfState := do
  let src := src.takeWhile (· ≠ 0)
  let st ← parseRules vocab (src.length + 1) .empty (parseSpace true src)
  st.rules.forM (checkRule st)
  return st

end

end Gbnf

end RocmFpx
