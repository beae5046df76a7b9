import RocmFpx.Trie
import RocmFpx.Utf8Codepoint

/-!
The parsers of an arena and their execution (`parser_executor`). A parser is a number; it names its
children by theirs. A run that needs a deeper recursion than its fuel has no result.
-/

namespace RocmFpx

/-! ## Matching a delimiter -/

/-- `common_trie::match_result`. -/
inductive MatchResult
  | noMatch
  | partialMatch
  | completeMatch
  deriving DecidableEq

namespace Trie

/-- The code points of a word, up to the first one that cannot be read. -/
def symbolsFrom (word : List UInt8) : ℕ → ℕ → List ℕ
  | 0, _ => []
  | n + 1, pos =>
    let r := parseUtf8Codepoint word pos
    if r.status = .success then r.codepoint :: symbolsFrom word n (pos + r.bytesConsumed) else []

/-- `common_trie(words)`. -/
def ofWords (words : List (List UInt8)) : Trie :=
  Trie.empty.insertAll (words.map fun w => symbolsFrom w w.length 0)

/-- The loop of `check_at`. -/
def checkFrom (t : Trie) (sv : List UInt8) : ℕ → ℕ → ℕ → MatchResult
  | 0, current, _ => if current ≠ 0 then .partialMatch else .noMatch
  | n + 1, current, pos =>
    let r := parseUtf8Codepoint sv pos
    if r.status ≠ .success then
      if current ≠ 0 then .partialMatch else .noMatch
    else
      match (t.node current).child r.codepoint with
      | none => .noMatch
      | some v =>
        if (t.node v).pattern ≠ none then .completeMatch
        else t.checkFrom sv n v (pos + r.bytesConsumed)

/-- `check_at`: whether a word begins here. -/
def checkAt (t : Trie) (sv : List UInt8) (startPos : ℕ) : MatchResult :=
  t.checkFrom sv (sv.length + 1) 0 startPos

end Trie

namespace Peg

/-! ## Parsers and results -/

/-- `char_range`. -/
structure CharRange where
  start : ℕ
  last : ℕ

def CharRange.contains (r : CharRange) (codepoint : ℕ) : Bool :=
  decide (r.start ≤ codepoint ∧ codepoint ≤ r.last)

/-- `common_peg_chars_parser`. -/
structure CharsParser where
  ranges : List CharRange
  negated : Bool
  minCount : ℤ
  maxCount : ℤ

/-- `common_peg_parser_variant`. -/
inductive Parser
  | epsilon
  | start
  | finish
  | literal (literal : List UInt8)
  | sequence (children : List ℕ)
  | choice (children : List ℕ)
  | repetition (child : ℕ) (minCount maxCount : ℤ)
  | and (child : ℕ)
  | not (child : ℕ)
  | any
  | space
  | chars (p : CharsParser)
  | string (delimiter : UInt8)
  | until (delimiters : List (List UInt8))
  | schema (child : ℕ)
  | rule (name : String) (child : ℕ)
  | ref (name : String)
  | atomic (child : ℕ)
  | tag (child : ℕ) (tag : String)
  | gbnf (child : ℕ)
  | ac (child : ℕ)

/-- `common_peg_arena`. -/
structure Arena where
  parsers : List Parser
  rules : List (String × ℕ)
  root : Option ℕ

inductive ResultType
  | fail
  | success
  | needMoreInput
  deriving DecidableEq

/-- `common_peg_ast_node`; the children are the nodes themselves. -/
inductive AstNode
  | mk (rule tag : String) (start stop : ℕ) (text : List UInt8) (children : List AstNode)
      (isPartial : Bool) (invalidUtf8 : List (ℕ × ℕ))

/-- `common_peg_parse_result`. -/
structure ParseResult where
  type : ResultType
  start : ℕ
  stop : ℕ
  nodes : List AstNode
  invalidUtf8 : List (ℕ × ℕ)

namespace ParseResult

def fail (start stop : ℕ) : ParseResult := ⟨.fail, start, stop, [], []⟩

def success (start stop : ℕ) : ParseResult := ⟨.success, start, stop, [], []⟩

def needMore (start stop : ℕ) : ParseResult := ⟨.needMoreInput, start, stop, [], []⟩

end ParseResult

/-- Why there is no result: an exception, or a recursion deeper than the fuel. -/
inductive Abort
  | parserId
  | ruleNotFound (name : String)
  | noRoot
  | depth

/-! ## Parsers without children -/

section

variable (input : List UInt8) (lenient : Bool) (start : ℕ)

/-- At the end of the input more may still come. -/
def atEnd (pos : ℕ) : ParseResult :=
  if lenient then .needMore start pos else .fail start start

def literalFrom : List UInt8 → ℕ → ParseResult
  | [], pos => .success start pos
  | c :: cs, pos =>
    match input[pos]? with
    | none => atEnd lenient start pos
    | some b => if b = c then literalFrom cs (pos + 1) else .fail start start

def parseAny : ParseResult :=
  let r := parseUtf8Codepoint input start
  match r.status with
  | .incomplete => atEnd lenient start start
  | .invalid => .fail start start
  | .success => .success start (start + r.bytesConsumed)

/-- `std::isspace` in the C locale. -/
def isSpace (c : UInt8) : Bool := c.toNat == 32 || (decide (9 ≤ c.toNat) && decide (c.toNat ≤ 13))

def parseSpace : ParseResult :=
  .success start (start + ((input.drop start).takeWhile isSpace).length)

namespace CharsParser

variable (p : CharsParser)

/-- Whether the class holds the code point. -/
def accepts (codepoint : ℕ) : Bool :=
  (p.ranges.any fun r => r.contains codepoint) != p.negated

/-- Behind the loop. -/
def finish (pos count : ℕ) : ParseResult :=
  if (count : ℤ) < p.minCount then
    if input.length ≤ pos ∧ lenient then .needMore start pos else .fail start pos
  else .success start pos

def parseFrom : ℕ → ℕ → ℕ → ParseResult
  | 0, pos, count => p.finish input lenient start pos count
  | n + 1, pos, count =>
    if p.maxCount = -1 ∨ (count : ℤ) < p.maxCount then
      let r := parseUtf8Codepoint input pos
      match r.status with
      | .incomplete =>
        if p.minCount ≤ count then .success start pos
        else atEnd lenient start pos
      | .invalid => if p.minCount ≤ count then .success start pos else .fail start start
      | .success =>
        if p.accepts r.codepoint then parseFrom n (pos + r.bytesConsumed) (count + 1)
        else p.finish input lenient start pos count
    else p.finish input lenient start pos count

end CharsParser

def isHexDigit (c : UInt8) : Bool :=
  (decide (48 ≤ c.toNat) && decide (c.toNat ≤ 57)) ||
    (decide (97 ≤ c.toNat) && decide (c.toNat ≤ 102)) ||
      (decide (65 ≤ c.toNat) && decide (c.toNat ≤ 70))

/-- The digits of `handle_unicode_escape`; `save` is the position of the backslash. -/
def hexDigitsFrom (save : ℕ) : ℕ → ℕ → ParseResult
  | 0, pos => .success start pos
  | k + 1, pos =>
    match input[pos]? with
    | none => atEnd lenient start save
    | some c => if isHexDigit c then hexDigitsFrom save k (pos + 1) else .fail start start

/-- `handle_escape_sequence` for the backslash at `save`. The position behind the sequence is the
end of the result. -/
def handleEscapeSequence (delimiter : UInt8) (save : ℕ) : ParseResult :=
  match input[save + 1]? with
  | none => atEnd lenient start save
  | some c =>
    if c = delimiter ∨ c.toNat ∈ [92, 47, 98, 102, 110, 114, 116] then .success start (save + 2)
    else if c.toNat = 117 then hexDigitsFrom input lenient start save 4 (save + 2)
    else .fail start start

def stringFrom (delimiter : UInt8) : ℕ → ℕ → ParseResult
  | 0, pos => if lenient then .needMore start pos else .fail start pos
  | n + 1, pos =>
    match input[pos]? with
    | none => if lenient then .needMore start pos else .fail start pos
    | some c =>
      if c = delimiter then .success start pos
      else if c.toNat = 92 then
        let r := handleEscapeSequence input lenient start delimiter pos
        if r.type = .success then stringFrom delimiter n r.stop else r
      else
        let r := parseUtf8Codepoint input pos
        match r.status with
        | .incomplete => atEnd lenient start pos
        | .invalid => .fail start start
        | .success => stringFrom delimiter n (pos + r.bytesConsumed)

/-- Behind the loop of the until parser. -/
def untilFinish (lastValidPos : ℕ) (invalid : List (ℕ × ℕ)) : ParseResult :=
  if lastValidPos = input.length ∧ lenient then ⟨.needMoreInput, start, lastValidPos, [], invalid⟩
  else ⟨.success, start, lastValidPos, [], invalid⟩

def untilFrom (matcher : Trie) : ℕ → ℕ → ℕ → List (ℕ × ℕ) → ParseResult
  | 0, _, lastValidPos, invalid => untilFinish input lenient start lastValidPos invalid
  | n + 1, pos, lastValidPos, invalid =>
    if pos < input.length then
      let r := parseUtf8Codepoint input pos
      let next := pos + r.bytesConsumed
      if r.status = .incomplete ∧ lenient then ⟨.needMoreInput, start, lastValidPos, [], invalid⟩
      else if r.status ≠ .success then
        untilFrom matcher n next next (invalid ++ [(pos, r.bytesConsumed)])
      else
        match matcher.checkAt input pos with
        | .completeMatch => ⟨.success, start, pos, [], invalid⟩
        | .partialMatch => ⟨.success, start, pos, [], invalid⟩
        | .noMatch => untilFrom matcher n next next invalid
    else untilFinish input lenient start lastValidPos invalid

end

/-! ## Parsers with children -/

section

variable (run : ℕ → ℕ → Except Abort ParseResult) (input : List UInt8) (lenient : Bool) (start : ℕ)

def sequenceFrom : List ℕ → ℕ → List AstNode → List (ℕ × ℕ) → Except Abort ParseResult
  | [], pos, nodes, invalid => .ok ⟨.success, start, pos, nodes, invalid⟩
  | child :: children, pos, nodes, invalid => do
    let r ← run child pos
    match r.type with
    | .fail => return .fail start r.stop
    | .needMoreInput =>
      return ⟨.needMoreInput, start, r.stop, nodes ++ r.nodes, invalid ++ r.invalidUtf8⟩
    | .success => sequenceFrom children r.stop (nodes ++ r.nodes) (invalid ++ r.invalidUtf8)

def choiceFrom : List ℕ → Except Abort ParseResult
  | [] => .ok (.fail start start)
  | child :: children => do
    let r ← run child start
    if r.type ≠ .fail then return r
    choiceFrom children

/-- Behind the loop of the repetition. -/
def repetitionFinish (minCount : ℤ) (pos count : ℕ) (nodes : List AstNode)
    (invalid : List (ℕ × ℕ)) : ParseResult :=
  if 0 < minCount ∧ (count : ℤ) < minCount then
    if input.length ≤ pos ∧ lenient then ⟨.needMoreInput, start, pos, nodes, invalid⟩
    else .fail start pos
  else ⟨.success, start, pos, nodes, invalid⟩

def repetitionFrom (child : ℕ) (minCount maxCount : ℤ) :
    ℕ → ℕ → ℕ → List AstNode → List (ℕ × ℕ) → Except Abort ParseResult
  | 0, _, _, _, _ => .error .depth
  | n + 1, pos, count, nodes, invalid =>
    if maxCount = -1 ∨ (count : ℤ) < maxCount then
      if input.length ≤ pos then
        .ok (repetitionFinish input lenient start minCount pos count nodes invalid)
      else do
        let r ← run child pos
        match r.type with
        | .success =>
          if r.stop = pos then
            return repetitionFinish input lenient start minCount pos count nodes invalid
          else
            repetitionFrom child minCount maxCount n r.stop (count + 1) (nodes ++ r.nodes)
              (invalid ++ r.invalidUtf8)
        | .needMoreInput =>
          return ⟨.needMoreInput, start, r.stop, nodes ++ r.nodes, invalid ++ r.invalidUtf8⟩
        | .fail => return repetitionFinish input lenient start minCount pos count nodes invalid
    else .ok (repetitionFinish input lenient start minCount pos count nodes invalid)

/-- The result of a rule or of a tag: one node over the nodes of the child. -/
def withNode (rule tag : String) (r : ParseResult) : ParseResult :=
  if r.type ≠ .fail then
    let text := if r.start < input.length then (input.drop r.start).take (r.stop - r.start) else []
    { r with
      nodes := [.mk rule tag r.start r.stop text r.nodes (decide (r.type = .needMoreInput))
        r.invalidUtf8] }
  else r

end

namespace Arena

variable (a : Arena) (input : List UInt8) (lenient : Bool)

/-- `arena.parse(id, ctx, start)`. -/
def parseAt : ℕ → ℕ → ℕ → Except Abort ParseResult
  | 0, _, _ => .error .depth
  | n + 1, id, start =>
    match a.parsers[id]? with
    | none => .error .parserId
    | some .epsilon => .ok (.success start start)
    | some .start => .ok (if start = 0 then .success start start else .fail start start)
    | some .finish =>
      .ok (if input.length ≤ start then .success start start else .fail start start)
    | some (.literal literal) => .ok (literalFrom input lenient start literal start)
    | some (.sequence children) => sequenceFrom (parseAt n) start children start [] []
    | some (.choice children) => choiceFrom (parseAt n) start children
    | some (.repetition child minCount maxCount) =>
      repetitionFrom (parseAt n) input lenient start child minCount maxCount n start 0 [] []
    | some (.and child) => do
      let r ← parseAt n child start
      return ⟨r.type, start, start, [], []⟩
    | some (.not child) => do
      let r ← parseAt n child start
      match r.type with
      | .success => return .fail start start
      | .needMoreInput => return .needMore start start
      | .fail => return .success start start
    | some .any => .ok (parseAny input lenient start)
    | some .space => .ok (parseSpace input start)
    | some (.chars p) => .ok (p.parseFrom input lenient start (input.length + 1) start 0)
    | some (.string delimiter) =>
      .ok (stringFrom input lenient start delimiter (input.length + 1) start)
    | some (.until delimiters) =>
      .ok (untilFrom input lenient start (Trie.ofWords delimiters) (input.length + 1) start start [])
    | some (.schema child) => parseAt n child start
    | some (.rule name child) => do
      let r ← parseAt n child start
      return withNode input name "" r
    | some (.ref name) =>
      match a.rules.lookup name with
      | none => .error (.ruleNotFound name)
      | some child => parseAt n child start
    | some (.atomic child) => do
      let r ← parseAt n child start
      return if r.type = .needMoreInput then { r with nodes := [] } else r
    | some (.tag child tag) => do
      let r ← parseAt n child start
      return withNode input "" tag r
    | some (.gbnf child) => parseAt n child start
    | some (.ac child) => parseAt n child start

/-- `parse` from the root. -/
def parse (n : ℕ) : Except Abort ParseResult :=
  match a.root with
  | none => .error .noRoot
  | some root => a.parseAt input lenient n root 0

end Arena

end Peg

end RocmFpx
