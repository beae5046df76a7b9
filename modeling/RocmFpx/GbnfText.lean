import Mathlib.Data.List.TakeWhile
import RocmFpx.Grammar

/-!
The words of a GBNF text. A position in the text is what stands from there on, up to the
terminating zero.
-/

namespace RocmFpx

/-- An exception, with the text its message ends in, or a recursion deeper than the fuel. -/
inductive GbnfError
  | thrown (message : String) (src : List UInt8)
  | depth

namespace Gbnf

/-- The bytes of a text in ASCII. -/
def bytes (s : String) : List UInt8 := s.toList.map Char.toUInt8

def isDigitChar (c : UInt8) : Bool := decide ('0'.toUInt8 ≤ c) && decide (c ≤ '9'.toUInt8)

def isWordChar (c : UInt8) : Bool :=
  (decide ('a'.toUInt8 ≤ c) && decide (c ≤ 'z'.toUInt8)) ||
    (decide ('A'.toUInt8 ≤ c) && decide (c ≤ 'Z'.toUInt8)) || c == '-'.toUInt8 || isDigitChar c

/-! ## Characters -/

/-- The table of lengths by the high bits of the first byte. -/
def utf8Length (b : UInt8) : ℕ :=
  [1, 1, 1, 1, 1, 1, 1, 1, 1, 1, 1, 1, 2, 2, 3, 4].getD (b.toNat / 16) 1

def decodeTail : ℕ → ℕ → List UInt8 → ℕ × List UInt8
  | 0, value, pos => (value, pos)
  | _ + 1, value, [] => (value, [])
  | k + 1, value, b :: pos => decodeTail k (value * 64 + b.toNat % 64) pos

/-- `decode_utf8` of one character that begins with the byte `b`. -/
def decodeUtf8 (b : UInt8) (pos : List UInt8) : ℕ × List UInt8 :=
  decodeTail (utf8Length b - 1) (b.toNat % 2 ^ (8 - utf8Length b)) pos

def hexDigit (c : UInt8) : Option ℕ :=
  if 'a'.toUInt8 ≤ c ∧ c ≤ 'f'.toUInt8 then some (c.toNat - 97 + 10)
  else if 'A'.toUInt8 ≤ c ∧ c ≤ 'F'.toUInt8 then some (c.toNat - 65 + 10)
  else if '0'.toUInt8 ≤ c ∧ c ≤ '9'.toUInt8 then some (c.toNat - 48)
  else none

/-- The loop of `parse_hex`; `src` is where it began. -/
def parseHexFrom (size : ℕ) (src : List UInt8) :
    ℕ → ℕ → List UInt8 → Except GbnfError (ℕ × List UInt8)
  | 0, value, pos => .ok (value, pos)
  | _ + 1, _, [] => .error (.thrown s!"expecting {size} hex chars at " src)
  | k + 1, value, c :: pos =>
    match hexDigit c with
    | some d => parseHexFrom size src k (value * 16 + d) pos
    | none => .error (.thrown s!"expecting {size} hex chars at " src)

def parseHex (size : ℕ) (src : List UInt8) : Except GbnfError (ℕ × List UInt8) :=
  parseHexFrom size src size 0 src

/-- The escape sequence that `src` begins with; behind its backslash stands `pos`. -/
def parseEscape (src : List UInt8) : List UInt8 → Except GbnfError (ℕ × List UInt8)
  | [] => .error (.thrown "unknown escape at " src)
  | c :: pos =>
    if c = 'x'.toUInt8 then parseHex 2 pos
    else if c = 'u'.toUInt8 then parseHex 4 pos
    else if c = 'U'.toUInt8 then parseHex 8 pos
    else if c = 't'.toUInt8 then .ok (9, pos)
    else if c = 'r'.toUInt8 then .ok (13, pos)
    else if c = 'n'.toUInt8 then .ok (10, pos)
    else if c ∈ ['\\'.toUInt8, '"'.toUInt8, '['.toUInt8, ']'.toUInt8, '-'.toUInt8] then
      .ok (c.toNat, pos)
    else .error (.thrown "unknown escape at " src)

def parseChar : List UInt8 → Except GbnfError (ℕ × List UInt8)
  | [] => .error (.thrown "unexpected end of input" [])
  | c :: pos => if c = '\\'.toUInt8 then parseEscape (c :: pos) pos else .ok (decodeUtf8 c pos)

/-! ## Spaces, names and numbers -/

/-- The loop of `parse_space`, and its inner loop over a comment. -/
def parseSpaceFrom (newlineOk : Bool) : Bool → List UInt8 → List UInt8
  | _, [] => []
  | false, c :: pos =>
    if c = ' '.toUInt8 ∨ c = '\t'.toUInt8 ∨ newlineOk ∧ (c = '\r'.toUInt8 ∨ c = '\n'.toUInt8) then
      parseSpaceFrom newlineOk false pos
    else if c = '#'.toUInt8 then parseSpaceFrom newlineOk true pos
    else c :: pos
  | true, c :: pos =>
    if c = '\r'.toUInt8 ∨ c = '\n'.toUInt8 then
      if newlineOk then parseSpaceFrom newlineOk false pos else c :: pos
    else parseSpaceFrom newlineOk true pos

def parseSpace (newlineOk : Bool) (src : List UInt8) : List UInt8 :=
  parseSpaceFrom newlineOk false src

/-- The name at a position, and the text behind it. -/
def parseName (src : List UInt8) : Except GbnfError (List UInt8 × List UInt8) :=
  let name := src.takeWhile isWordChar
  if name = [] then .error (.thrown "expecting name at " src)
  else .ok (name, src.dropWhile isWordChar)

def parseInt (src : List UInt8) : Except GbnfError (List UInt8 × List UInt8) :=
  let digits := src.takeWhile isDigitChar
  if digits = [] then .error (.thrown "expecting integer at " src)
  else .ok (digits, src.dropWhile isDigitChar)

def digitsValue (digits : List UInt8) : ℕ :=
  digits.foldl (fun value c => value * 10 + (c.toNat - 48)) 0

/-- `std::stoull` and `std::stoul` of a string of digits. -/
def stoull (name : String) (digits : List UInt8) : Except GbnfError ℕ :=
  if digitsValue digits < 2 ^ 64 then .ok (digitsValue digits) else .error (.thrown name [])

/-- The character that must come next. -/
def expect (c : UInt8) (message : String) : List UInt8 → Except GbnfError (List UInt8)
  | [] => .error (.thrown message [])
  | b :: pos => if b = c then .ok pos else .error (.thrown message (b :: pos))

/-! ## Literals, classes and tokens -/

/-- The characters of a literal up to its closing quote, and the text behind. -/
def parseLiteral : ℕ → List UInt8 → Except GbnfError (List ℕ × List UInt8)
  | 0, _ => .error .depth
  | _ + 1, [] => .error (.thrown "unexpected end of input" [])
  | n + 1, c :: pos =>
    if c = '"'.toUInt8 then .ok ([], pos)
    else do
      let (value, pos) ← parseChar (c :: pos)
      let (values, pos) ← parseLiteral n pos
      return (value :: values, pos)

/-- The upper end of a range, if one follows a character of a class. -/
def parseUpper : List UInt8 → Except GbnfError (List GrammarElement × List UInt8)
  | [] => .ok ([], [])
  | c :: pos =>
    if c = '-'.toUInt8 ∧ pos.head? ≠ some ']'.toUInt8 then
      if pos = [] then .error (.thrown "unexpected end of input" [])
      else do
        let (value, pos) ← parseChar pos
        return ([⟨.charRngUpper, value⟩], pos)
    else .ok ([], c :: pos)

/-- The elements of a class up to its closing bracket, and the text behind. -/
def parseClass : ℕ → Gretype → List UInt8 → Except GbnfError (List GrammarElement × List UInt8)
  | 0, _, _ => .error .depth
  | _ + 1, _, [] => .error (.thrown "unexpected end of input" [])
  | n + 1, type, c :: pos =>
    if c = ']'.toUInt8 then .ok ([], pos)
    else do
      let (value, pos) ← parseChar (c :: pos)
      let (upper, pos) ← parseUpper pos
      let (elements, pos) ← parseClass n .charAlt pos
      return (⟨type, value⟩ :: upper ++ elements, pos)

/-- The class behind an opening bracket. -/
def parseBrackets (pos : List UInt8) : Except GbnfError (List GrammarElement × List UInt8) :=
  if pos.head? = some '^'.toUInt8 then parseClass (pos.length + 1) .charNot pos.tail
  else parseClass (pos.length + 1) .char pos

/-- `parse_token`. `vocab` gives the id of a text that is tokenized to exactly one token. -/
def parseToken (vocab : Option (List UInt8 → Option ℕ)) (src : List UInt8) :
    Except GbnfError (ℕ × List UInt8) := do
  let pos ← expect '<'.toUInt8 "expecting '<' at " src
  if pos.head? = some '['.toUInt8 then
    let (digits, rest) ← parseInt pos.tail
    let id ← stoull "stoul" digits
    if 2 ^ 32 ≤ id then throw (.thrown "parsed token id is too big at " pos.tail)
    let rest ← expect ']'.toUInt8 "expecting ']' at " rest
    let rest ← expect '>'.toUInt8 "expecting '>' at " rest
    return (id, rest)
  match vocab with
  | none => throw (.thrown "no vocab to parse token at " src)
  | some tokenize =>
    let text := pos.takeWhile (· ≠ '>'.toUInt8)
    let rest ← expect '>'.toUInt8 "expecting '>' at " (pos.dropWhile (· ≠ '>'.toUInt8))
    match tokenize ('<'.toUInt8 :: text ++ ['>'.toUInt8]) with
    | none =>
      throw (.thrown "invalid token '" ('<'.toUInt8 :: text ++ ['>'.toUInt8] ++ [39]))
    | some token => return (token, rest)

/-! ## Repetition ranges -/

def maxRepetitionThreshold : ℕ := 2000

/-- The upper end of a range behind its comma, and the text behind the closing brace. -/
def parseMaxTimes (isNested : Bool) (src : List UInt8) :
    Except GbnfError (Option ℕ × List UInt8) := do
  let pos := parseSpace isNested src
  if (pos.head?.map isDigitChar).getD false then
    let (digits, rest) ← parseInt pos
    let maxTimes ← stoull "stoull" digits
    let pos ← expect '}'.toUInt8 "expecting '\x7d' at " (parseSpace isNested rest)
    return (some maxTimes, parseSpace isNested pos)
  else
    let pos ← expect '}'.toUInt8 "expecting '\x7d' at " pos
    return (none, parseSpace isNested pos)

/-- What stands behind the lower end of a range. -/
def parseTimesEnd (isNested : Bool) (minTimes : ℕ) (pos : List UInt8) :
    Except GbnfError (Option ℕ × List UInt8) :=
  if pos.head? = some '}'.toUInt8 then .ok (some minTimes, parseSpace isNested pos.tail)
  else do
    let pos ← expect ','.toUInt8 "expecting ',' at " pos
    parseMaxTimes isNested pos

/-- The range behind an opening brace. An upper end above the threshold stands for none, as does
`UINT64_MAX`. -/
def parseTimes (isNested : Bool) (src : List UInt8) :
    Except GbnfError ((ℕ × Option ℕ) × List UInt8) := do
  let pos := parseSpace isNested src
  if (pos.head?.map isDigitChar).getD false = false then throw (.thrown "expecting an int at " pos)
  let (digits, rest) ← parseInt pos
  let minTimes ← stoull "stoull" digits
  let (maxTimes, pos) ← parseTimesEnd isNested minTimes (parseSpace isNested rest)
  if maxRepetitionThreshold < minTimes then
    throw (.thrown ("number of repetitions exceeds sane defaults, " ++
      "please reduce the number of repetitions") [])
  return ((minTimes, maxTimes.filter (· ≤ maxRepetitionThreshold)), pos)

/-! ## One step through a sequence -/

/-- What the loop of `parse_sequence` finds at a position. -/
inductive Lexeme
  /-- A literal, a class, a token or `.` -/
  | elements (es : List GrammarElement)
  | name (name : List UInt8)
  /-- An opening parenthesis -/
  | group
  | times (minTimes : ℕ) (maxTimes : Option ℕ)
  /-- Nothing that belongs to the sequence -/
  | stop

/-- The branches of the loop of `parse_sequence`, with the spaces behind. -/
def nextLexeme (vocab : Option (List UInt8 → Option ℕ)) (isNested : Bool) :
    List UInt8 → Except GbnfError (Lexeme × List UInt8)
  | [] => .ok (.stop, [])
  | c :: pos =>
    if c = '"'.toUInt8 then do
      let (values, pos) ← parseLiteral (pos.length + 1) pos
      return (.elements (values.map (GrammarElement.mk .char)), parseSpace isNested pos)
    else if c = '['.toUInt8 then do
      let (elements, pos) ← parseBrackets pos
      return (.elements elements, parseSpace isNested pos)
    else if c = '<'.toUInt8 then do
      let (token, pos) ← parseToken vocab (c :: pos)
      return (.elements [⟨.token, token⟩], parseSpace isNested pos)
    else if c = '!'.toUInt8 then do
      let (token, pos) ← parseToken vocab pos
      return (.elements [⟨.tokenNot, token⟩], parseSpace isNested pos)
    else if isWordChar c then do
      let (name, pos) ← parseName (c :: pos)
      return (.name name, parseSpace isNested pos)
    else if c = '('.toUInt8 then .ok (.group, parseSpace true pos)
    else if c = '.'.toUInt8 then .ok (.elements [⟨.charAny, 0⟩], parseSpace isNested pos)
    else if c = '*'.toUInt8 then .ok (.times 0 none, parseSpace isNested pos)
    else if c = '+'.toUInt8 then .ok (.times 1 none, parseSpace isNested pos)
    else if c = '?'.toUInt8 then .ok (.times 0 (some 1), parseSpace isNested pos)
    else if c = '{'.toUInt8 then do
      let ((minTimes, maxTimes), pos) ← parseTimes isNested pos
      return (.times minTimes maxTimes, pos)
    else .ok (.stop, c :: pos)

/-! ## Progress -/

section

variable {α β : Type} {x : Except GbnfError α} {f : α → Except GbnfError β} {b : β}

theorem bind_eq_ok : (x >>= f) = .ok b ↔ ∃ a, x = .ok a ∧ f a = .ok b := by
  cases x with
  | error e => exact ⟨fun h => (nomatch h), fun ⟨a, h, _⟩ => (nomatch h)⟩
  | ok a => exact ⟨fun h => ⟨a, rfl, h⟩, fun ⟨a', h, hf⟩ => (Except.ok.inj h) ▸ hf⟩

theorem bind_ne_depth (hx : x ≠ .error .depth) (hf : ∀ a, x = .ok a → f a ≠ .error .depth) :
    (x >>= f) ≠ .error .depth := by
  cases x with
  | error e => exact fun h => hx (Except.error.inj h ▸ rfl)
  | ok a => exact hf a rfl

theorem ite_ne_depth {p : Prop} [Decidable p] {y : Except GbnfError α} (hx : x ≠ .error .depth)
    (hy : y ≠ .error .depth) : (if p then x else y) ≠ .error .depth := by
  split_ifs
  · exact hx
  · exact hy

end

variable {src pos rest : List UInt8} {n k value : ℕ} {isNested : Bool} {type : Gretype}

theorem parseHexFrom_length {size : ℕ} {r : ℕ × List UInt8}
    (h : parseHexFrom size src k value pos = .ok r) : r.2.length + k = pos.length := by
  induction k generalizing value pos with
  | zero => cases h; rfl
  | succ k ih =>
    cases pos with
    | nil => nomatch h
    | cons c pos =>
      rw [parseHexFrom] at h
      split at h
      · rw [List.length_cons, ← ih h, Nat.add_assoc]
      · nomatch h

theorem decodeTail_length (k value : ℕ) (pos : List UInt8) :
    (decodeTail k value pos).2.length ≤ pos.length := by
  induction k generalizing value pos with
  | zero => exact le_rfl
  | succ k ih =>
    cases pos with
    | nil => exact le_rfl
    | cons b pos => exact (ih _ pos).trans (Nat.le_succ _)

theorem parseEscape_length {r : ℕ × List UInt8} (h : parseEscape src pos = .ok r) :
    r.2.length < pos.length := by
  cases pos with
  | nil => nomatch h
  | cons c pos =>
    rw [parseEscape] at h
    rw [List.length_cons]
    split_ifs at h
    iterate 3
      · have := parseHexFrom_length h
        omega
    all_goals
      cases h
      exact Nat.lt_succ_self _

theorem parseChar_length {r : ℕ × List UInt8} (h : parseChar src = .ok r) :
    r.2.length < src.length := by
  cases src with
  | nil => nomatch h
  | cons c pos =>
    rw [parseChar] at h
    split_ifs at h
    · exact (parseEscape_length h).trans (Nat.lt_succ_self _)
    · cases h
      exact Nat.lt_succ_of_le (decodeTail_length _ _ pos)

theorem parseSpaceFrom_length (newlineOk comment : Bool) (pos : List UInt8) :
    (parseSpaceFrom newlineOk comment pos).length ≤ pos.length := by
  induction pos generalizing comment with
  | nil => cases comment <;> exact le_rfl
  | cons c pos ih =>
    cases comment <;> rw [parseSpaceFrom] <;> split_ifs
    all_goals first
      | exact le_rfl
      | exact (ih _).trans (Nat.le_succ _)

theorem parseSpace_length (newlineOk : Bool) (pos : List UInt8) :
    (parseSpace newlineOk pos).length ≤ pos.length := parseSpaceFrom_length _ _ pos

theorem parseHexFrom_ne_depth {size : ℕ} : parseHexFrom size src k value pos ≠ .error .depth := by
  induction k generalizing value pos with
  | zero => exact fun h => nomatch h
  | succ k ih =>
    cases pos with
    | nil => exact fun h => nomatch h
    | cons c pos =>
      rw [parseHexFrom]
      split
      · exact ih
      · exact fun h => nomatch h

theorem parseChar_ne_depth : parseChar src ≠ .error .depth := by
  cases src with
  | nil => exact fun h => nomatch h
  | cons c pos =>
    rw [parseChar]
    split_ifs
    · cases pos with
      | nil => exact fun h => nomatch h
      | cons d pos =>
        rw [parseEscape]
        split_ifs
        all_goals first
          | exact parseHexFrom_ne_depth
          | exact fun h => nomatch h
    · exact fun h => nomatch h

theorem parseLiteral_length {r : List ℕ × List UInt8} (h : parseLiteral n src = .ok r) :
    r.2.length < src.length := by
  induction n generalizing src r with
  | zero => nomatch h
  | succ n ih =>
    cases src with
    | nil => nomatch h
    | cons c pos =>
      rw [parseLiteral] at h
      split_ifs at h
      · cases h
        exact Nat.lt_succ_self _
      · obtain ⟨v, hv, h⟩ := bind_eq_ok.1 h
        obtain ⟨vs, hvs, h⟩ := bind_eq_ok.1 h
        cases h
        exact (ih hvs).trans (parseChar_length hv)

theorem parseLiteral_ne_depth (hn : src.length < n) : parseLiteral n src ≠ .error .depth := by
  induction n generalizing src with
  | zero => omega
  | succ n ih =>
    cases src with
    | nil => exact fun h => nomatch h
    | cons c pos =>
      rw [parseLiteral]
      split_ifs
      · exact fun h => nomatch h
      · refine bind_ne_depth parseChar_ne_depth fun v hv => ?_
        have := parseChar_length hv
        refine bind_ne_depth (ih (by omega)) fun vs hvs => ?_
        exact fun h => nomatch h

theorem parseUpper_length {r : List GrammarElement × List UInt8} (h : parseUpper src = .ok r) :
    r.2.length ≤ src.length := by
  cases src with
  | nil => cases h; exact le_rfl
  | cons c pos =>
    rw [parseUpper] at h
    split_ifs at h
    · obtain ⟨v, hv, h⟩ := bind_eq_ok.1 h
      cases h
      exact (parseChar_length hv).le.trans (Nat.le_succ _)
    · cases h
      exact le_rfl

theorem parseUpper_ne_depth : parseUpper src ≠ .error .depth := by
  cases src with
  | nil => exact fun h => nomatch h
  | cons c pos =>
    rw [parseUpper]
    split_ifs
    · exact fun h => nomatch h
    · exact bind_ne_depth parseChar_ne_depth fun v hv h => nomatch h
    · exact fun h => nomatch h

theorem parseClass_length {r : List GrammarElement × List UInt8}
    (h : parseClass n type src = .ok r) : r.2.length < src.length := by
  induction n generalizing src type r with
  | zero => nomatch h
  | succ n ih =>
    cases src with
    | nil => nomatch h
    | cons c pos =>
      rw [parseClass] at h
      split_ifs at h
      · cases h
        exact Nat.lt_succ_self _
      · obtain ⟨v, hv, h⟩ := bind_eq_ok.1 h
        obtain ⟨u, hu, h⟩ := bind_eq_ok.1 h
        obtain ⟨es, hes, h⟩ := bind_eq_ok.1 h
        cases h
        exact (ih hes).trans_le ((parseUpper_length hu).trans (parseChar_length hv).le)

theorem parseClass_ne_depth (hn : src.length < n) : parseClass n type src ≠ .error .depth := by
  induction n generalizing src type with
  | zero => omega
  | succ n ih =>
    cases src with
    | nil => exact fun h => nomatch h
    | cons c pos =>
      rw [parseClass]
      split_ifs
      · exact fun h => nomatch h
      · refine bind_ne_depth parseChar_ne_depth fun v hv => ?_
        refine bind_ne_depth parseUpper_ne_depth fun u hu => ?_
        have := parseChar_length hv
        have := parseUpper_length hu
        refine bind_ne_depth (ih (by omega)) fun es hes => ?_
        exact fun h => nomatch h

theorem parseBrackets_length {r : List GrammarElement × List UInt8}
    (h : parseBrackets src = .ok r) : r.2.length < src.length := by
  rw [parseBrackets] at h
  split_ifs at h
  · refine (parseClass_length h).trans_le ?_
    rw [List.length_tail]
    exact Nat.sub_le _ _
  · exact parseClass_length h

theorem parseBrackets_ne_depth : parseBrackets src ≠ .error .depth := by
  rw [parseBrackets]
  split_ifs
  · refine parseClass_ne_depth ?_
    rw [List.length_tail]
    omega
  · exact parseClass_ne_depth (Nat.lt_succ_self _)

theorem expect_length {c : UInt8} {message : String} (h : expect c message src = .ok rest) :
    rest.length < src.length := by
  cases src with
  | nil => nomatch h
  | cons b pos =>
    rw [expect] at h
    split_ifs at h
    cases h
    exact Nat.lt_succ_self _

theorem expect_ne_depth {c : UInt8} {message : String} : expect c message src ≠ .error .depth := by
  cases src with
  | nil => exact fun h => nomatch h
  | cons b pos =>
    rw [expect]
    split_ifs
    · exact fun h => nomatch h
    · exact fun h => nomatch h

theorem length_dropWhile_le (p : UInt8 → Bool) (src : List UInt8) :
    (src.dropWhile p).length ≤ src.length := (List.dropWhile_suffix p).length_le

theorem parseInt_length {r : List UInt8 × List UInt8} (h : parseInt src = .ok r) :
    r.2.length < src.length := by
  simp only [parseInt] at h
  split_ifs at h with hnil
  cases h
  have hlen := congrArg List.length (List.takeWhile_append_dropWhile (p := isDigitChar) (l := src))
  have := List.length_pos_iff.mpr hnil
  rw [List.length_append] at hlen
  simp only
  omega

theorem parseInt_ne_depth : parseInt src ≠ .error .depth := by
  simp only [parseInt]
  split_ifs
  · exact fun h => nomatch h
  · exact fun h => nomatch h

theorem parseName_length {r : List UInt8 × List UInt8} (h : parseName src = .ok r) :
    r.2.length < src.length := by
  simp only [parseName] at h
  split_ifs at h with hnil
  cases h
  have hlen := congrArg List.length (List.takeWhile_append_dropWhile (p := isWordChar) (l := src))
  have := List.length_pos_iff.mpr hnil
  rw [List.length_append] at hlen
  simp only
  omega

theorem parseName_ne_depth : parseName src ≠ .error .depth := by
  simp only [parseName]
  split_ifs
  · exact fun h => nomatch h
  · exact fun h => nomatch h

theorem stoull_ne_depth {name : String} : stoull name src ≠ .error .depth := by
  rw [stoull]
  split_ifs
  · exact fun h => nomatch h
  · exact fun h => nomatch h

variable {vocab : Option (List UInt8 → Option ℕ)}

theorem parseToken_length {r : ℕ × List UInt8} (h : parseToken vocab src = .ok r) :
    r.2.length < src.length := by
  rw [parseToken] at h
  obtain ⟨pos, hpos, h⟩ := bind_eq_ok.1 h
  have hlt := expect_length hpos
  split_ifs at h
  · obtain ⟨ds, hds, h⟩ := bind_eq_ok.1 h
    obtain ⟨id, -, h⟩ := bind_eq_ok.1 h
    have h1 := parseInt_length hds
    rw [List.length_tail] at h1
    split_ifs at h
    · nomatch h
    · obtain ⟨rest, hrest, h⟩ := bind_eq_ok.1 h
      obtain ⟨rest', hrest', h⟩ := bind_eq_ok.1 h
      have h2 := expect_length hrest
      have h3 := expect_length hrest'
      cases h
      simp only
      omega
  · cases vocab with
    | none => nomatch h
    | some tokenize =>
      obtain ⟨rest, hrest, h⟩ := bind_eq_ok.1 h
      have h2 := (expect_length hrest).trans_le (length_dropWhile_le _ _)
      split at h
      · nomatch h
      · cases h
        simp only
        omega

theorem parseToken_ne_depth : parseToken vocab src ≠ .error .depth := by
  rw [parseToken]
  refine bind_ne_depth expect_ne_depth fun pos hpos => ?_
  split_ifs
  · refine bind_ne_depth parseInt_ne_depth fun ds hds => ?_
    refine bind_ne_depth stoull_ne_depth fun id hid => ?_
    split_ifs
    · exact fun h => nomatch h
    · refine bind_ne_depth expect_ne_depth fun rest hrest => ?_
      exact bind_ne_depth expect_ne_depth fun rest hrest h => nomatch h
  · cases vocab with
    | none => exact fun h => nomatch h
    | some tokenize =>
      refine bind_ne_depth expect_ne_depth fun rest hrest => ?_
      split
      · exact fun h => nomatch h
      · exact fun h => nomatch h

theorem parseMaxTimes_length {r : Option ℕ × List UInt8} (h : parseMaxTimes isNested src = .ok r) :
    r.2.length ≤ src.length := by
  simp only [parseMaxTimes] at h
  have h0 := parseSpace_length isNested src
  split_ifs at h
  · obtain ⟨ds, hds, h⟩ := bind_eq_ok.1 h
    obtain ⟨m, -, h⟩ := bind_eq_ok.1 h
    obtain ⟨pos, hpos, h⟩ := bind_eq_ok.1 h
    have h1 := parseInt_length hds
    have h2 := parseSpace_length isNested ds.2
    have h3 := expect_length hpos
    have h4 := parseSpace_length isNested pos
    cases h
    simp only
    omega
  · obtain ⟨pos, hpos, h⟩ := bind_eq_ok.1 h
    have h3 := expect_length hpos
    have h4 := parseSpace_length isNested pos
    cases h
    simp only
    omega

theorem parseMaxTimes_ne_depth : parseMaxTimes isNested src ≠ .error .depth := by
  simp only [parseMaxTimes]
  split_ifs
  · refine bind_ne_depth parseInt_ne_depth fun ds hds => ?_
    refine bind_ne_depth stoull_ne_depth fun m hm => ?_
    exact bind_ne_depth expect_ne_depth fun pos hpos h => nomatch h
  · exact bind_ne_depth expect_ne_depth fun pos hpos h => nomatch h

theorem parseTimesEnd_length {m : ℕ} {r : Option ℕ × List UInt8}
    (h : parseTimesEnd isNested m src = .ok r) : r.2.length ≤ src.length := by
  rw [parseTimesEnd] at h
  split_ifs at h
  · cases h
    refine (parseSpace_length _ _).trans ?_
    rw [List.length_tail]
    exact Nat.sub_le _ _
  · obtain ⟨pos, hpos, h⟩ := bind_eq_ok.1 h
    exact (parseMaxTimes_length h).trans (expect_length hpos).le

theorem parseTimesEnd_ne_depth {m : ℕ} : parseTimesEnd isNested m src ≠ .error .depth := by
  rw [parseTimesEnd]
  split_ifs
  · exact fun h => nomatch h
  · exact bind_ne_depth expect_ne_depth fun pos hpos => parseMaxTimes_ne_depth

theorem parseTimes_length {r : (ℕ × Option ℕ) × List UInt8} (h : parseTimes isNested src = .ok r) :
    r.2.length ≤ src.length := by
  simp only [parseTimes] at h
  split_ifs at h
  · nomatch h
  · obtain ⟨ds, hds, h⟩ := bind_eq_ok.1 h
    obtain ⟨m, -, h⟩ := bind_eq_ok.1 h
    obtain ⟨x, hx, h⟩ := bind_eq_ok.1 h
    have h0 := parseSpace_length isNested src
    have h1 := parseInt_length hds
    have h2 := parseSpace_length isNested ds.2
    have h3 := parseTimesEnd_length hx
    split_ifs at h
    · nomatch h
    · cases h
      simp only
      omega

theorem parseTimes_ne_depth : parseTimes isNested src ≠ .error .depth := by
  simp only [parseTimes]
  split_ifs
  · exact fun h => nomatch h
  · refine bind_ne_depth parseInt_ne_depth fun ds hds => ?_
    refine bind_ne_depth stoull_ne_depth fun m hm => ?_
    refine bind_ne_depth parseTimesEnd_ne_depth fun x hx => ?_
    split_ifs
    · exact fun h => nomatch h
    · exact fun h => nomatch h

theorem nextLexeme_length {r : Lexeme × List UInt8} (h : nextLexeme vocab isNested src = .ok r) :
    r.2.length < src.length ∨ r = (.stop, src) := by
  cases src with
  | nil => cases h; exact Or.inr rfl
  | cons c pos =>
    have hspace := parseSpace_length isNested
    have hlt : ∀ {rest : List UInt8}, rest.length ≤ pos.length → rest.length < (c :: pos).length :=
      fun h => Nat.lt_succ_of_le h
    rw [nextLexeme] at h
    obtain ⟨-, h⟩ | ⟨-, h⟩ := ite_eq_iff.mp h
    · obtain ⟨x, hx, h⟩ := bind_eq_ok.1 h
      cases h
      exact Or.inl (hlt ((hspace _).trans (parseLiteral_length hx).le))
    obtain ⟨-, h⟩ | ⟨-, h⟩ := ite_eq_iff.mp h
    · obtain ⟨x, hx, h⟩ := bind_eq_ok.1 h
      cases h
      exact Or.inl (hlt ((hspace _).trans (parseBrackets_length hx).le))
    obtain ⟨-, h⟩ | ⟨-, h⟩ := ite_eq_iff.mp h
    · obtain ⟨x, hx, h⟩ := bind_eq_ok.1 h
      cases h
      exact Or.inl ((hspace _).trans_lt (parseToken_length hx))
    obtain ⟨-, h⟩ | ⟨-, h⟩ := ite_eq_iff.mp h
    · obtain ⟨x, hx, h⟩ := bind_eq_ok.1 h
      cases h
      exact Or.inl (hlt ((hspace _).trans (parseToken_length hx).le))
    obtain ⟨-, h⟩ | ⟨-, h⟩ := ite_eq_iff.mp h
    · obtain ⟨x, hx, h⟩ := bind_eq_ok.1 h
      cases h
      exact Or.inl ((hspace _).trans_lt (parseName_length hx))
    iterate 5
      obtain ⟨-, h⟩ | ⟨-, h⟩ := ite_eq_iff.mp h
      · cases h
        exact Or.inl (hlt (parseSpace_length _ pos))
    obtain ⟨-, h⟩ | ⟨-, h⟩ := ite_eq_iff.mp h
    · obtain ⟨x, hx, h⟩ := bind_eq_ok.1 h
      cases h
      exact Or.inl (hlt (parseTimes_length hx))
    · cases h
      exact Or.inr rfl

theorem nextLexeme_ne_depth : nextLexeme vocab isNested src ≠ .error .depth := by
  cases src with
  | nil => exact fun h => nomatch h
  | cons c pos =>
    rw [nextLexeme]
    refine ite_ne_depth ?_ ?_
    · exact bind_ne_depth (parseLiteral_ne_depth (Nat.lt_succ_self _)) fun x hx h => nomatch h
    refine ite_ne_depth ?_ ?_
    · exact bind_ne_depth parseBrackets_ne_depth fun x hx h => nomatch h
    refine ite_ne_depth ?_ ?_
    · exact bind_ne_depth parseToken_ne_depth fun x hx h => nomatch h
    refine ite_ne_depth ?_ ?_
    · exact bind_ne_depth parseToken_ne_depth fun x hx h => nomatch h
    refine ite_ne_depth ?_ ?_
    · exact bind_ne_depth parseName_ne_depth fun x hx h => nomatch h
    iterate 5
      refine ite_ne_depth ?_ ?_
      · exact fun h => nomatch h
    refine ite_ne_depth ?_ ?_
    · exact bind_ne_depth parseTimes_ne_depth fun x hx h => nomatch h
    · exact fun h => nomatch h

end Gbnf

end RocmFpx
