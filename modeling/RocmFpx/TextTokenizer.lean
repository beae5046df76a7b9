import RocmFpx.MergeTokenizer
import RocmFpx.UnicodeSplit

/-!
From a text to tokens and back, for the two merging tokenizers. Special tokens are cut out of the
text first. What is left is escaped, or split into words and encoded byte by byte, and given to a
session. On the way back every token has a piece, and the pieces are copied into a buffer.
-/

namespace RocmFpx
namespace MergeTokenizer

open Unicode PreTokenizer

/-! ## Strings -/

def replaceFrom (search replace : List UInt8) : ℕ → List UInt8 → List UInt8
  | 0, s => s
  | _ + 1, [] => []
  | n + 1, c :: s =>
    if search.isPrefixOf (c :: s) then
      replace ++ replaceFrom search replace n ((c :: s).drop search.length)
    else c :: replaceFrom search replace n s

/-- `replace_all`. -/
def replaceAll (s search replace : List UInt8) : List UInt8 :=
  if search.isEmpty then s else replaceFrom search replace s.length s

/-- U+2581. -/
def escapedSpace : List UInt8 := [0xE2, 0x96, 0x81]

def llamaEscapeWhitespace (text : List UInt8) : List UInt8 := replaceAll text [0x20] escapedSpace

def llamaUnescapeWhitespace (word : List UInt8) : List UInt8 := replaceAll word escapedSpace [0x20]

/-! ## Searching a text -/

/-- `std::string_view::find`. -/
def findText (search : List UInt8) : List UInt8 → Option ℕ
  | [] => if search.isEmpty then some 0 else none
  | c :: s => if search.isPrefixOf (c :: s) then some 0 else (findText search s).map (· + 1)

/-- `std::string_view::find` from a position on. -/
def findFrom (view search : List UInt8) (pos : ℕ) : Option ℕ :=
  if pos ≤ view.length then (findText search (view.drop pos)).map (pos + ·) else none

/-- An occurrence behind `left`, and none that begins earlier. -/
def Leftmost (search left right : List UInt8) : Prop :=
  ∀ k < left.length, ¬ search <+: (left ++ (search ++ right)).drop k

theorem findText_eq_some {search text : List UInt8} {pos : ℕ} (h : findText search text = some pos) :
    ∃ left right, text = left ++ (search ++ right) ∧ left.length = pos ∧
      Leftmost search left right := by
  induction text generalizing pos with
  | nil =>
    rw [findText] at h
    split_ifs at h with hempty
    obtain rfl := List.isEmpty_iff.mp hempty
    exact ⟨[], [], rfl, Option.some.inj h, fun k hk => absurd hk (Nat.not_lt_zero k)⟩
  | cons c text ih =>
    rw [findText] at h
    split_ifs at h with hbegins
    · obtain ⟨right, hright⟩ := List.isPrefixOf_iff_prefix.mp hbegins
      exact ⟨[], right, hright.symm, Option.some.inj h, fun k hk => absurd hk (Nat.not_lt_zero k)⟩
    · obtain ⟨pos', hpos', rfl⟩ := Option.map_eq_some_iff.mp h
      obtain ⟨left, right, rfl, hlen, hfirst⟩ := ih hpos'
      refine ⟨c :: left, right, rfl, congrArg (· + 1) hlen, fun k hk => ?_⟩
      cases k with
      | zero => exact fun hocc => hbegins (List.isPrefixOf_iff_prefix.mpr hocc)
      | succ k => exact hfirst k (Nat.lt_of_succ_lt_succ hk)

theorem findText_eq_none {search text : List UInt8} (h : findText search text = none) :
    ¬ search <:+: text := by
  induction text with
  | nil =>
    rw [findText] at h
    split_ifs at h with hempty
    exact fun hocc => hempty (List.isEmpty_iff.mpr (List.infix_nil.mp hocc))
  | cons c text ih =>
    rw [findText] at h
    split_ifs at h with hbegins
    rw [List.infix_cons_iff, not_or]
    exact ⟨fun hocc => hbegins (List.isPrefixOf_iff_prefix.mpr hocc),
      ih (Option.map_eq_none_iff.mp h)⟩

theorem Leftmost.not_infix {search left right : List UInt8} (h : Leftmost search left right)
    (hne : search ≠ []) : ¬ search <:+: left := by
  rintro ⟨s, t, rfl⟩
  have hpos := List.length_pos_iff.mpr hne
  refine h s.length (by simp only [List.length_append]; omega) ⟨t ++ (search ++ right), ?_⟩
  rw [List.append_assoc, List.append_assoc, List.drop_left]

theorem findFrom_eq_some {view search : List UInt8} {pos p : ℕ}
    (h : findFrom view search pos = some p) : pos ≤ p ∧ search <+: view.drop p ∧
      ∀ k, pos ≤ k → search <+: view.drop k → p ≤ k := by
  rw [findFrom] at h
  split_ifs at h
  obtain ⟨n, hn, rfl⟩ := Option.map_eq_some_iff.mp h
  obtain ⟨left, right, htext, rfl, hfirst⟩ := findText_eq_some hn
  refine ⟨Nat.le_add_right _ _, ?_, fun k hk hocc => ?_⟩
  · rw [← List.drop_drop, htext, List.drop_left]
    exact List.prefix_append _ _
  · by_contra hlt
    refine hfirst (k - pos) (by omega) ?_
    rw [← htext, List.drop_drop, Nat.add_sub_cancel' hk]
    exact hocc

theorem findFrom_eq_none {view search : List UInt8} {pos : ℕ} (hpos : pos ≤ view.length)
    (h : findFrom view search pos = none) (k : ℕ) (hk : pos ≤ k) : ¬ search <+: view.drop k := by
  rw [findFrom, if_pos hpos] at h
  intro hocc
  refine findText_eq_none (Option.map_eq_none_iff.mp h) (hocc.isInfix.trans ?_)
  rw [← Nat.add_sub_cancel' hk, ← List.drop_drop]
  exact (List.drop_suffix _ _).isInfix

/-! ## Bytes -/

def isSpace (c : UInt8) : Bool := c == 0x20 || (9 ≤ c && c ≤ 13)

/-- The digit `n` of a byte token. -/
def hexDigit (n : ℕ) : UInt8 := (ascii "0123456789ABCDEF").getD n 0

/-- `<0xXX>`. -/
def byteText (ch : UInt8) : List UInt8 :=
  ascii "<0x" ++ [hexDigit (ch.toNat / 16), hexDigit (ch.toNat % 16)] ++ ascii ">"

def hexValue (c : UInt8) : Option ℕ :=
  if 0x30 ≤ c ∧ c ≤ 0x39 then some (c.toNat - 0x30)
  else if 0x41 ≤ c ∧ c ≤ 0x46 then some (c.toNat - 0x41 + 10)
  else if 0x61 ≤ c ∧ c ≤ 0x66 then some (c.toNat - 0x61 + 10)
  else none

def hexNumber (acc : ℕ) : List UInt8 → ℕ
  | [] => acc
  | c :: s =>
    match hexValue c with
    | some d => hexNumber (acc * 16 + d) s
    | none => acc

/-- `strtol` with base 16, of two characters: no `0x` can have a digit behind it. -/
def strtol16 (s : List UInt8) : ℤ :=
  match s.dropWhile isSpace with
  | 0x2D :: s => -(hexNumber 0 s : ℤ)
  | 0x2B :: s => hexNumber 0 s
  | s => hexNumber 0 s

/-! ## The vocabulary -/

inductive VocabType where
  | spm
  | bpe
  deriving DecidableEq

def TokenAttr.isSpecial (a : TokenAttr) : Bool := a.control || a.userDefined || a.unknown

/-- `cacheSpecialTokens` are the special tokens in the order in which they are cut out. -/
structure Vocab (S : Type) extends BpeVocab S where
  type : VocabType
  regexExprs : List String
  byteEncode : Bool
  addSpacePrefix : Bool
  escapeWhitespaces : Bool
  addBos : Bool
  addEos : Bool
  specialBosId : Option ℕ
  specialEosId : Option ℕ
  cacheSpecialTokens : List ℕ
  special_iff (id : ℕ) : id ∈ cacheSpecialTokens ↔
    ∃ t, idToToken[id]? = some t ∧ t.attr.isSpecial = true

section
variable {S : Type} (v : Vocab S)

/-- `byte_to_token`; the byte as a string ends where it is 0. -/
def TokenTable.byteToToken (v : TokenTable S) (ch : UInt8) : Except String ℕ :=
  match v.textToToken (byteText ch) with
  | some token => .ok token
  | none =>
    match v.textToToken (if ch = 0 then [] else [ch]) with
    | some token => .ok token
    | none => .error "out_of_range"

/-! ## Cutting out special tokens -/

inductive Fragment where
  | token (id : ℕ)
  | rawText (text : List UInt8)

def rawFragment (text : List UInt8) : List Fragment :=
  if text.isEmpty then [] else [.rawText text]

/-- The rounds over one fragment of raw text for one special token. -/
def cutSpecial (id : ℕ) (data : TokenData S) : ℕ → List UInt8 → List Fragment
  | 0, text => rawFragment text
  | n + 1, text =>
    match findText data.text text with
    | none => rawFragment text
    | some pos =>
      let left := text.take pos
      let right := text.drop (pos + data.text.length)
      rawFragment (if data.attr.lstrip then (left.reverse.dropWhile isSpace).reverse else left) ++
        .token id ::
          cutSpecial id data n (if data.attr.rstrip then right.dropWhile isSpace else right)

/-- What becomes of the fragments for one special token. -/
def partitionBy (parseSpecial : Bool) (buffer : List Fragment) (id : ℕ) : List Fragment :=
  match v.idToToken[id]? with
  | none => buffer
  | some data =>
    if !parseSpecial && (data.attr.control || data.attr.unknown) then buffer
    else buffer.flatMap fun fragment =>
      match fragment with
      | .token id => [.token id]
      | .rawText text => cutSpecial id data text.length text

/-- `tokenizer_st_partition`. -/
def tokenizerStPartition (parseSpecial : Bool) (buffer : List Fragment) : List Fragment :=
  v.cacheSpecialTokens.foldl (partitionBy v parseSpecial) buffer

/-! ## Sessions -/

/-- `resegment`: the token of a symbol, or those of the two it was made of, or those of its
bytes. -/
def resegment (symbols : List LlmSymbol) (revMerge : List (List UInt8 × ℕ × ℕ)) :
    ℕ → LlmSymbol → Except String (List ℕ)
  | 0, _ => .error "stack overflow"
  | n + 1, symbol =>
    match v.textToToken symbol.word with
    | some token => .ok [token]
    | none =>
      match revMerge.lookup symbol.word with
      | none => symbol.word.mapM v.byteToToken
      | some (left, right) => do
        let first ← resegment symbols revMerge n (sym symbols left)
        let second ← resegment symbols revMerge n (sym symbols right)
        pure (first ++ second)

/-- `llm_tokenizer_spm_session::tokenize`. -/
def spmTokenize [LinearOrder S] (pq : PriorityQueue (LlmBigramSpm S) LlmBigramSpm.less)
    (text : List UInt8) : Except String (List ℕ) := do
  let symbols := symbolsOf text
  let s := (Session.start (q := spmQueue v.toTokenTable) pq symbols).rounds (3 * symbols.length)
  let tokens ← (chained s.symbols).mapM (resegment v s.symbols s.revMerge (symbols.length + 1))
  pure tokens.flatten

/-- The words of a word whose escaped spaces each begin a new one. -/
def metaspaceWords : ℕ → List UInt8 → List (List UInt8)
  | 0, word => [word]
  | n + 1, word =>
    match findText escapedSpace (word.drop escapedSpace.length) with
    | none => [word]
    | some pos =>
      word.take (pos + escapedSpace.length) ::
        metaspaceWords n (word.drop (pos + escapedSpace.length))

def metaspace (word : List UInt8) : List (List UInt8) :=
  if word.all (· == 10) then [word]
  else
    let word := if escapedSpace.isPrefixOf word then word else escapedSpace ++ word
    metaspaceWords word.length word

/-- The symbols a word ends with. -/
def bpeWord (pq : PriorityQueue LlmBigramBpe LlmBigramBpe.less) (word : List UInt8) :
    List LlmSymbol :=
  let symbols := bpeSymbols v.toBpeVocab word
  finished ((Session.start (q := bpeQueue v.toBpeVocab) pq symbols).rounds
    (3 * symbols.length)).symbols

/-- The tokens of a symbol, or those of its bytes as far as there are any. -/
def bpeOutput (str : List UInt8) : List ℕ :=
  match v.textToToken str with
  | some token => [token]
  | none => str.filterMap fun ch => v.textToToken (if v.byteEncode then [ch] else byteText ch)

/-- `llm_tokenizer_bpe_session::tokenize`. -/
def bpeTokenize (u : UnicodeData)
    (stl : List UInt8 → String → List ℕ → Except String (List ℕ))
    (pq : PriorityQueue LlmBigramBpe LlmBigramBpe.less) (text : List UInt8) :
    Except String (List ℕ) := do
  let words ← unicodeRegexSplit u stl text v.regexExprs v.byteEncode
  let words := if v.preType = .mmbert then words.flatMap metaspace else words
  pure ((words.flatMap (bpeWord v pq)).flatMap fun symbol => bpeOutput v symbol.word)

/-- What the sessions use of other code: the character data, the general regular expressions, and
the two queues. -/
structure Libraries (S : Type) [LinearOrder S] where
  unicode : UnicodeData
  stl : List UInt8 → String → List ℕ → Except String (List ℕ)
  spmQueue : PriorityQueue (LlmBigramSpm S) LlmBigramSpm.less
  bpeQueue : PriorityQueue LlmBigramBpe LlmBigramBpe.less

/-- The fragments in order; `isPrevSpecial` tells that the last one was a special token. -/
def spmFragments [LinearOrder S] (lib : Libraries S) :
    Bool → List Fragment → Except String (List ℕ)
  | _, [] => pure []
  | _, .token id :: fragments => do
    let rest ← spmFragments lib true fragments
    pure (id :: rest)
  | isPrevSpecial, .rawText raw :: fragments => do
    let text := if v.addSpacePrefix && isPrevSpecial then 0x20 :: raw else raw
    let tokens ← spmTokenize v lib.spmQueue (llamaEscapeWhitespace text)
    let rest ← spmFragments lib false fragments
    pure (tokens ++ rest)

def bpeFragments [LinearOrder S] (lib : Libraries S) : List Fragment → Except String (List ℕ)
  | [] => pure []
  | .token id :: fragments => do
    let rest ← bpeFragments lib fragments
    pure (id :: rest)
  | .rawText raw :: fragments => do
    let text := if v.escapeWhitespaces then llamaEscapeWhitespace raw else raw
    let tokens ← bpeTokenize v lib.unicode lib.stl lib.bpeQueue text
    let rest ← bpeFragments lib fragments
    pure (tokens ++ rest)

/-- `tokenize` without the tokens at the ends that `add_special` asks for. -/
def tokenize [LinearOrder S] (lib : Libraries S) (rawText : List UInt8) (parseSpecial : Bool) :
    Except String (List ℕ) :=
  let buffer := tokenizerStPartition v parseSpecial (rawFragment rawText)
  match v.type with
  | .spm => spmFragments v lib true buffer
  | .bpe => bpeFragments v lib buffer

/-! ## Pieces -/

/-- `token_to_byte`. -/
def tokenToByte (t : TokenData S) : Except String UInt8 :=
  if t.text.length < 3 then .error "out_of_range"
  else .ok (UInt8.ofNat ((strtol16 ((t.text.drop 3).take 2)) % 256).toNat)

/-- The text `token_to_piece` copies. The cache holds what this computes. -/
def pieceText (t : TokenData S) (special : Bool) : Except String (List UInt8) :=
  if !special && (t.attr.unknown || t.attr.control) then .ok []
  else if t.attr.isSpecial then .ok t.text
  else if t.attr.normal then
    match v.type with
    | .spm => .ok (llamaUnescapeWhitespace t.text)
    | .bpe =>
      if v.escapeWhitespaces then .ok (llamaUnescapeWhitespace t.text)
      else llamaDecodeText t.text
  else if t.attr.byte then (tokenToByte t).map ([·])
  else .ok []

/-- `_try_copy` without the leading spaces that it skips. -/
def skipSpaces (lstrip : ℕ) (piece : List UInt8) : List UInt8 :=
  piece.drop (min lstrip (piece.takeWhile (· == 0x20)).length)

/-- The loop of `detokenize`: what is left of the buffer, how long the text is, and what has been
copied. A piece that does not fit leaves no room for the next ones. -/
def detokenizeFrom (unparseSpecial : Bool) :
    ℕ → List ℕ → ℕ → ℕ → List UInt8 → Except String (ℕ × List UInt8)
  | _, [], _, total, text => .ok (total, text)
  | lstrip, token :: tokens, avail, total, text =>
    match v.idToToken[token]? with
    | none => .error "out_of_range"
    | some t => do
      let piece ← pieceText v t unparseSpecial
      let piece := skipSpaces lstrip piece
      if avail < piece.length then
        detokenizeFrom unparseSpecial 0 tokens 0 (total + piece.length) text
      else
        detokenizeFrom unparseSpecial 0 tokens (avail - piece.length) (total + piece.length)
          (text ++ piece)

/-- `detokenize` without the clean-up of spaces; an error stands also for the negative length of a
text that does not fit. -/
def detokenize (tokens : List ℕ) (textLenMax : ℕ) (removeSpecial unparseSpecial : Bool) :
    Except String (List UInt8) := do
  let bos := removeSpecial && v.addBos && tokens.head? == v.specialBosId && !tokens.isEmpty
  let tokens := if bos then tokens.tail else tokens
  let eos := removeSpecial && v.addEos && tokens.getLast? == v.specialEosId && !tokens.isEmpty
  let tokens := if eos then tokens.dropLast else tokens
  let lstrip := if v.addSpacePrefix && !bos then 1 else 0
  let (total, text) ← detokenizeFrom v unparseSpecial lstrip tokens textLenMax 0 []
  if textLenMax < total then .error "text does not fit" else pure text

end

end MergeTokenizer
end RocmFpx
