import Mathlib.Data.List.AList
import Mathlib.Data.List.Infix
import Mathlib.Data.List.Sort
import RocmFpx.UnicodeText

/-!
The tokenizer of PLaMo-2. Every suffix of a token has rows in one table, for the pieces that are
prefixes of it, and the offset of its rows is its id. A text is read from the end: the id kept is
that of the longest suffix of a token that begins the text read so far.
-/

namespace RocmFpx
namespace Plamo2

open Unicode

abbrev Text := List UInt8

/-- An entry of the vocabulary. The score is `std::round(score * 1e4)`, of a finite score. -/
structure TokenData where
  text : Text
  score : Option ℤ
  isByte : Bool

def INVALID_SCORE : ℤ := -20000000
def UNKNOWN_SCORE : ℤ := -10000000

/-- The UTF-8 of code points. -/
def encode (cpts : List ℕ) : Text := cpts.flatMap utf8Bytes

/-! ## Building -/

/-- The value of a hexadecimal digit, if `std::isxdigit` holds. -/
def hexDigit (b : UInt8) : Option ℕ :=
  let n := b.toNat
  if 0x30 ≤ n ∧ n ≤ 0x39 then some (n - 0x30)
  else if 0x41 ≤ n ∧ n ≤ 0x46 then some (n - 0x37)
  else if 0x61 ≤ n ∧ n ≤ 0x66 then some (n - 0x57)
  else none

/-- The byte of a text `<0xHH>`. -/
def byteVal : Text → Option ℕ
  | [0x3C, 0x30, 0x78, high, low, 0x3E] =>
    (hexDigit high).bind fun h => (hexDigit low).map fun l => 16 * h + l
  | _ => none

/-- `bytes_`; zero where no byte token is set. -/
def bytesOf (vocab : List TokenData) : ℕ → ℕ :=
  vocab.zipIdx.foldl (fun bytes (entry, tokenId) =>
    if entry.isByte then
      match byteVal entry.text with
      | some v => Function.update bytes v tokenId
      | none => bytes
    else bytes) fun _ => 0

def tokenToId (vocab : List TokenData) : Text → Option ℕ :=
  vocab.zipIdx.foldl (fun ids (entry, tokenId) => Function.update ids entry.text (some tokenId))
    fun _ => none

/-- The proper suffixes of a text that are not empty, the longest first. -/
def properSuffixes : List ℕ → List (List ℕ)
  | [] => []
  | _ :: cpts => if cpts = [] then [] else cpts :: properSuffixes cpts

/-- `suffix_to_score`; a score that is not a number is `none`. -/
abbrev Scores := AList fun _ : Text => Option ℤ

def addSuffix (scores : Scores) (suffix : Text) : Scores :=
  if (scores.lookup suffix).isNone then scores.insert suffix none else scores

def addToken (scores : Scores) (entry : TokenData) : Scores :=
  if entry.isByte then scores
  else ((properSuffixes (cptsFromUtf8 entry.text)).map encode).foldl addSuffix
    (scores.insert entry.text entry.score)

def suffixToScore (vocab : List TokenData) : Scores := vocab.foldl addToken ∅

/-- All suffixes, in lexicographical order of the reversed strings. -/
def sortedSuffixes (scores : Scores) : List Text :=
  (scores.keys ++ [[]]).insertionSort fun a b => a.reverse ≤ b.reverse

/-- The pieces that are prefixes of a suffix, the longest first. -/
def piecesOf (scores : Scores) (suffix : Text) : List (List ℕ) :=
  ((cptsFromUtf8 suffix).inits.tail.reverse).filter fun piece =>
    (scores.lookup (encode piece)).isSome

/-- The ids given so far. The id of a suffix, and with a code point that of the longer suffix, is
zero where there is none. -/
structure Ids where
  suffixToId : Text → ℕ
  toSuffixId : ℕ × ℕ → ℕ
  numPieces : ℕ

def addId (scores : Scores) (ids : Ids) (suffix : Text) : Ids :=
  let suffixToId := Function.update ids.suffixToId suffix ids.numPieces
  match cptsFromUtf8 suffix with
  | [] => { ids with suffixToId, numPieces := ids.numPieces + 1 }
  | c :: remaining =>
    { suffixToId
      toSuffixId := Function.update ids.toSuffixId (c, suffixToId (encode remaining)) ids.numPieces
      numPieces := ids.numPieces + (1 + (piecesOf scores suffix).length) }

def idsOf (scores : Scores) (suffixes : List Text) : Ids :=
  suffixes.foldl (addId scores) ⟨fun _ => 0, fun _ => 0, 0⟩

/-- A row of `table_`. -/
structure Row where
  pieceLength : ℕ
  tokenId : ℤ
  score : ℤ
  pieceId : ℕ

def sentinel : Row := ⟨1, -1, UNKNOWN_SCORE, 0⟩

def rowOf (vocab : List TokenData) (scores : Scores) (suffixToId : Text → ℕ) (piece : List ℕ) :
    Row where
  pieceLength := piece.length
  tokenId := ((tokenToId vocab (encode piece)).map Int.ofNat).getD (-1)
  score := ((scores.lookup (encode piece)).join).getD INVALID_SCORE
  pieceId := suffixToId (encode piece)

def rowsOf (vocab : List TokenData) (scores : Scores) (suffixToId : Text → ℕ) (suffix : Text) :
    List Row :=
  (piecesOf scores suffix).map (rowOf vocab scores suffixToId) ++ [sentinel]

structure Tokenizer where
  bytes : ℕ → ℕ
  toSuffixId : ℕ × ℕ → ℕ
  table : List Row

/-- `llm_tokenizer_plamo2::build`. Of the code points of a token `unicode_cpt_to_utf8` throws on
those behind the first in the first loop, and on the first after the bytes are checked. -/
def build (vocab : List TokenData) : Except String Tokenizer := do
  let cpts := (vocab.filter fun entry => !entry.isByte).map fun entry => cptsFromUtf8 entry.text
  if cpts.any fun cpts => cpts.tail.any fun c => maxCpt < c then .error "invalid codepoint"
  let bytes := bytesOf vocab
  match (List.range 256).find? fun i => bytes i = 0 with
  | some i => .error s!"Byte token for <0x{i}> is not set"
  | none =>
    if cpts.any fun cpts => cpts.any fun c => maxCpt < c then .error "invalid codepoint"
    let scores := suffixToScore vocab
    let suffixes := sortedSuffixes scores
    let ids := idsOf scores suffixes
    .ok ⟨bytes, ids.toSuffixId, suffixes.flatMap (rowsOf vocab scores ids.suffixToId)⟩

/-! ## Encoding -/

/-- A row of the path array. -/
structure Path where
  tokenLength : ℕ
  tokenId : ℤ
  numTokens : ℕ

/-- The arrays from a position on, and the suffix id there. -/
structure State where
  suffixId : ℕ
  scores : List ℤ
  path : List Path

namespace Tokenizer

variable (tk : Tokenizer)

/-- The search for the next suffix id, through the rows from the present one on. -/
def nextSuffix (c : ℕ) : List Row → ℕ → ℕ
  | [], suffixId => suffixId
  | row :: rows, _ =>
    let suffixId := tk.toSuffixId (c, row.pieceId)
    if suffixId > 0 ∨ row.score = UNKNOWN_SCORE then suffixId else nextSuffix c rows suffixId

/-- The bytes of a code point beyond the first. -/
def extraBytes (c : ℕ) : ℕ :=
  (if c ≥ 0x80 then 1 else 0) + (if c ≥ 0x800 then 1 else 0) + (if c ≥ 0x10000 then 1 else 0)

/-- The update of the best path at a position; reading behind the arrays is `none`. -/
def bestPath (c : ℕ) (state : State) : List Row → ℤ × Path → Option (ℤ × Path)
  | [], best => some best
  | row :: rows, best => do
    let best ←
      if row.score > INVALID_SCORE then do
        let score ← state.scores[row.pieceLength - 1]?
        let path ← state.path[row.pieceLength - 1]?
        let s := score - row.score
        if s < best.1 then
          some (s, ⟨row.pieceLength, row.tokenId,
            path.numTokens + 1 + if row.score = UNKNOWN_SCORE then extraBytes c else 0⟩)
        else some best
      else some best
    if row.score = UNKNOWN_SCORE then some best else bestPath c state rows best

/-- The dynamic program, from the end of the text to its beginning. -/
def fill : List ℕ → Option State
  | [] => some ⟨0, [0], [⟨0, 0, 0⟩]⟩
  | c :: cpts => do
    let state ← fill cpts
    let suffixId := tk.nextSuffix c (tk.table.drop state.suffixId) state.suffixId
    let best ← bestPath c state (tk.table.drop suffixId) (2 ^ 60, ⟨0, 0, 0⟩)
    some ⟨suffixId, best.1 :: state.scores, best.2 :: state.path⟩

/-- Fall back to byte tokens. -/
def byteTokens (c : ℕ) : List ℤ :=
  let s := 1 + extraBytes c
  (List.range s).map fun i =>
    let b := if s = 1 then c % 256 else if i = 0 then (0xF00 >>> s) &&& 0xFF else 0x80
    tk.bytes (b ||| ((c >>> ((s - i - 1) * 6)) &&& 0x3F))

/-- Decode the best path; a path that does not advance is `none`. -/
def decode : ℕ → List ℕ → List Path → Option (List ℤ)
  | _, [], _ => some []
  | 0, _ :: _, _ => none
  | fuel + 1, c :: cpts, path => do
    let p ← path.head?
    let ids := if p.tokenId ≥ 0 then [p.tokenId] else tk.byteTokens c
    let rest ← decode fuel ((c :: cpts).drop p.tokenLength) (path.drop p.tokenLength)
    some (ids ++ rest)

/-- `encode_cpts`. -/
def encodeCpts (cpts : List ℕ) : Option (List ℤ) := do
  if cpts = [] then some []
  else
    let state ← tk.fill cpts
    tk.decode cpts.length cpts state.path

end Tokenizer

/-! ## Segmentations -/

/-- The bytes that a token stands for: a byte token for its byte. -/
def bytesOfToken (vocab : List TokenData) (id : ℤ) : Text :=
  match vocab[id.toNat]? with
  | none => []
  | some entry =>
    if entry.isByte then ((byteVal entry.text).map UInt8.ofNat).toList else entry.text

/-- A piece of a segmentation: a token of the vocabulary or an unknown single character. -/
inductive Piece
  | token (id : ℕ)
  | unknown (cpt : ℕ)

def Covers (vocab : List TokenData) (cpts : List ℕ) : Piece → Prop
  | .token id => ∃ entry, vocab[id]? = some entry ∧ entry.isByte = false ∧ entry.text = encode cpts
  | .unknown cpt => cpts = [cpt]

/-- The text cut between code points into pieces. -/
def Segmentation (vocab : List TokenData) (cpts : List ℕ) (pieces : List Piece) : Prop :=
  ∃ groups : List (List ℕ), groups.flatten = cpts ∧ List.Forall₂ (Covers vocab) groups pieces

def Piece.score (vocab : List TokenData) : Piece → ℤ
  | .token id => ((vocab[id]?).bind TokenData.score).getD INVALID_SCORE
  | .unknown _ => UNKNOWN_SCORE

/-- The sum of the negated scores. -/
def cost (vocab : List TokenData) (pieces : List Piece) : ℤ :=
  (pieces.map fun piece => -piece.score vocab).sum

/-- The tokens that stand for a piece. -/
def Tokenizer.tokensOf (tk : Tokenizer) : Piece → List ℤ
  | .token id => [(id : ℤ)]
  | .unknown cpt => tk.byteTokens cpt

end Plamo2
end RocmFpx
