import Mathlib.Algebra.Order.BigOperators.Group.List
import RocmFpx.PreTokenizer

/-!
`unicode_regex_split` for pre-tokenizers whose expressions all have a splitter written by hand,
and what becomes of the bytes of the text. The decoder reads more than the encoder writes: beyond
the last code point the encoder throws, and a sequence that is too long comes back shorter.
-/

namespace RocmFpx
namespace PreTokenizer

open Unicode

section
variable (u : UnicodeData)

/-! ## Kimi K2 -/

/-- `unicode_cpt_is_han`. -/
def isHan (cpt : ℕ) : Bool :=
  [(0x4E00, 0x9FFF), (0x3400, 0x4DBF), (0x20000, 0x2A6DF), (0x2A700, 0x2B73F), (0x2B740, 0x2B81F),
    (0x2B820, 0x2CEAF), (0x2CEB0, 0x2EBEF), (0xF900, 0xFAFF), (0x2F800, 0x2FA1F)].any
    fun range => decide (range.1 ≤ cpt) && decide (cpt ≤ range.2)

/-- A letter that is no Han character. -/
def isKimiLetter (cpt : ℕ) : Bool := isLetter u cpt && !isHan cpt

/-- What is left behind a word with its leading code point and contraction; `none` where `pos` is
set back. -/
def kimiWord (s : List ℕ) : Option (List ℕ) :=
  let flags := getFlags u s 0
  let leading := !(isNewline (getCpt s 0) || flags.isLetter || flags.isNumber)
  if (flags.isLetter && !isHan (getCpt s 0)) ||
      (leading && (getFlags u s 1).isLetter && !isHan (getCpt s 1)) then
    let start := if leading then s.drop 1 else s
    let letters := start.dropWhile (isKimiLetter u)
    let hasLetters := decide (letters.length < start.length)
    if hasLetters || (!leading && (getFlags u letters 0).isLetter && !isHan (getCpt letters 0)) then
      let more := (if hasLetters then letters else letters.drop 1).dropWhile (isKimiLetter u)
      some ((contraction u.tolower u.tolower more).getD more)
    else none
  else none

def kimiK2Round (s : List ℕ) : Round :=
  if isHan (getCpt s 0) then token s (s.dropWhile isHan)
  else
    match kimiWord u s with
    | some rest => token s rest
    | none =>
      if (getFlags u s 0).isNumber then threeNumbers u s
      else
        let space := getCpt s 0 = ' '.toNat
        let flags2 := if space then getFlags u s 1 else getFlags u s 0
        let run := if space then s.drop 1 else s
        if !isClassed flags2 && flags2.asUint != 0 then
          token s ((run.dropWhile (isOther u isClassed)).dropWhile isNewline)
        else lineSpaces u s

/-! ## Digits and lines -/

/-- The groups of three of a run of numbers, `behind` code points since the last token. -/
def digitGroups : ℕ → ℕ → List ℕ
  | _, 0 => []
  | behind, n + 1 => (behind + 3) :: digitGroups 0 n

/-- The tokens up to the end of a run of `count` numbers. -/
def digitTokens (behind count : ℕ) : List ℕ :=
  if 0 < count % 3 then (behind + count % 3) :: digitGroups 0 (count / 3)
  else digitGroups behind (count / 3)

/-- The loop of `unicode_regex_split_custom_afmoe`, `behind` code points since the last token. -/
def afmoeFrom : ℕ → ℕ → List ℕ → List ℕ
  | _, behind, [] => if 0 < behind then [behind] else []
  | 0, _, _ :: _ => []
  | n + 1, behind, c :: s =>
    if isNumber u c then
      digitTokens behind ((c :: s).takeWhile (isNumber u)).length ++
        afmoeFrom n 0 ((c :: s).dropWhile (isNumber u))
    else afmoeFrom n (behind + 1) s

def afmoeSegment (s : List ℕ) : List ℕ := afmoeFrom u s.length 0 s

def newlinesRound (s : List ℕ) : Round :=
  token s (s.dropWhile fun c => (c == '\n'.toNat) == (getCpt s 0 == '\n'.toNat))

/-! ## The expressions -/

def gpt2Expr : String :=
  "'s|'t|'re|'ve|'m|'ll|'d| ?\\p\x7bL\x7d+| ?\\p\x7bN\x7d+| ?[^\\s\\p\x7bL\x7d\\p\x7bN\x7d]+|\\s+(?!\\S)"

/-- The expressions of the kind of Llama 3, from its parts. -/
def kindExpr (contractions word number other : String) : String :=
  contractions ++ "|[^\\r\\n\\p\x7bL\x7d\\p\x7bN\x7d]?" ++ word ++ "+|" ++ number ++ "| ?" ++ other ++
    "+[\\r\\n]*|\\s*[\\r\\n]+|\\s+(?!\\S)|\\s+"

def eitherCase : String := "(?:'[sS]|'[tT]|'[rR][eE]|'[vV][eE]|'[mM]|'[lL][lL]|'[dD])"

def otherExpr : String := "[^\\s\\p\x7bL\x7d\\p\x7bN\x7d]"

def llama3Exprs : List String :=
  ["(?i:'s|'t|'re|'ve|'m|'ll|'d)", eitherCase].map fun contractions =>
    kindExpr contractions "\\p\x7bL\x7d" "\\p\x7bN\x7d\x7b1,3\x7d" otherExpr

def qwen2Expr : String := kindExpr eitherCase "\\p\x7bL\x7d" "\\p\x7bN\x7d" otherExpr

def qwen35Expr : String :=
  kindExpr eitherCase "[\\p\x7bL\x7d\\p\x7bM\x7d]" "\\p\x7bN\x7d"
    "[^\\s\\p\x7bL\x7d\\p\x7bM\x7d\\p\x7bN\x7d]"

def k2HorizonExpr : String :=
  kindExpr eitherCase "(?:\\p\x7bL\x7d|\\p\x7bM\x7d|\\u200C|\\u200D)" "\\p\x7bN\x7d\x7b1,3\x7d" otherExpr

/-- `unicode_regex_split_custom`, where the expression is one of those it knows. -/
def customSplitter (expr : String) : Option (List UInt8 → List ℕ → List ℕ) :=
  if expr = gpt2Expr then some (splitCustomGpt2 u)
  else if expr ∈ llama3Exprs then some (splitCustomLlama3 u)
  else if expr = qwen2Expr then some (splitCustomQwen2 u)
  else if expr = qwen35Expr then some (splitCustomQwen35 u)
  else if expr = k2HorizonExpr then some (splitCustomK2Horizon u)
  else if expr = "\\p\x7bHan\x7d+" then
    some fun text => overSegments (splitSegment (kimiK2Round u)) (cptsFromUtf8 text)
  else if expr = "\\p\x7bAFMoE_digits\x7d" then
    some fun text => overSegments (afmoeSegment u) (cptsFromUtf8 text)
  else if expr = "[^\\n]+|[\\n]+" then
    some fun text => overSegments (splitSegment newlinesRound) (cptsFromUtf8 text)
  else if expr = "\\d\x7b1,3\x7d(?=(?:\\d\x7b3\x7d)*\\b)" then
    some fun text => overSegments (afmoeSegment u) (cptsFromUtf8 text)
  else none

def splitCustom (text : List UInt8) (expr : String) (offsets : List ℕ) : List ℕ :=
  match customSplitter u expr with
  | some split => split text offsets
  | none => []

/-! ## Words -/

/-- The encoder over code points one after the other. -/
def encodeAll (cpts : List ℕ) : Except String (List UInt8) := do
  let utf8 ← cpts.mapM cptToUtf8
  pure utf8.flatten

def wordsFrom : List ℕ → List ℕ → Except String (List (List UInt8))
  | _, [] => pure []
  | cpts, offset :: offsets => do
    let word ← encodeAll (cpts.take offset)
    let words ← wordsFrom (cpts.drop offset) offsets
    pure (word :: words)

/-- `unicode_byte_encoding_process`. -/
def byteEncodingProcess (words : List (List UInt8)) : Except String (List (List UInt8)) :=
  words.mapM fun word => do
    let textUtf ← encodeAll (cptsFromUtf8 word)
    let encoded ← textUtf.mapM byteToUtf8
    pure encoded.flatten

/-- `unicode_regex_split`; `stl` is the general-purpose matcher it falls back to. -/
def unicodeRegexSplit (stl : List UInt8 → String → List ℕ → Except String (List ℕ))
    (text : List UInt8) (regexExprs : List String) (byteEncode : Bool) :
    Except String (List (List UInt8)) :=
  if text.isEmpty then pure []
  else do
    let cpts := cptsFromUtf8 text
    let offsets ← regexExprs.foldlM (fun offsets expr =>
      let tmp := splitCustom u text expr offsets
      if tmp.isEmpty then stl text expr offsets else pure tmp) [cpts.length]
    let words ← wordsFrom cpts offsets
    if byteEncode then byteEncodingProcess words else pure words

/-! ## Undoing the byte encoding -/

def ascii (s : String) : List UInt8 := s.toList.map Char.toUInt8

def hexByte (b : UInt8) : List UInt8 :=
  [b.toNat / 16, b.toNat % 16].map fun d => (ascii "0123456789abcdef").getD d 0

/-- `llama_decode_text`. -/
def llamaDecodeText (text : List UInt8) : Except String (List UInt8) := do
  let decoded ← (cptsFromUtf8 text).mapM fun cpt => do
    let utf8 ← cptToUtf8 cpt
    match utf8ToByte utf8 with
    | some byte => pure [byte]
    | none => pure (ascii "[UNK_BYTE_0x" ++ utf8.flatMap hexByte ++ text ++ ascii "]")
  pure decoded.flatten

/-- The words joined, after undoing the byte encoding when it is set. -/
def joined (byteEncode : Bool) (words : List (List UInt8)) : Except String (List UInt8) := do
  let decoded ← if byteEncode then words.mapM llamaDecodeText else pure words
  pure decoded.flatten

end

/-! ## What the text should become -/

/-- The text with every byte that the decoder rejects replaced by U+FFFD. -/
def replaced (text : List UInt8) : List UInt8 :=
  (units text).flatMap fun unit => if unit.2.isSome then unit.1 else utf8Bytes replacementCpt

/-- What the decoder accepts of the text are shortest sequences of code points up to the last. -/
def WellEncoded (text : List UInt8) : Prop :=
  ∀ unit ∈ units text, ∀ cpt, unit.2 = some cpt →
    leastOfLength unit.1.length ≤ cpt ∧ cpt ≤ maxCpt

/-! ## Every splitter covers its segments -/

section
variable {u : UnicodeData}

theorem contraction_getD_suffix {foldNext fold : ℕ → ℕ} (s : List ℕ) :
    (contraction foldNext fold s).getD s <:+ s := by
  cases h : contraction foldNext fold s with
  | none => exact List.suffix_rfl
  | some rest => exact (contraction_covers h).suffix

theorem kimiWord_covers {c : ℕ} {s rest : List ℕ} (h : kimiWord u (c :: s) = some rest) :
    Covers (c :: s) (token (c :: s) rest) := by
  simp only [kimiWord] at h
  generalize (!(isNewline (getCpt (c :: s) 0) || (getFlags u (c :: s) 0).isLetter ||
    (getFlags u (c :: s) 0).isNumber)) = leading at h
  by_cases hword : ((getFlags u (c :: s) 0).isLetter && !isHan (getCpt (c :: s) 0) ||
      leading && (getFlags u (c :: s) 1).isLetter && !isHan (getCpt (c :: s) 1)) = true
  · rw [if_pos hword] at h
    cases leading with
    | true =>
      simp only [if_true] at h
      split_ifs at h
      all_goals
        obtain rfl := Option.some.inj h
        exact token_tail_covers ((contraction_getD_suffix _).trans
          ((List.dropWhile_suffix _).trans (by first
            | exact List.dropWhile_suffix _
            | exact (List.drop_suffix 1 _).trans (List.dropWhile_suffix _))))
    | false =>
      have hc : isKimiLetter u c := by
        simpa [isKimiLetter, isLetter, getFlags, getCpt] using hword
      simp only [Bool.false_eq_true, if_false] at h
      split_ifs at h
      all_goals
        obtain rfl := Option.some.inj h
        exact token_dropWhile_covers hc ((contraction_getD_suffix _).trans
          ((List.dropWhile_suffix _).trans (by first
            | exact List.suffix_rfl
            | exact List.drop_suffix 1 _)))
  · rw [if_neg hword] at h
    cases h

theorem kimiK2Round_covers (c : ℕ) (s : List ℕ) : Covers (c :: s) (kimiK2Round u (c :: s)) := by
  rw [kimiK2Round]
  by_cases hhan : isHan (getCpt (c :: s) 0)
  · rw [if_pos hhan]
    exact token_dropWhile_covers hhan List.suffix_rfl
  rw [if_neg hhan]
  cases hc : kimiWord u (c :: s) with
  | some rest => exact kimiWord_covers hc
  | none =>
    simp only
    split_ifs with h2 hsp h3 h3
    · exact threeNumbers_covers h2
    · exact token_tail_covers ((List.dropWhile_suffix _).trans (List.dropWhile_suffix _))
    · exact lineSpaces_covers (List.cons_ne_nil c s)
    · exact token_dropWhile_covers h3 (List.dropWhile_suffix _)
    · exact lineSpaces_covers (List.cons_ne_nil c s)

theorem newlinesRound_covers (c : ℕ) (s : List ℕ) : Covers (c :: s) (newlinesRound (c :: s)) :=
  token_dropWhile_covers (beq_self_eq_true (c == '\n'.toNat)) List.suffix_rfl

theorem digitGroups_sum (behind n : ℕ) : ∀ k ∈ digitGroups behind n, 0 < k := by
  induction n generalizing behind with
  | zero => exact fun _ hk => (nomatch hk)
  | succ n ih => exact List.forall_mem_cons.mpr ⟨Nat.succ_pos _, ih 0⟩

theorem sum_digitGroups (behind n : ℕ) (h : 0 < n) :
    (digitGroups behind n).sum = behind + 3 * n := by
  cases n with
  | zero => cases h
  | succ n =>
    induction n generalizing behind with
    | zero => rfl
    | succ n ih =>
      rw [digitGroups, List.sum_cons, ih 0 (Nat.succ_pos n)]
      omega

theorem digitTokens_splits (behind : ℕ) {count : ℕ} (h : 0 < count) :
    (digitTokens behind count).sum = behind + count ∧ ∀ k ∈ digitTokens behind count, 0 < k := by
  rw [digitTokens]
  by_cases hr : 0 < count % 3
  · rw [if_pos hr]
    refine ⟨?_, List.forall_mem_cons.mpr ⟨by omega, digitGroups_sum _ _⟩⟩
    rw [List.sum_cons]
    by_cases hg : 0 < count / 3
    · rw [sum_digitGroups _ _ hg]
      omega
    · rw [Nat.eq_zero_of_not_pos hg]
      change behind + count % 3 + 0 = _
      omega
  · rw [if_neg hr]
    exact ⟨by rw [sum_digitGroups _ _ (by omega)]; omega, digitGroups_sum _ _⟩

theorem afmoeFrom_splits {n : ℕ} (behind : ℕ) {s : List ℕ} (hn : s.length ≤ n) :
    (afmoeFrom u n behind s).sum = behind + s.length ∧ ∀ k ∈ afmoeFrom u n behind s, 0 < k := by
  induction n generalizing behind s with
  | zero =>
    obtain rfl := List.length_eq_zero_iff.mp (Nat.le_zero.mp hn)
    rw [afmoeFrom]
    split <;> simp <;> omega
  | succ n ih =>
    cases s with
    | nil =>
      rw [afmoeFrom]
      split <;> simp <;> omega
    | cons c s =>
      have hs : s.length ≤ n := Nat.le_of_succ_le_succ hn
      rw [afmoeFrom]
      by_cases hc : isNumber u c
      · have hrest : ((c :: s).dropWhile (isNumber u)).length ≤ n := by
          rw [List.dropWhile_cons, if_pos hc]
          exact (List.dropWhile_suffix _).length_le.trans hs
        have hlen : ((c :: s).takeWhile (isNumber u)).length +
            ((c :: s).dropWhile (isNumber u)).length = (c :: s).length := by
          rw [← List.length_append, List.takeWhile_append_dropWhile]
        have hcount : 0 < ((c :: s).takeWhile (isNumber u)).length := by
          rw [List.takeWhile_cons, if_pos hc]
          exact Nat.succ_pos _
        obtain ⟨hsum, hpos⟩ := digitTokens_splits behind hcount
        obtain ⟨hsum', hpos'⟩ := ih 0 hrest
        rw [if_pos hc]
        refine ⟨by rw [List.sum_append, hsum, hsum']; omega, fun k hk => ?_⟩
        obtain hk | hk := List.mem_append.mp hk
        · exact hpos k hk
        · exact hpos' k hk
      · obtain ⟨hsum, hpos⟩ := ih (behind + 1) hs
        rw [if_neg hc]
        exact ⟨by rw [hsum, List.length_cons]; omega, hpos⟩

theorem afmoeSegment_splits : Splits (afmoeSegment u) := fun s => by
  obtain ⟨hsum, hpos⟩ := afmoeFrom_splits (u := u) 0 (le_refl s.length)
  exact ⟨hsum.trans (Nat.zero_add _), hpos⟩

theorem customSplitter_tiles {expr : String} {split : List UInt8 → List ℕ → List ℕ}
    (h : customSplitter u expr = some split) {text : List UInt8} {offsets : List ℕ}
    (hsum : offsets.sum ≤ (cptsFromUtf8 text).length) : Tiles offsets (split text offsets) := by
  have hthree := fun c s (hc : isNumber u c) => threeNumbers_covers (s := s) hc
  have hone := fun c s (_ : isNumber u c) => oneNumber_covers (List.cons_ne_nil c s)
  simp only [customSplitter] at h
  split_ifs at h
  all_goals
    obtain rfl := Option.some.inj h
  · exact overSegments_tiles (splitSegment_splits gpt2Round_covers) hsum
  · exact overSegments_tiles (splitSegment_splits (kindRound_covers hthree)) hsum
  · exact overSegments_tiles (splitSegment_splits (kindRound_covers hone)) hsum
  · exact overSegments_tiles (splitSegment_splits (kindRound_covers hone)) hsum
  · exact overSegments_tiles (splitSegment_splits (kindRound_covers hthree)) hsum
  · exact overSegments_tiles (splitSegment_splits kimiK2Round_covers) hsum
  · exact overSegments_tiles afmoeSegment_splits hsum
  · exact overSegments_tiles (splitSegment_splits newlinesRound_covers) hsum
  · exact overSegments_tiles afmoeSegment_splits hsum

theorem offsets_ok {stl : List UInt8 → String → List ℕ → Except String (List ℕ)}
    {text : List UInt8} {exprs : List String} (hcustom : ∀ e ∈ exprs, (customSplitter u e).isSome)
    {start : List ℕ} (hstart : start.sum = (cptsFromUtf8 text).length) (hne : 0 < start.sum) :
    ∃ offsets : List ℕ, exprs.foldlM (fun offsets expr =>
        let tmp := splitCustom u text expr offsets
        if tmp.isEmpty then stl text expr offsets else pure tmp) start = .ok offsets ∧
      offsets.sum = (cptsFromUtf8 text).length := by
  induction exprs generalizing start with
  | nil => exact ⟨start, rfl, hstart⟩
  | cons e exprs ih =>
    obtain ⟨split, hsplit⟩ := Option.isSome_iff_exists.mp (hcustom e List.mem_cons_self)
    have hsum := (customSplitter_tiles hsplit hstart.le).sum_eq
    have htmp : splitCustom u text e start = split text start := by rw [splitCustom, hsplit]
    have hfull : (split text start).isEmpty = false := by
      cases hcase : split text start with
      | nil => rw [hcase, List.sum_nil] at hsum; omega
      | cons k ks => rfl
    obtain ⟨offsets, hrun, hoff⟩ := ih (fun e' he' => hcustom e' (List.mem_cons_of_mem e he'))
      (hsum.trans hstart) (hsum ▸ hne)
    refine ⟨offsets, ?_, hoff⟩
    rw [List.foldlM_cons]
    simp only [htmp, hfull, Bool.false_eq_true, if_false]
    exact hrun

end

/-! ## Words of code points -/

open Fallible

theorem encodeAll_eq_ok {cpts : List ℕ} {utf8 : List UInt8} :
    encodeAll cpts = .ok utf8 ↔ (∀ c ∈ cpts, c ≤ maxCpt) ∧ cpts.flatMap utf8Bytes = utf8 := by
  rw [encodeAll]
  simp only [bind_eq_ok, pure_eq_ok, mapM_eq_ok, cptToUtf8_eq_ok]
  constructor
  · rintro ⟨bytes, hall, rfl⟩
    induction hall with
    | nil => exact ⟨fun _ h => (nomatch h), rfl⟩
    | cons hc _ ih =>
      exact ⟨List.forall_mem_cons.mpr ⟨hc.1, ih.1⟩,
        by rw [List.flatMap_cons, List.flatten_cons, hc.2, ih.2]⟩
  · rintro ⟨hle, rfl⟩
    refine ⟨cpts.map utf8Bytes, ?_, rfl⟩
    rw [List.forall₂_map_right_iff, List.forall₂_same]
    exact fun c hc => ⟨hle c hc, rfl⟩

def chunks : List ℕ → List ℕ → List (List ℕ)
  | _, [] => []
  | cpts, offset :: offsets => cpts.take offset :: chunks (cpts.drop offset) offsets

theorem flatten_chunks {cpts offsets : List ℕ} (h : offsets.sum = cpts.length) :
    (chunks cpts offsets).flatten = cpts := by
  induction offsets generalizing cpts with
  | nil => exact (List.length_eq_zero_iff.mp h.symm).symm
  | cons k ks ih =>
    rw [List.sum_cons] at h
    rw [chunks, List.flatten_cons, ih (by rw [List.length_drop]; omega), List.take_append_drop]

theorem mem_of_mem_chunks {cpts offsets chunk : List ℕ} (h : chunk ∈ chunks cpts offsets) :
    ∀ c ∈ chunk, c ∈ cpts := by
  induction offsets generalizing cpts with
  | nil => cases h
  | cons k ks ih =>
    obtain rfl | h := List.mem_cons.mp h
    · exact fun c => List.mem_of_mem_take
    · exact fun c hc => List.mem_of_mem_drop (ih h c hc)

theorem wordsFrom_eq_ok {cpts offsets : List ℕ} (h : offsets.sum = cpts.length)
    {words : List (List UInt8)} : wordsFrom cpts offsets = .ok words ↔
      (∀ c ∈ cpts, c ≤ maxCpt) ∧
        (chunks cpts offsets).map (fun chunk => chunk.flatMap utf8Bytes) = words := by
  induction offsets generalizing cpts words with
  | nil =>
    obtain rfl := List.length_eq_zero_iff.mp h.symm
    rw [wordsFrom, pure_eq_ok]
    exact ⟨fun e => ⟨fun _ hc => (nomatch hc), e⟩, fun e => e.2⟩
  | cons k ks ih =>
    rw [List.sum_cons] at h
    have hdrop : ks.sum = (cpts.drop k).length := by rw [List.length_drop]; omega
    have hmem : (∀ c ∈ cpts, c ≤ maxCpt) ↔
        (∀ c ∈ cpts.take k, c ≤ maxCpt) ∧ ∀ c ∈ cpts.drop k, c ≤ maxCpt := by
      conv_lhs => rw [← List.take_append_drop k cpts]
      exact List.forall_mem_append
    rw [wordsFrom]
    simp only [bind_eq_ok, pure_eq_ok, encodeAll_eq_ok, ih hdrop, chunks, List.map_cons, hmem]
    constructor
    · rintro ⟨_, ⟨htake, rfl⟩, _, ⟨hrest, rfl⟩, rfl⟩
      exact ⟨⟨htake, hrest⟩, rfl⟩
    · rintro ⟨⟨htake, hrest⟩, rfl⟩
      exact ⟨_, ⟨htake, rfl⟩, _, ⟨hrest, rfl⟩, rfl⟩

/-! ## The byte encoding and back -/

/-- The byte encoding of a word. -/
def byteEncoded (word : List UInt8) : List UInt8 := (word.map byteCpt).flatMap utf8Bytes

theorem mapM_byteToUtf8 (word : List UInt8) :
    word.mapM byteToUtf8 = .ok (word.map fun byte => utf8Bytes (byteCpt byte)) := by
  rw [mapM_eq_ok, List.forall₂_map_right_iff, List.forall₂_same]
  exact fun byte _ => (byteCpt_spec byte).2.1

theorem byteEncodingProcess_ok {chunkList : List (List ℕ)}
    (h : ∀ chunk ∈ chunkList, ∀ c ∈ chunk, c ≤ maxCpt) :
    byteEncodingProcess (chunkList.map fun chunk => chunk.flatMap utf8Bytes) =
      .ok ((chunkList.map fun chunk => chunk.flatMap utf8Bytes).map byteEncoded) := by
  rw [byteEncodingProcess, mapM_eq_ok, List.forall₂_map_right_iff, List.forall₂_same]
  intro word hword
  obtain ⟨chunk, hchunk, rfl⟩ := List.mem_map.mp hword
  rw [cptsFromUtf8_flatMap (h chunk hchunk), encodeAll_eq_ok.2 ⟨h chunk hchunk, rfl⟩, ok_bind,
    mapM_byteToUtf8, ok_bind, byteEncoded, List.flatMap_map]
  rfl

theorem llamaDecodeText_byteEncoded (word : List UInt8) :
    llamaDecodeText (byteEncoded word) = .ok word := by
  have hle : ∀ c ∈ word.map byteCpt, c ≤ maxCpt := by
    intro c hc
    obtain ⟨byte, -, rfl⟩ := List.mem_map.mp hc
    exact (byteCpt_spec byte).1
  rw [llamaDecodeText, byteEncoded, cptsFromUtf8_flatMap hle, bind_eq_ok]
  refine ⟨word.map fun byte => [byte], ?_, ?_⟩
  · rw [mapM_eq_ok, List.forall₂_map_right_iff, List.forall₂_map_left_iff, List.forall₂_same]
    intro byte _
    obtain ⟨hbyte, -, hback⟩ := byteCpt_spec byte
    rw [cptToUtf8_ok hbyte, ok_bind, hback]
    rfl
  · rw [pure_eq_ok]
    induction word with
    | nil => rfl
    | cons byte word ih =>
      rw [List.map_cons, List.flatten_cons, ih fun c hc => hle c (List.mem_cons_of_mem _ hc)]
      rfl

theorem joined_byteEncoded (words : List (List UInt8)) :
    joined true (words.map byteEncoded) = .ok words.flatten := by
  rw [joined, if_pos rfl, bind_eq_ok]
  refine ⟨words, ?_, rfl⟩
  rw [mapM_eq_ok, List.forall₂_map_left_iff, List.forall₂_same]
  exact fun word _ => llamaDecodeText_byteEncoded word

/-! ## What comes back -/

theorem encoded_units_eq {l : List (List UInt8 × Option ℕ)}
    (hreads : ∀ unit ∈ l, ∀ cpt, unit.2 = some cpt → Reads unit.1 cpt) :
    (l.flatMap fun unit => utf8Bytes (unit.2.getD replacementCpt)) =
        (l.flatMap fun unit => if unit.2.isSome then unit.1 else utf8Bytes replacementCpt) ↔
      ∀ unit ∈ l, ∀ cpt, unit.2 = some cpt → leastOfLength unit.1.length ≤ cpt := by
  have hlen : ∀ unit ∈ l, (utf8Bytes (unit.2.getD replacementCpt)).length ≤
      (if unit.2.isSome then unit.1 else utf8Bytes replacementCpt).length := by
    intro unit hu
    cases hc : unit.2 with
    | none => exact le_rfl
    | some cpt => exact (hreads unit hu cpt hc).length_le.1
  induction l with
  | nil => exact ⟨fun _ _ h => (nomatch h), fun _ => rfl⟩
  | cons unit l ih =>
    have hl := List.forall_mem_cons.mp hlen
    have hr := List.forall_mem_cons.mp hreads
    have htail : (l.flatMap fun unit => utf8Bytes (unit.2.getD replacementCpt)).length ≤
        (l.flatMap fun unit =>
          if unit.2.isSome then unit.1 else utf8Bytes replacementCpt).length := by
      rw [List.length_flatMap, List.length_flatMap]
      exact List.sum_le_sum hl.2
    have hhead : utf8Bytes (unit.2.getD replacementCpt) =
        (if unit.2.isSome then unit.1 else utf8Bytes replacementCpt) ↔
          ∀ cpt, unit.2 = some cpt → leastOfLength unit.1.length ≤ cpt := by
      cases hc : unit.2 with
      | none => exact ⟨fun _ _ h => (nomatch h), fun _ => rfl⟩
      | some cpt =>
        have hread := hr.1 cpt hc
        constructor
        · rintro heq cpt' hcpt
          obtain rfl := Option.some.inj hcpt
          exact hread.length_le.2 (congrArg List.length heq)
        · exact fun h => hread.encoded (h cpt rfl)
    rw [List.forall_mem_cons, List.flatMap_cons, List.flatMap_cons]
    refine Iff.trans ?_ (and_congr hhead (ih hr.2 hl.2))
    constructor
    · intro h
      have hlens := congrArg List.length h
      rw [List.length_append, List.length_append] at hlens
      exact List.append_inj h (le_antisymm hl.1 (by omega))
    · rintro ⟨h1, h2⟩
      rw [h1, h2]

theorem cpts_le_iff (text : List UInt8) : (∀ c ∈ cptsFromUtf8 text, c ≤ maxCpt) ↔
    ∀ unit ∈ units text, ∀ cpt, unit.2 = some cpt → cpt ≤ maxCpt := by
  rw [cptsFromUtf8_eq_units, List.forall_mem_map]
  constructor
  · intro h unit hu cpt hc
    have := h unit hu
    rwa [hc] at this
  · intro h unit hu
    cases hc : unit.2 with
    | none => decide
    | some cpt => exact h unit hu cpt hc

theorem flatten_words {cpts offsets : List ℕ} (h : offsets.sum = cpts.length) :
    ((chunks cpts offsets).map fun chunk => chunk.flatMap utf8Bytes).flatten =
      cpts.flatMap utf8Bytes := by
  conv_rhs => rw [← flatten_chunks h]
  induction chunks cpts offsets with
  | nil => rfl
  | cons chunk rest ih =>
    rw [List.map_cons, List.flatten_cons, List.flatten_cons, List.flatMap_append, ih]

theorem joined_words {cpts : List ℕ} (offsets : List ℕ) (hle : ∀ c ∈ cpts, c ≤ maxCpt)
    (byteEncode : Bool) :
    let encoded := (chunks cpts offsets).map fun chunk => chunk.flatMap utf8Bytes
    ∃ words, (if byteEncode then byteEncodingProcess encoded else pure encoded) = .ok words ∧
      joined byteEncode words = .ok encoded.flatten := by
  cases byteEncode with
  | false => exact ⟨_, rfl, rfl⟩
  | true =>
    exact ⟨_, byteEncodingProcess_ok fun chunk hc c hcc => hle c (mem_of_mem_chunks hc c hcc),
      joined_byteEncoded _⟩

/-- The words come back as the text, with its rejected bytes replaced, exactly for texts in which
everything the decoder accepts is the shortest encoding of a code point up to the last. -/
theorem unicodeRegexSplit_iff (u : UnicodeData)
    (stl : List UInt8 → String → List ℕ → Except String (List ℕ)) (exprs : List String)
    (hcustom : ∀ e ∈ exprs, (customSplitter u e).isSome) (byteEncode : Bool) (text : List UInt8) :
    (∃ words, unicodeRegexSplit u stl text exprs byteEncode = .ok words ∧
      joined byteEncode words = .ok (replaced text)) ↔ WellEncoded text := by
  have hwell : WellEncoded text ↔ (∀ c ∈ cptsFromUtf8 text, c ≤ maxCpt) ∧
      (cptsFromUtf8 text).flatMap utf8Bytes = replaced text := by
    rw [cpts_le_iff, cptsFromUtf8_eq_units, List.flatMap_map, replaced, and_comm,
      encoded_units_eq (l := units text) fun unit hu => unitsFrom_reads hu]
    exact ⟨fun h => ⟨fun unit hu cpt hc => (h unit hu cpt hc).1,
      fun unit hu cpt hc => (h unit hu cpt hc).2⟩,
      fun h unit hu cpt hc => ⟨h.1 unit hu cpt hc, h.2 unit hu cpt hc⟩⟩
  rw [hwell, unicodeRegexSplit]
  by_cases hempty : text = []
  · obtain rfl := hempty
    exact ⟨fun _ => ⟨fun _ hc => (nomatch hc), rfl⟩, fun _ => ⟨[], rfl, by cases byteEncode <;> rfl⟩⟩
  have hisEmpty : text.isEmpty = false := by simpa using hempty
  have hpos : 0 < [(cptsFromUtf8 text).length].sum := by
    rw [List.sum_singleton, cptsFromUtf8_eq_units, List.length_map]
    exact List.length_pos_iff.mpr (units_ne_nil hempty)
  obtain ⟨offsets, hoffsets, hsum⟩ :=
    offsets_ok hcustom (List.sum_singleton) hpos
  rw [hisEmpty, if_neg Bool.false_ne_true]
  simp only
  rw [hoffsets, ok_bind]
  simp only [bind_eq_ok, wordsFrom_eq_ok hsum]
  constructor
  · rintro ⟨words, ⟨_, ⟨hle, rfl⟩, hrun⟩, hjoin⟩
    obtain ⟨words', hrun', hjoin'⟩ := joined_words offsets hle byteEncode
    obtain rfl := Except.ok.inj (hrun.symm.trans hrun')
    refine ⟨hle, ?_⟩
    rw [← flatten_words hsum]
    exact Except.ok.inj (hjoin'.symm.trans hjoin)
  · rintro ⟨hle, htext⟩
    obtain ⟨words, hrun, hjoin⟩ := joined_words offsets hle byteEncode
    refine ⟨words, ⟨_, ⟨hle, rfl⟩, hrun⟩, ?_⟩
    rw [hjoin, flatten_words hsum, htext]

/-- The general matcher of a build without one. -/
def noRegex (_ : List UInt8) (_ : String) (_ : List ℕ) : Except String (List ℕ) :=
  .error "Failed to process regex"

/-- The text `hi` and a byte that is rejected. -/
theorem unicodeRegexSplit_iff_hi :
    (∃ words, unicodeRegexSplit asciiData noRegex [0x68, 0x69, 0xFF] [gpt2Expr, qwen2Expr] true =
        .ok words ∧ joined true words = .ok (replaced [0x68, 0x69, 0xFF])) ↔
      WellEncoded [0x68, 0x69, 0xFF] :=
  unicodeRegexSplit_iff asciiData noRegex _ (by decide +kernel) true _

/-- A code point behind the last is read from the text, and the encoder throws. The sequence
`C0 80` is read as the code point 0 and comes back as one byte. -/
theorem beyond_maxCpt :
    (¬ ∃ words, unicodeRegexSplit asciiData noRegex [0xF4, 0x90, 0x80, 0x80] [gpt2Expr] true =
      .ok words) ∧
    ∃ words, unicodeRegexSplit asciiData noRegex [0xC0, 0x80] [gpt2Expr] true = .ok words ∧
      joined true words = .ok [0] ∧ replaced [0xC0, 0x80] = [0xC0, 0x80] := by
  have hthrown : unicodeRegexSplit asciiData noRegex [0xF4, 0x90, 0x80, 0x80] [gpt2Expr] true =
      .error "invalid codepoint" := by decide +kernel
  refine ⟨?_, [utf8Bytes 0x100], by decide +kernel, by decide +kernel, by decide +kernel⟩
  rintro ⟨words, hrun⟩
  rw [hthrown] at hrun
  cases hrun

end PreTokenizer
end RocmFpx
