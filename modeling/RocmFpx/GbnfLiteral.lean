import RocmFpx.GbnfGrammar
import RocmFpx.Utf8Boundary

/-!
Literals of a GBNF text. What `format_literal` escapes, the parser reads as the characters of the
text, one element for each; and `gbnf_escape_length` knows the escapes that the parser knows.
-/

namespace RocmFpx
namespace Gbnf

/-- What a reader of C strings sees of a string. -/
def cString (s : List UInt8) : List UInt8 := s.takeWhile (· ≠ 0)

/-! ## Escapes -/

/-- `GRAMMAR_LITERAL_ESCAPES` -/
def grammarLiteralEscapes : List (UInt8 × List UInt8) :=
  [('\r'.toUInt8, bytes "\\r"), ('\n'.toUInt8, bytes "\\n"), ('"'.toUInt8, bytes "\\\""),
    ('-'.toUInt8, bytes "\\-"), (']'.toUInt8, bytes "\\]"), ('\\'.toUInt8, bytes "\\\\")]

/-- The class of `GRAMMAR_LITERAL_ESCAPE_RE` -/
def grammarLiteralEscapeRe (c : UInt8) : Bool :=
  c ∈ ['\r'.toUInt8, '\n'.toUInt8, '"'.toUInt8, '\\'.toUInt8]

/-- `replacePattern` for a class of single characters. A replacement may be missing. -/
def replacePattern (input : List UInt8) (regex : UInt8 → Bool)
    (replacement : UInt8 → Option (List UInt8)) : Option (List UInt8) :=
  (input.mapM fun c => if regex c then replacement c else some [c]).map List.flatten

def formatLiteral (literal : List UInt8) : Option (List UInt8) := do
  let escaped ← replacePattern literal grammarLiteralEscapeRe fun c =>
    List.lookup c grammarLiteralEscapes
  return '"'.toUInt8 :: escaped ++ ['"'.toUInt8]

def isHexChar (h : UInt8) : Bool :=
  (decide ('0'.toUInt8 ≤ h) && decide (h ≤ '9'.toUInt8)) ||
    (decide ('a'.toUInt8 ≤ h) && decide (h ≤ 'f'.toUInt8)) ||
      (decide ('A'.toUInt8 ≤ h) && decide (h ≤ 'F'.toUInt8))

/-- `n_hex` -/
def hexCount (c : UInt8) : Option ℕ :=
  if c = 'x'.toUInt8 then some 2
  else if c = 'u'.toUInt8 then some 4
  else if c = 'U'.toUInt8 then some 8
  else none

/-- The characters that stand for one character behind a backslash. -/
def singleEscapes : List UInt8 :=
  ['t'.toUInt8, 'r'.toUInt8, 'n'.toUInt8, '\\'.toUInt8, '"'.toUInt8, '['.toUInt8, ']'.toUInt8,
    '-'.toUInt8]

def gbnfEscapeLength (pattern : List UInt8) (pos : ℕ) : ℕ :=
  if pattern.length ≤ pos + 1 ∨ pattern[pos]? ≠ some '\\'.toUInt8 then 0
  else
    match hexCount (pattern.getD (pos + 1) 0) with
    | none => if pattern.getD (pos + 1) 0 ∈ singleEscapes then 2 else 0
    | some nHex =>
      if pattern.length < pos + 2 + nHex then 0
      else if ((pattern.drop (pos + 2)).take nHex).all isHexChar then 2 + nHex
      else 0

/-! ## The literal of a text -/

/-- The bytes that stand for a byte of the text. -/
def escapeByte (c : UInt8) : List UInt8 :=
  if grammarLiteralEscapeRe c then (List.lookup c grammarLiteralEscapes).getD [] else [c]

theorem escapeByte_some (c : UInt8) :
    (if grammarLiteralEscapeRe c then List.lookup c grammarLiteralEscapes else some [c]) =
      some (escapeByte c) := by
  rw [escapeByte]
  split_ifs with h
  · rw [grammarLiteralEscapeRe, decide_eq_true_eq] at h
    simp only [List.mem_cons, List.not_mem_nil, or_false] at h
    rcases h with rfl | rfl | rfl | rfl <;> rfl
  · rfl

theorem formatLiteral_eq (literal : List UInt8) :
    formatLiteral literal = some ('"'.toUInt8 :: literal.flatMap escapeByte ++ ['"'.toUInt8]) := by
  have hmap : (literal.mapM fun c => if grammarLiteralEscapeRe c then List.lookup c grammarLiteralEscapes
      else some [c]) = some (literal.map escapeByte) := by
    induction literal with
    | nil => rfl
    | cons c literal ih =>
      rw [List.mapM_cons, escapeByte_some, ih]
      rfl
  rw [formatLiteral, replacePattern, hmap]
  rfl

theorem escapeByte_of_le {c : UInt8} (h : 0x80 ≤ c.toNat) : escapeByte c = [c] := by
  refine if_neg fun hc => ?_
  rw [grammarLiteralEscapeRe, decide_eq_true_eq] at hc
  simp only [List.mem_cons, List.not_mem_nil, or_false] at hc
  rcases hc with rfl | rfl | rfl | rfl <;> exact absurd h (by decide)

theorem flatMap_escapeByte {s : List UInt8} (h : ∀ c ∈ s, 0x80 ≤ c.toNat) :
    s.flatMap escapeByte = s := by
  induction s with
  | nil => rfl
  | cons c s ih =>
    rw [List.flatMap_cons, escapeByte_of_le (h c List.mem_cons_self),
      ih fun d hd => h d (List.mem_cons_of_mem _ hd)]
    rfl

theorem encodeChar_cases (c : Char) :
    (c.toNat < 0x80 ∧ String.utf8EncodeChar c = [UInt8.ofNat c.toNat]) ∨
      (0x80 ≤ c.toNat ∧ ∀ b ∈ String.utf8EncodeChar c, 0x80 ≤ b.toNat) := by
  have hmax : c.val.toNat < 0x110000 := by
    have := c.valid
    omega
  fun_cases String.utf8EncodeChar c with
  | case1 u h => exact .inl ⟨Nat.lt_succ_of_le h, rfl⟩
  | case2 u h | case3 u h | case4 u h =>
    refine .inr ⟨not_le.mp h, fun b hb => ?_⟩
    simp only [List.mem_cons, List.not_mem_nil, or_false] at hb
    rcases hb with rfl | rfl | rfl | rfl <;> rw [PartialUtf8.toNat_byte (by omega)] <;> omega

theorem utf8Length_ofNat {u n : ℕ} (h : u < 256)
    (hn : [1, 1, 1, 1, 1, 1, 1, 1, 1, 1, 1, 1, 2, 2, 3, 4].getD (u / 16) 1 = n) :
    utf8Length (UInt8.ofNat u) = n := by
  rw [utf8Length, PartialUtf8.toNat_byte h, hn]

theorem decodeTail_ofNat (k value u : ℕ) (pos : List UInt8) :
    decodeTail (k + 1) value (UInt8.ofNat (u % 0x40 + 0x80) :: pos) =
      decodeTail k (value * 64 + u % 64) pos := by
  rw [decodeTail, PartialUtf8.toNat_byte (by omega)]
  congr 2
  omega

theorem decodeUtf8_char (c : Char) (rest : List UInt8) :
    ∃ b s, String.utf8EncodeChar c = b :: s ∧ decodeUtf8 b (s ++ rest) = (c.toNat, rest) := by
  have hmax : c.val.toNat < 0x110000 := by
    have := c.valid
    omega
  fun_cases String.utf8EncodeChar c with
  | case1 u h =>
    have hk : u / 16 < 8 := by omega
    have hlen : utf8Length (UInt8.ofNat u) = 1 :=
      utf8Length_ofNat (by omega) (by interval_cases u / 16 <;> rfl)
    refine ⟨_, [], rfl, ?_⟩
    rw [decodeUtf8, hlen, PartialUtf8.toNat_byte (by omega)]
    exact congrArg (·, rest) (Nat.mod_eq_of_lt (Nat.lt_succ_of_le h))
  | case2 u h h' =>
    have hk : (u / 64 % 0x20 + 0xc0) / 16 = 12 ∨ (u / 64 % 0x20 + 0xc0) / 16 = 13 := by omega
    have hlen : utf8Length (UInt8.ofNat (u / 64 % 0x20 + 0xc0)) = 2 :=
      utf8Length_ofNat (by omega) (by rcases hk with hk | hk <;> rw [hk] <;> rfl)
    refine ⟨_, _, rfl, ?_⟩
    rw [decodeUtf8, hlen, PartialUtf8.toNat_byte (by omega)]
    change decodeTail (0 + 1) _ (_ :: rest) = _
    rw [decodeTail_ofNat, decodeTail]
    congr 1
    change _ = u
    omega
  | case3 u h h' h'' =>
    have hlen : utf8Length (UInt8.ofNat (u / 4096 % 0x10 + 0xe0)) = 3 :=
      utf8Length_ofNat (by omega) (by rw [show (u / 4096 % 0x10 + 0xe0) / 16 = 14 by omega]; rfl)
    refine ⟨_, _, rfl, ?_⟩
    rw [decodeUtf8, hlen, PartialUtf8.toNat_byte (by omega)]
    change decodeTail (1 + 1) _ (_ :: _ :: rest) = _
    rw [decodeTail_ofNat, decodeTail_ofNat, decodeTail]
    congr 1
    change _ = u
    omega
  | case4 u h h' h'' =>
    have hlen : utf8Length (UInt8.ofNat (u / 262144 % 0x08 + 0xf0)) = 4 :=
      utf8Length_ofNat (by omega) (by rw [show (u / 262144 % 0x08 + 0xf0) / 16 = 15 by omega]; rfl)
    refine ⟨_, _, rfl, ?_⟩
    rw [decodeUtf8, hlen, PartialUtf8.toNat_byte (by omega)]
    change decodeTail (1 + 1 + 1) _ (_ :: _ :: _ :: rest) = _
    rw [decodeTail_ofNat, decodeTail_ofNat, decodeTail_ofNat, decodeTail]
    congr 1
    change _ = u
    omega

theorem parseChar_escaped (c : Char) (rest : List UInt8) :
    ∃ b s, (String.utf8EncodeChar c).flatMap escapeByte = b :: s ∧ b ≠ '"'.toUInt8 ∧
      parseChar (b :: s ++ rest) = .ok (c.toNat, rest) := by
  obtain ⟨b, s, hbytes, hdecode⟩ := decodeUtf8_char c rest
  have hplain : b ≠ '"'.toUInt8 → b ≠ '\\'.toUInt8 →
      (String.utf8EncodeChar c).flatMap escapeByte = b :: s →
      ∃ b s, (String.utf8EncodeChar c).flatMap escapeByte = b :: s ∧ b ≠ '"'.toUInt8 ∧
        parseChar (b :: s ++ rest) = .ok (c.toNat, rest) := by
    intro hquote hslash hescaped
    refine ⟨b, s, hescaped, hquote, ?_⟩
    rw [List.cons_append, parseChar, if_neg hslash, hdecode]
  rcases encodeChar_cases c with ⟨hlt, hone⟩ | ⟨-, hhigh⟩
  · obtain ⟨rfl, rfl⟩ := List.cons.inj (hbytes.symm.trans hone)
    rw [hone, List.flatMap_singleton] at hplain ⊢
    by_cases hre : grammarLiteralEscapeRe (UInt8.ofNat c.toNat)
    · have hc : ∀ e : UInt8, UInt8.ofNat c.toNat = e → c.toNat = e.toNat := by
        intro e he
        rw [← he, PartialUtf8.toNat_byte (by omega)]
      rw [grammarLiteralEscapeRe, decide_eq_true_eq] at hre
      simp only [List.mem_cons, List.not_mem_nil, or_false] at hre
      rcases hre with he | he | he | he
      all_goals
        rw [he, hc _ he]
        exact ⟨'\\'.toUInt8, _, rfl, by decide, rfl⟩
    · refine hplain ?_ ?_ (if_neg hre)
      · rintro h
        exact hre (h ▸ by decide)
      · rintro h
        exact hre (h ▸ by decide)
  · rw [hbytes] at hhigh hplain ⊢
    have hb := hhigh b List.mem_cons_self
    refine hplain ?_ ?_ (flatMap_escapeByte hhigh) <;> rintro rfl <;> exact absurd hb (by decide)

theorem parseLiteral_escaped (text : List Char) {n : ℕ} (hn : text.length < n) (rest : List UInt8) :
    parseLiteral n ((PartialUtf8.encode text).flatMap escapeByte ++ '"'.toUInt8 :: rest) =
      .ok (text.map Char.toNat, rest) := by
  induction text generalizing n with
  | nil =>
    obtain ⟨n, rfl⟩ := Nat.exists_eq_add_one.mpr hn
    rfl
  | cons c text ih =>
    obtain ⟨n, rfl⟩ := Nat.exists_eq_add_one.mpr (Nat.zero_lt_of_lt hn)
    rw [encode_cons, List.flatMap_append, List.append_assoc]
    obtain ⟨b, s, hbytes, hquote, hchar⟩ := parseChar_escaped c
      ((PartialUtf8.encode text).flatMap escapeByte ++ '"'.toUInt8 :: rest)
    rw [hbytes, List.cons_append, parseLiteral, if_neg hquote]
    refine bind_eq_ok.2 ⟨_, hchar, ?_⟩
    exact bind_eq_ok.2 ⟨_, ih (Nat.lt_of_succ_lt_succ hn), rfl⟩

theorem escapeByte_ne_zero {c b : UInt8} (hc : c ≠ 0) (h : b ∈ escapeByte c) : b ≠ 0 := by
  rw [escapeByte] at h
  split_ifs at h with hre
  · rw [grammarLiteralEscapeRe, decide_eq_true_eq] at hre
    simp only [List.mem_cons, List.not_mem_nil, or_false] at hre
    rintro rfl
    rcases hre with rfl | rfl | rfl | rfl <;> exact absurd h (by decide)
  · rwa [List.mem_singleton.mp h]

theorem length_le_escaped (text : List Char) :
    text.length ≤ ((PartialUtf8.encode text).flatMap escapeByte).length := by
  induction text with
  | nil => exact Nat.zero_le _
  | cons c text ih =>
    obtain ⟨b, s, hbytes, -⟩ := parseChar_escaped c []
    rw [encode_cons, List.flatMap_append, List.length_append, hbytes, List.length_cons,
      List.length_cons]
    omega

theorem cString_literal {text : List Char} (h : ∀ c ∈ text, c.toNat ≠ 0) :
    cString ('"'.toUInt8 :: (PartialUtf8.encode text).flatMap escapeByte ++ ['"'.toUInt8]) =
      '"'.toUInt8 :: (PartialUtf8.encode text).flatMap escapeByte ++ ['"'.toUInt8] := by
  refine List.takeWhile_eq_self_iff.mpr fun b hb => ?_
  rw [decide_eq_true_eq]
  rcases List.mem_append.mp hb with hb | hb
  · rcases List.mem_cons.mp hb with rfl | hb
    · decide
    · obtain ⟨c, hc, hb⟩ := List.mem_flatMap.mp hb
      exact escapeByte_ne_zero (PartialUtf8.encode_ne_zero h c hc) hb
  · rw [List.mem_singleton.mp hb]
    decide

theorem parseSequence_literal (vocab : Option (List UInt8 → Option ℕ)) (n : ℕ) (st : GbnfState)
    (ruleName : List UInt8) (isNested : Bool) (rule : List GrammarElement) (text : List Char) :
    parseSequence vocab (n + 2) st
      ('"'.toUInt8 :: (PartialUtf8.encode text).flatMap escapeByte ++ ['"'.toUInt8]) ruleName isNested
      rule rule.length 1 =
        .ok ([], st, rule ++ text.map fun c => ⟨.char, c.toNat⟩) := by
  have hlen := length_le_escaped text
  have hlex : nextLexeme vocab isNested
      ('"'.toUInt8 :: (PartialUtf8.encode text).flatMap escapeByte ++ ['"'.toUInt8]) =
        .ok (.elements (text.map fun c => ⟨.char, c.toNat⟩), []) := by
    rw [List.cons_append, nextLexeme, if_pos rfl]
    refine bind_eq_ok.2 ⟨_, parseLiteral_escaped text ?_ [], ?_⟩
    · rw [List.length_append]
      omega
    · change Except.ok (Lexeme.elements ((text.map _).map _), _) = _
      rw [List.map_map]
      rfl
  rw [parseSequence_elements hlex]
  exact parseSequence_stop rfl

/-! ## Escape sequences -/

/-- `k` characters of hex in front. -/
def HexFront (k : ℕ) (pos : List UInt8) : Prop := k ≤ pos.length ∧ (pos.take k).all isHexChar

theorem hexDigit_isSome (c : UInt8) : (hexDigit c).isSome = isHexChar c := by
  rw [hexDigit, isHexChar]
  split_ifs <;> simp_all

theorem hexFront_cons {k : ℕ} {c : UInt8} {pos : List UInt8} :
    HexFront (k + 1) (c :: pos) ↔ isHexChar c ∧ HexFront k pos := by
  rw [HexFront, HexFront, List.take_succ_cons, List.all_cons, List.length_cons, Bool.and_eq_true,
    Nat.add_le_add_iff_right]
  exact and_left_comm

theorem hexFront_cString {k : ℕ} {pos : List UInt8} : HexFront k (cString pos) ↔ HexFront k pos := by
  induction k generalizing pos with
  | zero => exact iff_of_true ⟨Nat.zero_le _, rfl⟩ ⟨Nat.zero_le _, rfl⟩
  | succ k ih =>
    cases pos with
    | nil => rfl
    | cons c pos =>
      by_cases hc : c = 0
      · subst hc
        rw [hexFront_cons]
        exact iff_of_false (fun h => absurd h.1 (Nat.not_succ_le_zero k)) fun h =>
          absurd h.1 (by decide)
      · have hcons : cString (c :: pos) = c :: cString pos :=
          List.takeWhile_cons_of_pos (by simpa using hc)
        rw [hcons, hexFront_cons, hexFront_cons, ih]

theorem parseHexFrom_iff {size k value : ℕ} {src pos rest : List UInt8} :
    (∃ v, parseHexFrom size src k value pos = .ok (v, rest)) ↔ HexFront k pos ∧ rest = pos.drop k := by
  induction k generalizing value pos with
  | zero =>
    rw [parseHexFrom]
    constructor
    · rintro ⟨v, h⟩
      exact ⟨⟨Nat.zero_le _, rfl⟩, (Prod.mk.inj (Except.ok.inj h)).2.symm⟩
    · rintro ⟨-, rfl⟩
      exact ⟨value, rfl⟩
  | succ k ih =>
    cases pos with
    | nil =>
      refine iff_of_false ?_ fun h => absurd h.1.1 (by simp)
      rintro ⟨v, h⟩
      cases h
    | cons c pos =>
      rw [hexFront_cons, ← hexDigit_isSome, parseHexFrom]
      cases hc : hexDigit c with
      | none =>
        refine iff_of_false ?_ fun h => absurd h.1.1 Bool.false_ne_true
        rintro ⟨v, h⟩
        cases h
      | some d =>
        rw [ih]
        simp only [Option.isSome_some, true_and, List.drop_succ_cons]

/-- An escape sequence of `k` bytes in front. -/
def EscapeFront (k : ℕ) (s : List UInt8) : Prop :=
  ∃ c pos, s = '\\'.toUInt8 :: c :: pos ∧ ((hexCount c = none ∧ c ∈ singleEscapes ∧ k = 2) ∨
    ∃ nHex, hexCount c = some nHex ∧ HexFront nHex pos ∧ k = 2 + nHex)

theorem hexCount_single {c : UInt8} (h : c ∈ singleEscapes) : hexCount c = none := by
  simp only [singleEscapes, List.mem_cons, List.not_mem_nil, or_false] at h
  rcases h with rfl | rfl | rfl | rfl | rfl | rfl | rfl | rfl <;> rfl

theorem mem_singleEscapes {c : UInt8} : c ∈ singleEscapes ↔ c = 't'.toUInt8 ∨ c = 'r'.toUInt8 ∨
    c = 'n'.toUInt8 ∨
      c ∈ ['\\'.toUInt8, '"'.toUInt8, '['.toUInt8, ']'.toUInt8, '-'.toUInt8] := by
  simp only [singleEscapes, List.mem_cons]

theorem parseEscape_iff {src pos rest : List UInt8} {c : UInt8} :
    (∃ v, parseEscape src (c :: pos) = .ok (v, rest)) ↔
      (c ∈ singleEscapes ∧ rest = pos) ∨
        ∃ nHex, hexCount c = some nHex ∧ HexFront nHex pos ∧ rest = pos.drop nHex := by
  have hsingle : ∀ a, c ∈ singleEscapes → ((∃ v, Except.ok (a, pos) =
      (Except.ok (v, rest) : Except GbnfError (ℕ × List UInt8))) ↔ (c ∈ singleEscapes ∧ rest = pos) ∨
        ∃ nHex, False ∧ HexFront nHex pos ∧ rest = pos.drop nHex) := by
    intro a hc
    constructor
    · rintro ⟨v, h⟩
      exact .inl ⟨hc, (Prod.mk.inj (Except.ok.inj h)).2.symm⟩
    · rintro (⟨-, rfl⟩ | ⟨nHex, h, -⟩)
      · exact ⟨a, rfl⟩
      · exact h.elim
  rw [parseEscape, hexCount]
  split_ifs with hx hu hU ht hr hn hs
  iterate 3
    · rw [parseHex, parseHexFrom_iff]
      simp only [Option.some.injEq, exists_eq_left']
      exact (or_iff_right fun h => by subst c; exact absurd h.1 (by decide)).symm
  · exact hsingle _ (mem_singleEscapes.2 (.inl ht))
  · exact hsingle _ (mem_singleEscapes.2 (.inr (.inl hr)))
  · exact hsingle _ (mem_singleEscapes.2 (.inr (.inr (.inl hn))))
  · exact hsingle _ (mem_singleEscapes.2 (.inr (.inr (.inr hs))))
  · refine iff_of_false ?_ ?_
    · rintro ⟨v, h⟩
      cases h
    · rintro (⟨h, -⟩ | ⟨nHex, h, -⟩)
      · rcases mem_singleEscapes.1 h with h | h | h | h
        · exact ht h
        · exact hr h
        · exact hn h
        · exact hs h
      · cases h

/-- `parse_char` reads an escape sequence of `k` bytes. -/
def ConsumesEscape (src : List UInt8) (k : ℕ) : Prop :=
  src.head? = some '\\'.toUInt8 ∧ k ≤ src.length ∧ ∃ value, parseChar src = .ok (value, src.drop k)

theorem drop_cons_cons {c d : UInt8} {pos : List UInt8} {k n : ℕ} (hk : k ≤ pos.length + 2)
    (hn : n ≤ pos.length) : (c :: d :: pos).drop k = pos.drop n ↔ k = 2 + n := by
  constructor
  · intro h
    have hlen := congrArg List.length h
    simp only [List.length_drop, List.length_cons] at hlen
    omega
  · rintro rfl
    rw [Nat.add_comm]
    rfl

theorem consumesEscape_iff {src : List UInt8} {k : ℕ} : ConsumesEscape src k ↔ EscapeFront k src := by
  constructor
  · rintro ⟨hhead, hle, value, hchar⟩
    obtain ⟨pos, rfl⟩ : ∃ pos, src = '\\'.toUInt8 :: pos := by
      cases src with
      | nil => cases hhead
      | cons b pos => exact ⟨pos, by rw [Option.some.inj hhead]⟩
    rw [parseChar, if_pos rfl] at hchar
    cases pos with
    | nil => cases hchar
    | cons c pos =>
      refine ⟨c, pos, rfl, ?_⟩
      rcases parseEscape_iff.1 ⟨value, hchar⟩ with ⟨hc, hrest⟩ | ⟨nHex, hc, hfront, hrest⟩
      · exact .inl ⟨hexCount_single hc, hc, (drop_cons_cons hle (Nat.zero_le _)).mp hrest⟩
      · exact .inr ⟨nHex, hc, hfront, (drop_cons_cons hle hfront.1).mp hrest⟩
  · rintro ⟨c, pos, rfl, hfront⟩
    have hle : k ≤ pos.length + 2 := by
      rcases hfront with ⟨-, -, rfl⟩ | ⟨nHex, -, hfront, rfl⟩
      · exact Nat.le_add_left _ _
      · have := hfront.1
        omega
    refine ⟨rfl, hle, ?_⟩
    simp only [parseChar, if_true]
    refine parseEscape_iff.2 ?_
    rcases hfront with ⟨-, hc, rfl⟩ | ⟨nHex, hc, hfront, rfl⟩
    · exact .inl ⟨hc, rfl⟩
    · exact .inr ⟨nHex, hc, hfront, (drop_cons_cons hle hfront.1).mpr rfl⟩

theorem cString_cons {c : UInt8} (hc : c ≠ 0) (s : List UInt8) : cString (c :: s) = c :: cString s :=
  List.takeWhile_cons_of_pos (by simpa using hc)

theorem escapeFront_cString {s : List UInt8} {k : ℕ} :
    EscapeFront k (cString s) ↔ EscapeFront k s := by
  have hcons : ∀ {c : UInt8} {pos : List UInt8}, c ≠ 0 →
      cString ('\\'.toUInt8 :: c :: pos) = '\\'.toUInt8 :: c :: cString pos := by
    intro c pos hc
    rw [cString_cons (by decide), cString_cons hc]
  have hne : ∀ {c : UInt8} {k : ℕ} {pos : List UInt8},
      ((hexCount c = none ∧ c ∈ singleEscapes ∧ k = 2) ∨
        ∃ nHex, hexCount c = some nHex ∧ HexFront nHex pos ∧ k = 2 + nHex) → c ≠ 0 := by
    rintro c k pos h rfl
    rcases h with ⟨-, h, -⟩ | ⟨nHex, h, -⟩
    · exact absurd h (by decide)
    · cases h
  constructor
  · rintro ⟨c, pos', heq, hfront⟩
    obtain ⟨pos, rfl, rfl⟩ : ∃ pos, s = '\\'.toUInt8 :: c :: pos ∧ pos' = cString pos := by
      have hpre : cString s <+: s := List.takeWhile_prefix _
      rw [heq] at hpre
      obtain ⟨more, rfl⟩ := hpre
      refine ⟨pos' ++ more, rfl, ?_⟩
      rw [List.cons_append, List.cons_append, hcons (hne hfront)] at heq
      exact (List.cons.inj (List.cons.inj heq).2).2.symm
    simp only [hexFront_cString] at hfront
    exact ⟨c, pos, rfl, hfront⟩
  · rintro ⟨c, pos, rfl, hfront⟩
    refine ⟨c, cString pos, hcons (hne hfront), ?_⟩
    simp only [hexFront_cString]
    exact hfront

theorem gbnfEscapeLength_cons {pattern tail : List UInt8} {pos : ℕ} {c : UInt8}
    (h : pattern.drop pos = '\\'.toUInt8 :: c :: tail) :
    gbnfEscapeLength pattern pos =
      match hexCount c with
      | none => if c ∈ singleEscapes then 2 else 0
      | some nHex => if tail.length < nHex then 0
        else if (tail.take nHex).all isHexChar then 2 + nHex else 0 := by
  have hlen := congrArg List.length h
  rw [List.length_drop, List.length_cons, List.length_cons] at hlen
  have hat : pattern[pos]? = some '\\'.toUInt8 := by
    rw [← Nat.add_zero pos, ← List.getElem?_drop, h]
    rfl
  have hnext : pattern.getD (pos + 1) 0 = c := by
    rw [List.getD_eq_getElem?_getD, ← List.getElem?_drop, h]
    rfl
  have htail : pattern.drop (pos + 2) = tail := by
    rw [← List.drop_drop, h]
    rfl
  have hend : ∀ n, pattern.length < pos + 2 + n ↔ tail.length < n := fun n => by omega
  rw [gbnfEscapeLength, if_neg (not_or.mpr ⟨by omega, not_not.mpr hat⟩), hnext, htail]
  simp only [hend]

theorem gbnfEscapeLength_zero {pattern : List UInt8} {pos : ℕ}
    (h : ∀ c tail, pattern.drop pos ≠ '\\'.toUInt8 :: c :: tail) :
    gbnfEscapeLength pattern pos = 0 := by
  refine if_pos ?_
  by_contra hnot
  rw [not_or, not_le, not_not] at hnot
  obtain ⟨hlt, hat⟩ := hnot
  refine h pattern[pos + 1] (pattern.drop (pos + 2)) ?_
  obtain ⟨hpos, hslash⟩ := List.getElem?_eq_some_iff.mp hat
  rw [List.drop_eq_getElem_cons hpos, hslash, List.drop_eq_getElem_cons hlt]

theorem gbnfEscapeLength_eq {pattern : List UInt8} {pos k : ℕ} (hk : 0 < k) :
    gbnfEscapeLength pattern pos = k ↔ EscapeFront k (pattern.drop pos) := by
  by_cases h : ∃ c tail, pattern.drop pos = '\\'.toUInt8 :: c :: tail
  · obtain ⟨c, tail, h⟩ := h
    have hfront : EscapeFront k (pattern.drop pos) ↔
        (hexCount c = none ∧ c ∈ singleEscapes ∧ k = 2) ∨
          ∃ nHex, hexCount c = some nHex ∧ HexFront nHex tail ∧ k = 2 + nHex := by
      constructor
      · rintro ⟨c', tail', heq, hcases⟩
        obtain ⟨rfl, rfl⟩ := List.cons.inj (List.cons.inj (h.symm.trans heq)).2
        exact hcases
      · exact fun hcases => ⟨c, tail, h, hcases⟩
    rw [hfront, gbnfEscapeLength_cons h]
    cases hexCount c with
    | none =>
      simp only [true_and, reduceCtorEq, false_and, exists_false, or_false]
      split_ifs with hc
      · exact ⟨fun h => ⟨hc, h.symm⟩, fun h => h.2.symm⟩
      · exact iff_of_false hk.ne fun h => hc h.1
    | some nHex =>
      simp only [reduceCtorEq, false_and, false_or, Option.some.injEq, exists_eq_left', HexFront]
      split_ifs with hlt hall
      · exact iff_of_false hk.ne fun h => absurd h.1.1 (not_le.mpr hlt)
      · exact ⟨fun h => ⟨⟨not_lt.mp hlt, hall⟩, h.symm⟩, fun h => h.2.symm⟩
      · exact iff_of_false hk.ne fun h => hall h.1.2
  · have hnone : ∀ c tail, pattern.drop pos ≠ '\\'.toUInt8 :: c :: tail :=
      fun c tail heq => h ⟨c, tail, heq⟩
    rw [gbnfEscapeLength_zero hnone]
    exact iff_of_false hk.ne fun ⟨c, tail, heq, _⟩ => h ⟨c, tail, heq⟩

/-- The escapes that are written and measured are those that the parser reads. -/
theorem literal_escapes_agree :
    (∀ (vocab : Option (List UInt8 → Option ℕ)) (n : ℕ) (st : GbnfState) (ruleName : List UInt8)
      (isNested : Bool) (rule : List GrammarElement) (text : List Char),
      (∀ c ∈ text, c.toNat ≠ 0) → ∃ literal, formatLiteral (PartialUtf8.encode text) = some literal ∧
        parseSequence vocab (n + 2) st (cString literal) ruleName isNested rule rule.length 1 =
          .ok ([], st, rule ++ text.map fun c => ⟨.char, c.toNat⟩)) ∧
    ∀ (pattern : List UInt8) (pos k : ℕ), 0 < k →
      (gbnfEscapeLength pattern pos = k ↔ ConsumesEscape (cString (pattern.drop pos)) k) := by
  refine ⟨fun vocab n st ruleName isNested rule text h => ⟨_, formatLiteral_eq _, ?_⟩,
    fun pattern pos k hk => ?_⟩
  · rw [cString_literal h]
    exact parseSequence_literal vocab n st ruleName isNested rule text
  · rw [gbnfEscapeLength_eq hk, consumesEscape_iff, escapeFront_cString]

theorem literal_escapes_agree_quote :
    (∃ literal, formatLiteral (PartialUtf8.encode ['a', '"', 'é']) = some literal ∧
      parseSequence none 2 .empty (cString literal) [] false [] 0 1 =
        .ok ([], .empty, [⟨.char, 97⟩, ⟨.char, 34⟩, ⟨.char, 233⟩])) ∧
    (gbnfEscapeLength (bytes "-\\x4a") 1 = 4 ↔ ConsumesEscape (cString (bytes "\\x4a")) 4) :=
  ⟨literal_escapes_agree.1 none 0 .empty [] false [] ['a', '"', 'é'] (by
    simp only [List.forall_mem_cons, List.not_mem_nil, false_implies, implies_true, and_true]
    decide),
    literal_escapes_agree.2 (bytes "-\\x4a") 1 4 (by decide)⟩

end Gbnf
end RocmFpx
