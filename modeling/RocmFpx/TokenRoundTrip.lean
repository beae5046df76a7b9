import RocmFpx.EscapedText
import RocmFpx.MergeRuns

/-!
Tokenizing and back. A session ends with groups of neighbouring code points, each of one code point
or of a text that is a token, and the pieces of the tokens of the groups join to the text.
-/

namespace RocmFpx
namespace MergeTokenizer

open Unicode GreedyMerge PreTokenizer Fallible

/-! ## The table of tokens -/

section
variable {S : Type}

theorem TokenTable.of_textToToken {v : TokenTable S} {w : List UInt8} {id : ℕ}
    (h : v.textToToken w = some id) : ∃ t, v.idToToken[id]? = some t ∧ t.text = w := by
  obtain ⟨hlt, ht, -⟩ := List.findIdx?_eq_some_iff_getElem.mp h
  exact ⟨v.idToToken[id], List.getElem?_eq_getElem hlt, beq_iff_eq.mp ht⟩

theorem TokenTable.textToToken_of_mem {v : TokenTable S} {t : TokenData S}
    (ht : t ∈ v.idToToken) : ∃ id, v.textToToken t.text = some id ∧ v.idToToken[id]? = some t := by
  cases hid : v.textToToken t.text with
  | none =>
    have := List.findIdx?_eq_none_iff.mp hid t ht
    simp at this
  | some id =>
    obtain ⟨t', ht', htext⟩ := TokenTable.of_textToToken hid
    have hmem := List.mem_of_getElem? ht'
    exact ⟨id, rfl, by rw [ht', List.inj_on_of_nodup_map v.nodup hmem ht htext]⟩

end

/-! ## Groups of code points -/

/-- The words are groups of the code points `cpts`, each of one, or a text that `known` accepts. -/
def Grouped (known : List UInt8 → Prop) (cpts : List ℕ) (ws : List (List UInt8)) : Prop :=
  ∃ groups : List (List ℕ), ws = groups.map encoded ∧ groups.flatten = cpts ∧
    ∀ g ∈ groups, g ≠ [] ∧ (g.length = 1 ∨ known (encoded g))

theorem grouped_single (known : List UInt8 → Prop) (cpts : List ℕ) :
    Grouped known cpts (cpts.map utf8Bytes) := by
  refine ⟨cpts.map fun c => [c], ?_, ?_, ?_⟩
  · rw [List.map_map]
    exact List.map_congr_left fun c _ => (List.flatMap_singleton _ _).symm
  · rw [← List.flatMap_def, List.flatMap_singleton']
  · intro g hg
    obtain ⟨c, -, rfl⟩ := List.mem_map.mp hg
    exact ⟨List.cons_ne_nil _ _, .inl rfl⟩

theorem grouped_greedy {K : Type} [LinearOrder K] {key : List UInt8 → List UInt8 → Option K}
    (known : List UInt8 → Prop) (hkey : ∀ a b k, key a b = some k → known (a ++ b)) {cpts : List ℕ}
    {ws : List (List UInt8)} (h : Grouped known cpts ws) : Grouped known cpts (greedy key ws) := by
  refine greedy_induction (P := Grouped known cpts) ?_ h
  rintro ws k ws' ⟨pre, a, b, post, rfl, rfl, hab, -⟩ ⟨groups, hws, rfl, hall⟩
  obtain ⟨pre', rest, rfl, rfl, hrest⟩ := List.map_eq_append_iff.mp hws.symm
  obtain ⟨g, rest', rfl, rfl, hrest'⟩ := List.map_eq_cons_iff.mp hrest
  obtain ⟨g', post', rfl, rfl, rfl⟩ := List.map_eq_cons_iff.mp hrest'
  refine ⟨pre' ++ (g ++ g') :: post', ?_, ?_, fun x hx => ?_⟩
  · rw [List.map_append, List.map_cons, encoded_append]
  · simp
  · rw [List.mem_append, List.mem_cons] at hx
    obtain hx | rfl | hx := hx
    · exact hall x (by simp [hx])
    · refine ⟨List.append_ne_nil_of_left_ne_nil (hall g (by simp)).1 _, .inr ?_⟩
      rw [encoded_append]
      exact hkey _ _ _ hab
    · exact hall x (by simp [hx])

theorem words_symbolsFrom {cpts : List ℕ} (h : ∀ c ∈ cpts, c ≤ maxCpt) {n : ℕ}
    (hn : (encoded cpts).length ≤ n) (index : ℕ) :
    (symbolsFrom n index (encoded cpts)).map LlmSymbol.word = cpts.map utf8Bytes := by
  induction cpts generalizing n index with
  | nil => cases n <;> rfl
  | cons c cpts ih =>
    obtain ⟨hc, h⟩ := List.forall_mem_cons.mp h
    obtain ⟨b, s, hb, hlen⟩ := utf8Bytes_lenUtf8 hc
    rw [encoded_cons, List.length_append, hb, List.length_cons] at hn
    cases n with
    | zero => omega
    | succ n =>
      have hmin : min (lenUtf8 b) ((s ++ encoded cpts).length + 1) = (utf8Bytes c).length := by
        rw [hlen, hb, List.length_cons, List.length_append]
        omega
      have hdrop : (b :: (s ++ encoded cpts)).drop (utf8Bytes c).length = encoded cpts := by
        rw [← List.cons_append, ← hb, List.drop_left']
        rfl
      have htake : (b :: (s ++ encoded cpts)).take (utf8Bytes c).length = utf8Bytes c := by
        rw [← List.cons_append, ← hb, List.take_left']
        rfl
      rw [encoded_cons, hb, List.cons_append, symbolsFrom]
      simp only [hmin, hdrop, List.map_cons, LlmSymbol.word, htake]
      exact congrArg (utf8Bytes c :: ·) (ih h (by omega) (index + 1))

theorem words_symbolsOf {cpts : List ℕ} (h : ∀ c ∈ cpts, c ≤ maxCpt) :
    (symbolsOf (encoded cpts)).map LlmSymbol.word = cpts.map utf8Bytes :=
  words_symbolsFrom h le_rfl 0

/-! ## What the SPM session notes -/

section
variable {B : Type} {q : MergeQueue B} {pq : PriorityQueue B q.less} (known : List UInt8 → Prop)

theorem known_addBigram
    (hq : ∀ i j l r b, q.bigram i j l r = some b → known (l.text.take (l.n + r.n)))
    {s : Session q pq} (h : ∀ p ∈ s.revMerge, known p.1) (l r : Option ℕ) :
    ∀ p ∈ (s.addBigram l r).revMerge, known p.1 := by
  cases l with
  | none => exact h
  | some i =>
    cases r with
    | none => exact h
    | some j =>
      rw [Session.addBigram]
      split
      · next b hb => exact List.forall_mem_cons.mpr ⟨hq _ _ _ _ _ hb, h⟩
      · exact h

theorem known_rounds
    (hq : ∀ i j l r b, q.bigram i j l r = some b → known (l.text.take (l.n + r.n)))
    {s : Session q pq} (h : ∀ p ∈ s.revMerge, known p.1) (n : ℕ) :
    ∀ p ∈ (s.rounds n).revMerge, known p.1 := by
  induction n generalizing s with
  | zero => exact h
  | succ n ih =>
    rw [Session.rounds]
    cases hround : s.round with
    | none => exact h
    | some s' =>
      refine ih ?_
      rw [Session.round] at hround
      cases hpop : pq.pop s.workQueue with
      | none =>
        rw [hpop] at hround
        cases hround
      | some p =>
        rw [hpop] at hround
        dsimp only at hround
        split_ifs at hround
        · obtain rfl := Option.some.inj hround
          exact h
        · obtain rfl := Option.some.inj hround
          exact known_addBigram known hq (known_addBigram known hq (by exact h) _ _) _ _

theorem known_start
    (hq : ∀ i j l r b, q.bigram i j l r = some b → known (l.text.take (l.n + r.n)))
    (symbols : List LlmSymbol) : ∀ p ∈ (Session.start pq symbols).revMerge, known p.1 := by
  rw [Session.start]
  induction symbols.length - 1 with
  | zero =>
    intro p hp
    cases hp
  | succ m ih =>
    rw [List.range_succ, List.foldl_append]
    exact known_addBigram known hq ih (some m) (some (m + 1))

end

/-! ## Pieces and the buffer -/

section
variable {S : Type} {v : Vocab S} {special : Bool}

/-- The pieces of tokens. -/
def HasPieces (v : Vocab S) (special : Bool) : List ℕ → List (List UInt8) → Prop :=
  List.Forall₂ fun id piece => ∃ t, v.idToToken[id]? = some t ∧ pieceText v t special = .ok piece

theorem skipSpaces_zero (piece : List UInt8) : skipSpaces 0 piece = piece := by
  rw [skipSpaces, Nat.zero_min, List.drop_zero]

theorem skipSpaces_space (lstrip : ℕ) (piece : List UInt8) :
    skipSpaces (lstrip + 1) (0x20 :: piece) = skipSpaces lstrip piece := by
  rw [skipSpaces, skipSpaces, List.takeWhile_cons_of_pos (by rfl), List.length_cons,
    Nat.add_min_add_right, List.drop_succ_cons]

theorem skipSpaces_of_ne {lstrip : ℕ} {piece : List UInt8} (h : piece.head? ≠ some 0x20) :
    skipSpaces lstrip piece = piece := by
  cases piece with
  | nil => exact List.drop_nil
  | cons b piece =>
    have hb : ¬ (b == 0x20) = true := fun he => h (congrArg some (beq_iff_eq.mp he))
    rw [skipSpaces, List.takeWhile_cons_of_neg (p := (· == 0x20)) hb, List.length_nil, Nat.min_zero, List.drop_zero]

/-- The text that pieces are copied to. -/
def copied (lstrip : ℕ) : List (List UInt8) → List UInt8
  | [] => []
  | piece :: pieces => skipSpaces lstrip piece ++ pieces.flatten

theorem copied_zero (pieces : List (List UInt8)) : copied 0 pieces = pieces.flatten := by
  cases pieces with
  | nil => rfl
  | cons piece pieces => rw [copied, skipSpaces_zero, List.flatten_cons]

theorem detokenizeFrom_pieces {tokens : List ℕ} {pieces : List (List UInt8)}
    (h : HasPieces v special tokens pieces) {lstrip avail : ℕ}
    (hfits : (copied lstrip pieces).length ≤ avail) (total : ℕ) (text : List UInt8) :
    detokenizeFrom v special lstrip tokens avail total text =
      .ok (total + (copied lstrip pieces).length, text ++ copied lstrip pieces) := by
  induction h generalizing lstrip avail total text with
  | nil => rw [detokenizeFrom, copied, List.length_nil, Nat.add_zero, List.append_nil]
  | @cons id piece tokens pieces hp _ ih =>
    obtain ⟨t, ht, hpiece⟩ := hp
    rw [copied, List.length_append] at hfits
    rw [detokenizeFrom, ht]
    dsimp only
    rw [hpiece, ok_bind, if_neg (by omega), ih (by rw [copied_zero]; omega), copied_zero, copied,
      List.length_append, List.append_assoc, Nat.add_assoc]

theorem detokenize_pieces {tokens : List ℕ} {pieces : List (List UInt8)}
    (h : HasPieces v special tokens pieces) {textLenMax : ℕ} {text : List UInt8}
    (htext : copied (if v.addSpacePrefix then 1 else 0) pieces = text)
    (hfits : text.length ≤ textLenMax) :
    detokenize v tokens textLenMax false special = .ok text := by
  rw [detokenize]
  simp only [Bool.false_and, Bool.false_eq_true, if_false, Bool.not_false, Bool.and_true]
  rw [detokenizeFrom_pieces h (htext ▸ hfits), ok_bind, htext, Nat.zero_add, List.nil_append]
  exact if_neg (by omega)

/-! ## Kinds of tokens -/

/-- A token of kind normal and no other that matters. -/
def Plain (t : TokenData S) : Prop := t.attr.normal = true ∧ t.attr.isSpecial = false

def IsByteToken (t : TokenData S) : Prop :=
  t.attr.byte = true ∧ t.attr.normal = false ∧ t.attr.isSpecial = false

/-- All tokens whose text occurs in `text` are plain. -/
def OnlyPlain (v : TokenTable S) (text : List UInt8) : Prop :=
  ∀ t ∈ v.idToToken, t.text <:+: text → Plain t

theorem not_hidden {t : TokenData S} (h : t.attr.isSpecial = false) :
    (!special && (t.attr.unknown || t.attr.control)) = false := by
  rw [TokenAttr.isSpecial, Bool.or_eq_false_iff, Bool.or_eq_false_iff] at h
  obtain ⟨⟨hcontrol, -⟩, hunknown⟩ := h
  rw [hcontrol, hunknown, Bool.or_self, Bool.and_false]

theorem pieceText_plain {t : TokenData S} (h : Plain t) : pieceText v t special =
    match v.type with
    | .spm => .ok (llamaUnescapeWhitespace t.text)
    | .bpe =>
      if v.escapeWhitespaces then .ok (llamaUnescapeWhitespace t.text)
      else llamaDecodeText t.text := by
  rw [pieceText, not_hidden h.2, h.1, h.2]
  rfl

theorem tokenToByte_byteText {t : TokenData S} {ch : UInt8} (h : t.text = byteText ch) :
    tokenToByte t = .ok ch := by
  have hall : ∀ n < 256, (byteText (.ofNat n)).length = 6 ∧
      ((strtol16 (((byteText (.ofNat n)).drop 3).take 2)) % 256).toNat = n := by decide +kernel
  obtain ⟨hlen, hvalue⟩ := hall ch.toNat ch.toNat_lt
  rw [UInt8.ofNat_toNat] at hlen hvalue
  rw [tokenToByte, h, hlen, if_neg (by decide), hvalue, UInt8.ofNat_toNat]

theorem pieceText_byte {t : TokenData S} (h : IsByteToken t) {ch : UInt8}
    (htext : t.text = byteText ch) : pieceText v t special = .ok [ch] := by
  obtain ⟨hbyte, hnormal, hspecial⟩ := h
  rw [pieceText, not_hidden hspecial, hspecial, hnormal, hbyte, tokenToByte_byteText htext]
  rfl

/-! ## Cutting out nothing -/

theorem findText_none {search text : List UInt8} (h : ¬ search <:+: text) :
    findText search text = none := by
  induction text with
  | nil =>
    have hne : search ≠ [] := fun he => h (he ▸ List.infix_rfl)
    rw [findText, if_neg (by simpa using hne)]
  | cons c text ih =>
    have hno : ¬ search.isPrefixOf (c :: text) = true := fun he =>
      h (List.isPrefixOf_iff_prefix.mp he).isInfix
    rw [findText, if_neg hno, ih fun he => h (he.trans (List.suffix_cons c text).isInfix)]
    rfl

theorem cutSpecial_none {id : ℕ} {data : TokenData S} {text : List UInt8}
    (h : ¬ data.text <:+: text) (n : ℕ) : cutSpecial id data n text = rawFragment text := by
  cases n with
  | zero => rfl
  | succ n => rw [cutSpecial, findText_none h]

theorem partitionBy_raw {text : List UInt8} {id : ℕ}
    (h : ∀ t, v.idToToken[id]? = some t → ¬ t.text <:+: text) (parseSpecial : Bool) :
    partitionBy v parseSpecial (rawFragment text) id = rawFragment text := by
  rw [partitionBy]
  cases ht : v.idToToken[id]? with
  | none => rfl
  | some data =>
    dsimp only
    split_ifs
    · rfl
    · rw [rawFragment]
      split_ifs with hempty
      · rfl
      · rw [List.flatMap_singleton]
        exact (cutSpecial_none (h data ht) _).trans (if_neg hempty)

/-- A text without the text of a special token is one fragment. -/
theorem tokenizerStPartition_raw {text : List UInt8}
    (h : ∀ t ∈ v.idToToken, t.attr.isSpecial = true → ¬ t.text <:+: text) (parseSpecial : Bool) :
    tokenizerStPartition v parseSpecial (rawFragment text) = rawFragment text := by
  have hspecial : ∀ id ∈ v.cacheSpecialTokens, ∀ t, v.idToToken[id]? = some t →
      ¬ t.text <:+: text := by
    intro id hid t ht
    obtain ⟨t', ht', hkind⟩ := (v.special_iff id).mp hid
    obtain rfl := Option.some.inj (ht.symm.trans ht')
    exact h t (List.mem_of_getElem? ht) hkind
  rw [tokenizerStPartition]
  generalize v.cacheSpecialTokens = ids at hspecial
  induction ids with
  | nil => rfl
  | cons id ids ih =>
    obtain ⟨hid, hids⟩ := List.forall_mem_cons.mp hspecial
    rw [List.foldl_cons, partitionBy_raw hid]
    exact ih hids

end

end MergeTokenizer
end RocmFpx
