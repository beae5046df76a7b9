import Mathlib.Algebra.Ring.Nat
import Mathlib.Order.Basic
import RocmFpx.NaiveTrie

/-!
The RWKV tokenizer (`llm_tokenizer_rwkv_session::tokenize`): at each byte the trie of the token
texts is walked for the longest token. A walk that meets no token gives the length 0 as the next
position, and the loop begins again at the front of the text.
-/

namespace RocmFpx
namespace RwkvTokenizer

open NaiveTrie (Begins LongestKey exists_longestKey)

/-! ## The vocabulary -/

structure UnescapeState where
  output : List UInt8 := []
  escaping : Bool := false
  hexRemaining : ℕ := 0
  hexAcc : UInt8 := 0

/-- A hexadecimal digit, as a difference of signed characters. -/
def hexDigit (c : UInt8) : UInt8 := if 97 ≤ c ∧ c < 128 then c - 97 + 10 else c - 48

def unescapeStep (s : UnescapeState) (c : UInt8) : UnescapeState :=
  if s.hexRemaining ≠ 0 then
    let acc := (s.hexAcc <<< 4) + hexDigit c
    if s.hexRemaining = 1 then
      { s with output := s.output ++ [acc], hexRemaining := 0, hexAcc := 0 }
    else { s with hexRemaining := s.hexRemaining - 1, hexAcc := acc }
  else if s.escaping then
    if c = 116 then { s with output := s.output ++ [9], escaping := false }
    else if c = 110 then { s with output := s.output ++ [10], escaping := false }
    else if c = 114 then { s with output := s.output ++ [13], escaping := false }
    else if c = 120 then { s with hexRemaining := 2, escaping := false }
    else { s with output := s.output ++ [c], escaping := false }
  else if c = 92 then { s with escaping := true }
  else { s with output := s.output ++ [c] }

/-- `llama_unescape_rwkv_token` -/
def unescape (escaped : List UInt8) : List UInt8 := (escaped.foldl unescapeStep {}).output

structure RwkvVocab where
  tokens : List (List UInt8)
  tokenUnk : ℤ

namespace RwkvVocab

variable (vocab : RwkvVocab)

def texts : List (List UInt8) := vocab.tokens.map unescape

def entries : List (List UInt8 × ℤ) := vocab.texts.zipIdx.map fun p => (p.1, (p.2 : ℤ))

def tokenMatcher : NaiveTrie ℤ := .insertAll vocab.entries .empty

end RwkvVocab

/-! ## The loops -/

section

variable (vocab : RwkvVocab) (text : List UInt8)

/-- `position + 1`, an `uint32_t`. -/
def succ (position : ℕ) : ℕ := (position + 1) % 2 ^ 32

/-- `token_id` and `token_length` behind a node. -/
def note (node : NaiveTrie ℤ) (position : ℕ) (best : ℤ × ℕ) : ℤ × ℕ :=
  match node.value with
  | some id => (id, succ position)
  | none => best

/-- The walk down the trie. There is no result when the fuel does not suffice. -/
def walk : ℕ → NaiveTrie ℤ → ℕ → ℤ × ℕ → Option (ℤ × ℕ)
  | 0, _, _, _ => none
  | fuel + 1, node, position, best =>
    if text.length ≤ succ position then some (note node position best)
    else
      match text[succ position]?.bind node.traverse with
      | none => some (note node position best)
      | some next => walk fuel next (succ position) (note node position best)

def tokenizeFrom : ℕ → ℕ → List ℤ → Option (List ℤ)
  | 0, _, _ => none
  | fuel + 1, position, output =>
    if position < text.length then
      match text[position]?.bind vocab.tokenMatcher.traverse with
      | none => tokenizeFrom fuel (succ position) (output ++ [vocab.tokenUnk])
      | some node =>
        match walk text fuel node position (0, 0) with
        | none => none
        | some best => tokenizeFrom fuel best.2 (output ++ [best.1])
    else some output

/-- What stands in the output after `tokenize`, if its loop ends in the fuel. -/
def tokenize (fuel : ℕ) (output : List ℤ) : Option (List ℤ) := tokenizeFrom vocab text fuel 0 output

end

/-! ## Greedy segmentations -/

section

variable (texts : List (List UInt8))

/-- The greedy segmentation of the bytes, with the tokens of its pieces. -/
inductive Greedy (unk : ℤ) : List UInt8 → List ℤ → Prop
  | nil : Greedy unk [] []
  | token {key rest : List UInt8} {id : ℕ} {ids : List ℤ} (hid : texts[id]? = some key)
    (hkey : LongestKey texts (key ++ rest) key) (hrest : Greedy unk rest ids) :
    Greedy unk (key ++ rest) (id :: ids)
  | unknown {c : UInt8} {rest : List UInt8} {ids : List ℤ}
    (hnone : ∀ key, ¬ Begins texts (c :: rest) key) (hrest : Greedy unk rest ids) :
    Greedy unk (c :: rest) (unk :: ids)

/-- At every piece of the greedy segmentation a token is there, or no token even begins so. -/
inductive Covered : List UInt8 → Prop
  | nil : Covered []
  | token {key rest : List UInt8} (hkey : LongestKey texts (key ++ rest) key)
    (hrest : Covered rest) : Covered (key ++ rest)
  | unknown {c : UInt8} {rest : List UInt8} (hnone : ∀ key ∈ texts, key.head? ≠ some c)
    (hrest : Covered rest) : Covered (c :: rest)

end

/-! ## The matcher -/

section

variable {vocab : RwkvVocab} {key p : List UInt8} {id : ℤ}

theorem mem_entries {e : List UInt8 × ℤ} :
    e ∈ vocab.entries ↔ ∃ i : ℕ, vocab.texts[i]? = some e.1 ∧ e.2 = i := by
  rw [RwkvVocab.entries, List.mem_map]
  constructor
  · rintro ⟨⟨text, i⟩, hmem, rfl⟩
    exact ⟨i, List.mk_mem_zipIdx_iff_getElem?.mp hmem, rfl⟩
  · rintro ⟨i, hi, he⟩
    exact ⟨(e.1, i), List.mk_mem_zipIdx_iff_getElem?.mpr hi, by rw [← he]⟩

theorem find_tokenMatcher (h : vocab.tokenMatcher.find key = some id) :
    ∃ i : ℕ, vocab.texts[i]? = some key ∧ id = i := by
  rcases NaiveTrie.mem_of_find_insertAll h with hmem | hempty
  · exact mem_entries.1 hmem
  · rw [NaiveTrie.find_empty] at hempty
    exact nomatch hempty

theorem find_ne_none (h : key ∈ vocab.texts) : vocab.tokenMatcher.find key ≠ none := by
  obtain ⟨i, hi⟩ := List.getElem?_of_mem h
  have hmem : (key, (i : ℤ)) ∈ vocab.entries := mem_entries.2 ⟨i, hi, rfl⟩
  have hsome := (NaiveTrie.isSome_find_insertAll (t := .empty)).mpr (.inl ⟨_, hmem, rfl⟩)
  exact Option.isSome_iff_ne_none.mp hsome

/-- The trie goes on with the byte where a token begins with it. -/
theorem traverse_isSome {c : UInt8} :
    (vocab.tokenMatcher.traverse c).isSome ↔ ∃ key ∈ vocab.texts, key.head? = some c := by
  rw [← NaiveTrie.descend_singleton, RwkvVocab.tokenMatcher, NaiveTrie.isSome_descend_insertAll,
    NaiveTrie.descend_empty (List.cons_ne_nil c [])]
  constructor
  · rintro (⟨e, he, r, hr⟩ | hnone)
    · obtain ⟨i, hi, -⟩ := mem_entries.1 he
      exact ⟨e.1, List.mem_of_getElem? hi, by rw [← hr]; rfl⟩
    · exact nomatch hnone
  · rintro ⟨key, hmem, hhead⟩
    obtain ⟨i, hi⟩ := List.getElem?_of_mem hmem
    obtain ⟨r, rfl⟩ := List.head?_eq_some_iff.mp hhead
    exact .inl ⟨(c :: r, (i : ℤ)), mem_entries.2 ⟨i, hi, rfl⟩, r, rfl⟩

end

/-! ## The walk -/

/-- The best of the first `n` prefixes of the bytes: the longest key among them, if there is one. -/
def Best (t : NaiveTrie ℤ) (bytes : List UInt8) (start n : ℕ) (best : ℤ × ℕ) : Prop :=
  (best = (0, 0) ∧ ∀ k, 0 < k → k ≤ n → t.find (bytes.take k) = none) ∨
    ∃ k, 0 < k ∧ k ≤ n ∧ t.find (bytes.take k) = some best.1 ∧ best.2 = start + k ∧
      ∀ k', k < k' → k' ≤ n → t.find (bytes.take k') = none

section

variable {t node : NaiveTrie ℤ} {bytes text : List UInt8} {start n : ℕ} {best : ℤ × ℕ}

theorem best_zero (t : NaiveTrie ℤ) (bytes : List UInt8) (start : ℕ) : Best t bytes start 0 (0, 0) :=
  .inl ⟨rfl, fun _ hpos hle => absurd hpos (Nat.not_lt.mpr hle)⟩

theorem Best.extend {m : ℕ} (h : Best t bytes start n best) (hnm : n ≤ m)
    (hnone : ∀ k, n < k → k ≤ m → t.find (bytes.take k) = none) : Best t bytes start m best := by
  rcases h with ⟨hzero, hall⟩ | ⟨k, hpos, hle, hfind, hlen, hall⟩
  · refine .inl ⟨hzero, fun k hpos hle => ?_⟩
    exact (Nat.lt_or_ge n k).elim (fun hlt => hnone k hlt hle) (hall k hpos)
  · refine .inr ⟨k, hpos, Nat.le_trans hle hnm, hfind, hlen, fun k' hlt hle' => ?_⟩
    exact (Nat.lt_or_ge n k').elim (fun hlt' => hnone k' hlt' hle') (hall k' hlt)

theorem Best.note (h : Best t bytes start n best) (hnode : t.descend (bytes.take (n + 1)) = some node)
    (hsmall : start + n + 1 < 2 ^ 32) :
    Best t bytes start (n + 1) (RwkvTokenizer.note node (start + n) best) := by
  have hfind : t.find (bytes.take (n + 1)) = node.value := by
    rw [NaiveTrie.find_eq, hnode, Option.bind_some]
  rw [RwkvTokenizer.note]
  cases hvalue : node.value with
  | some id =>
    rw [hvalue] at hfind
    refine .inr ⟨n + 1, Nat.succ_pos n, le_rfl, hfind, Nat.mod_eq_of_lt hsmall, fun k' hlt hle => ?_⟩
    exact absurd hlt (Nat.not_lt.mpr hle)
  | none =>
    rw [hvalue] at hfind
    refine h.extend (Nat.le_succ n) fun k hlt hle => ?_
    rwa [Nat.le_antisymm hle hlt]

theorem Best.stop (h : Best t bytes start n best) (hle : n ≤ bytes.length)
    (hnone : t.descend (bytes.take (n + 1)) = none) : Best t bytes start bytes.length best := by
  refine h.extend hle fun k hlt _ => NaiveTrie.find_none_of_descend ?_ hnone
  exact List.take_prefix_take_left hlt

theorem walk_best (hsmall : text.length < 2 ^ 32) {fuel : ℕ} {r : ℤ × ℕ}
    (hnode : t.descend ((text.drop start).take (n + 1)) = some node) (hlt : start + n < text.length)
    (hbest : Best t (text.drop start) start n best)
    (h : walk text fuel node (start + n) best = some r) :
    Best t (text.drop start) start (text.drop start).length r := by
  induction fuel generalizing n node best with
  | zero => exact nomatch h
  | succ fuel ih =>
    have hsucc : succ (start + n) = start + (n + 1) := Nat.mod_eq_of_lt (by omega)
    have hlen : (text.drop start).length = text.length - start := List.length_drop
    have hnote := hbest.note hnode (by omega)
    rw [walk, hsucc] at h
    split_ifs at h with hend
    · obtain rfl := Option.some.inj h
      have hlast : (text.drop start).length = n + 1 := by omega
      rwa [hlast]
    · have hin : n + 1 < (text.drop start).length := by omega
      have hbyte : text[start + (n + 1)]? = (text.drop start)[n + 1]? := List.getElem?_drop.symm
      have htake : (text.drop start).take (n + 1 + 1) =
          (text.drop start).take (n + 1) ++ [(text.drop start)[n + 1]] := List.take_succ_eq_append_getElem hin
      have hdescend : t.descend ((text.drop start).take (n + 1 + 1)) =
          node.traverse (text.drop start)[n + 1] := by
        rw [htake, NaiveTrie.descend_append, hnode, Option.bind_some, NaiveTrie.descend_singleton]
      rw [hbyte, List.getElem?_eq_getElem hin, Option.bind_some] at h
      cases hnext : node.traverse (text.drop start)[n + 1] with
      | none =>
        rw [hnext] at h hdescend
        obtain rfl := Option.some.inj h
        exact hnote.stop hin.le hdescend
      | some next =>
        rw [hnext] at h hdescend
        exact ih hdescend (by omega) hnote h

theorem walk_ends (hsmall : text.length < 2 ^ 32) {fuel position : ℕ} (node : NaiveTrie ℤ)
    (best : ℤ × ℕ) (hlt : position < text.length) (hfuel : text.length ≤ fuel + position) :
    ∃ r, walk text fuel node position best = some r := by
  induction fuel generalizing node position best with
  | zero => omega
  | succ fuel ih =>
    have hsucc : succ position = position + 1 := Nat.mod_eq_of_lt (by omega)
    rw [walk, hsucc]
    split_ifs with hend
    · exact ⟨_, rfl⟩
    · cases text[position + 1]?.bind node.traverse with
      | none => exact ⟨_, rfl⟩
      | some next => exact ih next _ (Nat.lt_of_not_le hend) (by omega)

end

/-! ## The loop over the text -/

section

variable {vocab : RwkvVocab} {text pre rest : List UInt8} {node : NaiveTrie ℤ} {fuel : ℕ} {c : UInt8}
  {output : List ℤ}

theorem walk_cases (hsmall : (pre ++ c :: rest).length < 2 ^ 32)
    (hnode : vocab.tokenMatcher.traverse c = some node) {r : ℤ × ℕ}
    (h : walk (pre ++ c :: rest) fuel node pre.length (0, 0) = some r) :
    (r = (0, 0) ∧ ∀ key, ¬ Begins vocab.texts (c :: rest) key) ∨
      ∃ (i : ℕ) (key : List UInt8), vocab.texts[i]? = some key ∧
        LongestKey vocab.texts (c :: rest) key ∧ r = ((i : ℤ), pre.length + key.length) := by
  have hdrop : (pre ++ c :: rest).drop pre.length = c :: rest := List.drop_left
  have hfirst : vocab.tokenMatcher.descend ((c :: rest).take (0 + 1)) = some node := by
    rw [← hnode, ← NaiveTrie.descend_singleton]
    rfl
  have hlt : pre.length + 0 < (pre ++ c :: rest).length := by
    rw [List.length_append, List.length_cons]
    omega
  have hbest := walk_best hsmall (hdrop ▸ hfirst) hlt (best_zero _ _ _) h
  rw [hdrop] at hbest
  have hkey : ∀ key, Begins vocab.texts (c :: rest) key →
      vocab.tokenMatcher.find ((c :: rest).take key.length) ≠ none := fun key hkey =>
    List.prefix_iff_eq_take.mp hkey.isPrefix ▸ find_ne_none hkey.mem
  rcases hbest with ⟨hzero, hall⟩ | ⟨k, hpos, hle, hfind, hlen, hall⟩
  · refine .inl ⟨hzero, fun key hbegins => hkey key hbegins ?_⟩
    exact hall key.length (List.length_pos_iff.mpr hbegins.ne_nil) hbegins.isPrefix.length_le
  · obtain ⟨i, hi, hid⟩ := find_tokenMatcher hfind
    have htake : ((c :: rest).take k).length = k := List.length_take_of_le hle
    refine .inr ⟨i, (c :: rest).take k, hi, ⟨⟨?_, List.mem_of_getElem? hi, List.take_prefix k _⟩, ?_⟩, ?_⟩
    · exact List.length_pos_iff.mp (htake.symm ▸ hpos)
    · intro key hbegins
      rw [htake]
      by_contra hlonger
      exact hkey key hbegins (hall key.length (Nat.lt_of_not_le hlonger) hbegins.isPrefix.length_le)
    · rw [htake, ← hid, ← hlen]

theorem tokenizeFrom_unknown (hsmall : (pre ++ c :: rest).length < 2 ^ 32)
    (hnode : vocab.tokenMatcher.traverse c = none) (fuel : ℕ) (output : List ℤ) :
    tokenizeFrom vocab (pre ++ c :: rest) (fuel + 1) pre.length output =
      tokenizeFrom vocab (pre ++ c :: rest) fuel (pre.length + 1) (output ++ [vocab.tokenUnk]) := by
  have hlen : (pre ++ c :: rest).length = pre.length + (rest.length + 1) := List.length_append
  have hsucc : succ pre.length = pre.length + 1 := Nat.mod_eq_of_lt (by omega)
  rw [tokenizeFrom, if_pos (by omega), List.getElem?_append_right le_rfl, Nat.sub_self,
    List.getElem?_cons_zero, Option.bind_some, hnode, hsucc]

theorem tokenizeFrom_walk (hnode : vocab.tokenMatcher.traverse c = some node) (fuel : ℕ)
    (output : List ℤ) :
    tokenizeFrom vocab (pre ++ c :: rest) (fuel + 1) pre.length output =
      (walk (pre ++ c :: rest) fuel node pre.length (0, 0)).bind fun best =>
        tokenizeFrom vocab (pre ++ c :: rest) fuel best.2 (output ++ [best.1]) := by
  have hlen : (pre ++ c :: rest).length = pre.length + (rest.length + 1) := List.length_append
  rw [tokenizeFrom, if_pos (by omega), List.getElem?_append_right le_rfl, Nat.sub_self,
    List.getElem?_cons_zero, Option.bind_some, hnode]
  dsimp only
  cases walk (pre ++ c :: rest) fuel node pre.length (0, 0) <;> rfl

theorem tokenizeFrom_token {key : List UInt8} (hsmall : (pre ++ c :: rest).length < 2 ^ 32)
    (hkey : LongestKey vocab.texts (c :: rest) key) (fuel : ℕ) (output : List ℤ) :
    fuel < (c :: rest).length ∧
        tokenizeFrom vocab (pre ++ c :: rest) (fuel + 1) pre.length output = none ∨
      ∃ i : ℕ, vocab.texts[i]? = some key ∧
        tokenizeFrom vocab (pre ++ c :: rest) (fuel + 1) pre.length output =
          tokenizeFrom vocab (pre ++ c :: rest) fuel (pre.length + key.length)
            (output ++ [(i : ℤ)]) := by
  have hhead : key.head? = some c := by
    obtain ⟨tail, htail⟩ := hkey.isPrefix
    cases key with
    | nil => exact absurd rfl hkey.ne_nil
    | cons d key => rw [List.head?_cons, (List.cons.inj htail).1]
  obtain ⟨node, hnode⟩ := Option.isSome_iff_exists.mp (traverse_isSome.2 ⟨key, hkey.mem, hhead⟩)
  have hlen : (pre ++ c :: rest).length = (c :: rest).length + pre.length := by
    rw [List.length_append, Nat.add_comm]
  have hcons : (c :: rest).length = rest.length + 1 := rfl
  rw [tokenizeFrom_walk hnode]
  cases hwalk : walk (pre ++ c :: rest) fuel node pre.length (0, 0) with
  | none =>
    refine .inl ⟨Nat.lt_of_not_le fun hle => ?_, rfl⟩
    have hlt : pre.length < (pre ++ c :: rest).length := by omega
    obtain ⟨r, hr⟩ := walk_ends hsmall node (0, 0) hlt (hlen ▸ Nat.add_le_add_right hle pre.length)
    rw [hwalk] at hr
    exact nomatch hr
  | some r =>
    rcases walk_cases hsmall hnode hwalk with ⟨-, hnone⟩ | ⟨i, key', hi, hkey', rfl⟩
    · exact absurd hkey.toBegins (hnone key)
    · rw [hkey.eq hkey']
      exact .inr ⟨i, hi, rfl⟩

theorem tokenizeFrom_stuck (hsmall : (pre ++ c :: rest).length < 2 ^ 32)
    (hnode : vocab.tokenMatcher.traverse c = some node)
    (hnone : ∀ key, ¬ Begins vocab.texts (c :: rest) key) (fuel : ℕ) (output : List ℤ) :
    tokenizeFrom vocab (pre ++ c :: rest) (fuel + 1) pre.length output = none ∨
      tokenizeFrom vocab (pre ++ c :: rest) (fuel + 1) pre.length output =
        tokenizeFrom vocab (pre ++ c :: rest) fuel 0 (output ++ [0]) := by
  rw [tokenizeFrom_walk hnode]
  cases hwalk : walk (pre ++ c :: rest) fuel node pre.length (0, 0) with
  | none => exact .inl rfl
  | some r =>
    rcases walk_cases hsmall hnode hwalk with ⟨rfl, -⟩ | ⟨-, key, -, hkey, -⟩
    · exact .inr rfl
    · exact absurd hkey.toBegins (hnone key)

theorem note_small {best : ℤ × ℕ} (h : best.2 < 2 ^ 32) (node : NaiveTrie ℤ) (position : ℕ) :
    (note node position best).2 < 2 ^ 32 := by
  rw [note]
  cases node.value with
  | some id => exact Nat.mod_lt _ (Nat.two_pow_pos 32)
  | none => exact h

theorem walk_small {position : ℕ} {best r : ℤ × ℕ} (hbest : best.2 < 2 ^ 32)
    (h : walk text fuel node position best = some r) : r.2 < 2 ^ 32 := by
  induction fuel generalizing node position best with
  | zero => exact nomatch h
  | succ fuel ih =>
    have hnote := note_small hbest node position
    rw [walk] at h
    split_ifs at h
    · exact Option.some.inj h ▸ hnote
    · cases hnext : text[succ position]?.bind node.traverse with
      | none =>
        rw [hnext] at h
        exact Option.some.inj h ▸ hnote
      | some next =>
        rw [hnext] at h
        exact ih hnote h

theorem tokenizeFrom_large (hlarge : 2 ^ 32 ≤ text.length) {position : ℕ}
    (hposition : position < 2 ^ 32) : tokenizeFrom vocab text fuel position output = none := by
  induction fuel generalizing position output with
  | zero => rfl
  | succ fuel ih =>
    rw [tokenizeFrom, if_pos (Nat.lt_of_lt_of_le hposition hlarge)]
    cases text[position]?.bind vocab.tokenMatcher.traverse with
    | none => exact ih (Nat.mod_lt _ (Nat.two_pow_pos 32))
    | some node =>
      dsimp only
      cases hwalk : walk text fuel node position (0, 0) with
      | none => rfl
      | some r => exact ih (walk_small (Nat.two_pow_pos 32) hwalk)

/-- From here the loop comes back to the front of the text, if it does not run out of fuel. -/
def Returns (vocab : RwkvVocab) (text : List UInt8) (position : ℕ) : Prop :=
  ∀ fuel, (∀ f < fuel, ∀ output, tokenizeFrom vocab text f 0 output = none) →
    ∀ output, tokenizeFrom vocab text fuel position output = none

theorem Returns.step {position : ℕ} (h : ∀ fuel output,
    tokenizeFrom vocab text (fuel + 1) position output = none ∨ ∃ next output',
      tokenizeFrom vocab text (fuel + 1) position output = tokenizeFrom vocab text fuel next output' ∧
        (next = 0 ∨ Returns vocab text next)) : Returns vocab text position := by
  intro fuel hfront output
  cases fuel with
  | zero => rfl
  | succ fuel =>
    obtain hnone | ⟨next, output', heq, rfl | hnext⟩ := h fuel output
    · exact hnone
    · exact heq.trans (hfront fuel (Nat.lt_succ_self fuel) output')
    · exact heq.trans (hnext fuel (fun f hf => hfront f (Nat.lt_succ_of_lt hf)) output')

theorem Returns.never (h : Returns vocab text 0) (fuel : ℕ) (output : List ℤ) :
    tokenizeFrom vocab text fuel 0 output = none := by
  induction fuel using Nat.strong_induction_on generalizing output with
  | _ fuel ih => exact h fuel ih output

theorem covered_or_returns (hsmall : text.length < 2 ^ 32) (rest pre : List UInt8)
    (htext : text = pre ++ rest) : Covered vocab.texts rest ∨ Returns vocab text pre.length := by
  induction hn : rest.length using Nat.strong_induction_on generalizing rest pre with
  | _ n ih =>
    cases rest with
    | nil => exact .inl .nil
    | cons c rest =>
      subst htext
      cases hnode : vocab.tokenMatcher.traverse c with
      | none =>
        have hnone : ∀ key ∈ vocab.texts, key.head? ≠ some c := fun key hkey hhead =>
          Option.isSome_iff_ne_none.mp (traverse_isSome.2 ⟨key, hkey, hhead⟩) hnode
        have hsplit : pre ++ c :: rest = pre ++ [c] ++ rest := by rw [List.append_assoc]; rfl
        rcases ih rest.length (hn ▸ Nat.lt_succ_self _) rest (pre ++ [c]) hsplit rfl with hcov | hret
        · exact .inl (.unknown hnone hcov)
        · rw [List.length_append, List.length_singleton] at hret
          refine .inr (.step fun fuel output => ?_)
          exact .inr ⟨_, _, tokenizeFrom_unknown hsmall hnode fuel output, .inr hret⟩
      | some node =>
        by_cases hex : ∃ key, LongestKey vocab.texts (c :: rest) key
        · obtain ⟨key, hkey⟩ := hex
          obtain ⟨tail, htail⟩ := hkey.isPrefix
          have hpos := List.length_pos_iff.mpr hkey.ne_nil
          have hlen := congrArg List.length htail
          rw [List.length_append] at hlen
          have hsplit : pre ++ c :: rest = pre ++ key ++ tail := by rw [List.append_assoc, htail]
          rcases ih tail.length (by omega) tail (pre ++ key) hsplit rfl with hcov | hret
          · rw [← htail] at hkey ⊢
            exact .inl (.token hkey hcov)
          · rw [List.length_append] at hret
            refine .inr (.step fun fuel output => ?_)
            obtain ⟨-, hend⟩ | ⟨i, -, hnext⟩ := tokenizeFrom_token hsmall hkey fuel output
            · exact .inl hend
            · exact .inr ⟨_, _, hnext, .inr hret⟩
        · have hnone : ∀ key, ¬ Begins vocab.texts (c :: rest) key := fun key hkey =>
            hex (exists_longestKey hkey)
          refine .inr (.step fun fuel output => ?_)
          rcases tokenizeFrom_stuck hsmall hnode hnone fuel output with hend | hnext
          · exact .inl hend
          · exact .inr ⟨_, _, hnext, .inl rfl⟩

theorem Covered.tokenizeFrom (h : Covered vocab.texts rest) (pre : List UInt8)
    (hsmall : (pre ++ rest).length < 2 ^ 32) :
    ∀ fuel, rest.length < fuel → ∀ output, ∃ ids, Greedy vocab.texts vocab.tokenUnk rest ids ∧
      RwkvTokenizer.tokenizeFrom vocab (pre ++ rest) fuel pre.length output = some (output ++ ids) := by
  induction h generalizing pre with
  | nil =>
    intro fuel hfuel output
    refine ⟨[], .nil, ?_⟩
    cases fuel with
    | zero => exact absurd hfuel (Nat.not_lt_zero _)
    | succ fuel =>
      rw [RwkvTokenizer.tokenizeFrom, List.append_nil, if_neg (Nat.lt_irrefl _), List.append_nil]
  | @token key rest hkey hrest ih =>
    intro fuel hfuel output
    obtain ⟨c, key, rfl⟩ := List.exists_cons_of_ne_nil hkey.ne_nil
    cases fuel with
    | zero => exact absurd hfuel (Nat.not_lt_zero _)
    | succ fuel =>
      have hsplit : pre ++ (c :: key ++ rest) = pre ++ (c :: key) ++ rest :=
        (List.append_assoc _ _ _).symm
      have hlen : (c :: key ++ rest).length = key.length + 1 + rest.length := List.length_append
      obtain ⟨hshort, -⟩ | ⟨i, hi, hnext⟩ := tokenizeFrom_token hsmall hkey fuel output
      · exact absurd hshort (Nat.not_lt.mpr (Nat.lt_succ_iff.mp hfuel))
      · obtain ⟨ids, hids, hrun⟩ := ih (pre ++ (c :: key)) (hsplit ▸ hsmall) fuel (by omega)
          (output ++ [(i : ℤ)])
        refine ⟨i :: ids, .token hi hkey hids, hnext.trans ?_⟩
        rw [List.length_append, List.append_assoc, List.append_assoc] at hrun
        exact hrun
  | @unknown c rest hnone hrest ih =>
    intro fuel hfuel output
    cases fuel with
    | zero => exact absurd hfuel (Nat.not_lt_zero _)
    | succ fuel =>
      have hsplit : pre ++ c :: rest = pre ++ [c] ++ rest := by rw [List.append_assoc]; rfl
      have hnode : vocab.tokenMatcher.traverse c = none := by
        refine Option.not_isSome_iff_eq_none.mp fun hsome => ?_
        obtain ⟨key, hkey, hhead⟩ := traverse_isSome.1 hsome
        exact hnone key hkey hhead
      have hnext := tokenizeFrom_unknown hsmall hnode fuel output
      obtain ⟨ids, hids, hrun⟩ := ih (pre ++ [c]) (hsplit ▸ hsmall) fuel
        (Nat.lt_of_succ_lt_succ hfuel) (output ++ [vocab.tokenUnk])
      refine ⟨vocab.tokenUnk :: ids, .unknown (fun key hkey => ?_) hids, hnext.trans ?_⟩
      · obtain ⟨tail, htail⟩ := hkey.isPrefix
        obtain ⟨d, key, rfl⟩ := List.exists_cons_of_ne_nil hkey.ne_nil
        exact hnone (d :: key) hkey.mem (by rw [List.head?_cons, (List.cons.inj htail).1])
      · rw [List.length_append, List.length_singleton] at hrun
        rw [hsplit, hrun, List.append_assoc]
        rfl

/-- The tokenizer ends with the greedy segmentation exactly if the text is below 4 GiB and nowhere
in it a token begins that is not there. -/
theorem tokenize_iff (vocab : RwkvVocab) (text : List UInt8) (output : List ℤ) :
    (∃ fuel ids, tokenize vocab text fuel output = some (output ++ ids) ∧
        Greedy vocab.texts vocab.tokenUnk text ids) ↔
      text.length < 2 ^ 32 ∧ Covered vocab.texts text := by
  constructor
  · rintro ⟨fuel, ids, hrun, -⟩
    rw [tokenize] at hrun
    have hsmall : text.length < 2 ^ 32 := by
      by_contra hlarge
      rw [tokenizeFrom_large (Nat.not_lt.mp hlarge) (Nat.two_pow_pos 32)] at hrun
      exact nomatch hrun
    rcases covered_or_returns hsmall text [] rfl with hcov | hret
    · exact ⟨hsmall, hcov⟩
    · rw [Returns.never hret fuel output] at hrun
      exact nomatch hrun
  · rintro ⟨hsmall, hcov⟩
    obtain ⟨ids, hids, hrun⟩ :=
      hcov.tokenizeFrom [] hsmall (text.length + 1) (Nat.lt_succ_self _) output
    exact ⟨_, ids, hrun, hids⟩

/-- The only token is longer than the text that begins it. -/
theorem tokenize_endless :
    ¬ ∃ fuel output result, tokenize ⟨[[97, 98]], -1⟩ [97] fuel output = some result := by
  have htexts : RwkvVocab.texts ⟨[[97, 98]], -1⟩ = [[97, 98]] := by decide
  have hmem : [97, 98] ∈ RwkvVocab.texts ⟨[[97, 98]], -1⟩ := htexts ▸ List.mem_singleton_self _
  obtain ⟨node, hnode⟩ := Option.isSome_iff_exists.mp (traverse_isSome.2 ⟨_, hmem, rfl⟩)
  rintro ⟨fuel, output, result, hresult⟩
  refine absurd (Returns.never (.step fun fuel output => ?_) fuel output)
    (hresult ▸ Option.some_ne_none result)
  have hnone : ∀ key, ¬ Begins (RwkvVocab.texts ⟨[[97, 98]], -1⟩) [97] key := by
    intro key hkey
    obtain ⟨-, hin, hpre⟩ := hkey
    rw [htexts] at hin
    rw [List.mem_singleton.mp hin] at hpre
    exact absurd hpre.length_le (by decide)
  have hstuck : tokenizeFrom ⟨[[97, 98]], -1⟩ ([] ++ [97]) (fuel + 1) [].length output = none ∨ _ :=
    tokenizeFrom_stuck (by decide) hnode hnone fuel output
  rcases hstuck with hend | hnext
  · exact .inl hend
  · exact .inr ⟨_, _, hnext, .inl rfl⟩

end

end RwkvTokenizer
end RocmFpx
