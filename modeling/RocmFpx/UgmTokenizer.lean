import RocmFpx.BestPath
import RocmFpx.NaiveTrie
import RocmFpx.UnicodeText
import Mathlib.Data.List.Enum
import Mathlib.Tactic.Linarith

/-!
The unigram tokenizer (`llm_tokenizer_ugm_session::tokenize`) on normalized text, with exact
scores. The table of best tokenizations is indexed by bytes; each cell holds the last token of the
best tokenization known up to there, where that token begins, and the score.
-/

namespace RocmFpx

/-- `token_data`, with the attributes the tokenizer asks for. -/
structure UgmToken where
  text : List UInt8
  score : ℚ
  isNormal : Bool := false
  isUserDefined : Bool := false
  isUnused : Bool := false

/-- The largest finite `float` and `double`. -/
def fltMax : ℚ := 2 ^ 128 - 2 ^ 104

def dblMax : ℚ := 2 ^ 1024 - 2 ^ 971

/-- A vocabulary as it is loaded: no two tokens have the same text, which the loader asserts, and
every score is a finite `float`. -/
structure UgmVocab where
  tokens : List UgmToken
  tokenUnk : ℤ
  nodup : (tokens.map UgmToken.text).Nodup
  finite : ∀ t ∈ tokens, -fltMax ≤ t.score ∧ t.score ≤ fltMax

namespace UgmVocab

open BestPath Unicode

/-- The tokens that the matcher holds. -/
def isMatched (t : UgmToken) : Bool := t.isNormal || t.isUserDefined || t.isUnused

section
variable (v : UgmVocab)

def minScore : ℚ := v.tokens.foldl (fun m t => if t.isNormal then min m t.score else m) fltMax

def unknownTokenScore : ℚ := v.minScore - 10

/-- `token_matcher`. -/
def tokenMatcher : NaiveTrie ℕ :=
  v.tokens.zipIdx.foldl (fun trie p => if isMatched p.1 then trie.insert p.1.text p.2 else trie)
    .empty

/-- The score of a token, 0 for those the user has defined. -/
def tokenScore (id : ℕ) : ℚ :=
  match v.tokens[id]? with
  | some t => if t.isUserDefined then 0 else t.score
  | none => 0

/-- `best_tokenization` by offset: `token_id`, `input_offset` and `score_sum`. -/
abbrev Results := ℕ → Cell ℤ ℚ

/-- The walk down the trie from `input_offset`; `s` is what follows `prefix_offset`. The flag tells
whether a token for the whole code point was found. -/
def walk (inputOffset nUnits : ℕ) : NaiveTrie ℕ → List UInt8 → ℕ → Results × Bool → Results × Bool
  | _, [], _, state => state
  | node, c :: s, prefixOffset, state =>
    match node.traverse c with
    | none => state
    | some next =>
      walk inputOffset nUnits next s (prefixOffset + 1)
        (match next.value with
        | some id =>
          (challenge state.1 ⟨inputOffset, prefixOffset + 1, id, v.tokenScore id⟩,
            state.2 || prefixOffset + 1 - inputOffset == nUnits)
        | none => state)

/-- The loop over the code points; `s` is the text from `input_offset` on. -/
def forward : ℕ → ℕ → List UInt8 → Results → Results
  | 0, _, _, results => results
  | _ + 1, _, [], results => results
  | n + 1, inputOffset, c :: s, results =>
    let nUnits := min (lenUtf8 c) (s.length + 1)
    let matched := v.walk inputOffset nUnits v.tokenMatcher (c :: s) inputOffset (results, false)
    forward n (inputOffset + nUnits) ((c :: s).drop nUnits)
      (if matched.2 then matched.1
      else challenge matched.1
        ⟨inputOffset, inputOffset + nUnits, v.tokenUnk, v.unknownTokenScore⟩)

/-- `tokenization_results` before the first code point. -/
def start : Results := fun k => if k = 0 then ⟨v.tokenUnk, 0, 0⟩ else ⟨v.tokenUnk, 0, -dblMax⟩

/-- The loop from the end, in the order in which it adds the tokens. Its variable is a reference
to the last cell, which every round overwrites. -/
def backtrack (inputLen : ℕ) : ℕ → Bool → Results → List ℤ
  | 0, _, _ => []
  | fuel + 1, isPrevUnknown, results =>
    let tokenization := results inputLen
    let isUnknown := tokenization.label == v.tokenUnk
    (if isPrevUnknown && isUnknown then [] else [tokenization.label]) ++
      if tokenization.src = 0 then []
      else backtrack inputLen fuel isUnknown
        (Function.update results inputLen (results tokenization.src))

/-- The tokens that `tokenize` adds to its output for a normalized text. -/
def tokenize (normalized : List UInt8) : List ℤ :=
  if normalized.isEmpty then []
  else
    (v.backtrack normalized.length normalized.length false
      (v.forward normalized.length 0 normalized v.start)).reverse

/-! ## Segmentations -/

/-- A piece of a segmentation: a token, or a code point that has none. -/
inductive Piece
  | token (id : ℕ)
  | unknown (cpt : ℕ)

def Piece.id : Piece → ℤ
  | .token id => id
  | .unknown _ => v.tokenUnk

def Piece.score : Piece → ℚ
  | .token id => v.tokenScore id
  | .unknown _ => v.unknownTokenScore

/-- The piece stands for these code points: it is a token of their text, or the unknown token for
a single code point that no token stands for. -/
def Covers (cpts : List ℕ) : Piece → Prop
  | .token id => cpts ≠ [] ∧
    ∃ t, v.tokens[id]? = some t ∧ isMatched t ∧ t.text = cpts.flatMap utf8Bytes
  | .unknown cpt => cpts = [cpt] ∧ ∀ t ∈ v.tokens, isMatched t → t.text ≠ utf8Bytes cpt

/-- The text cut between code points into pieces. -/
def Segmentation (cpts : List ℕ) (pieces : List Piece) : Prop :=
  ∃ groups : List (List ℕ), groups.flatten = cpts ∧ List.Forall₂ v.Covers groups pieces

def totalScore (pieces : List Piece) : ℚ := (pieces.map (Piece.score v)).sum

/-- Runs of the unknown token merged into one. -/
def mergeUnknown : List ℤ → List ℤ
  | [] => []
  | id :: ids =>
    if id = v.tokenUnk ∧ ids.head? = some v.tokenUnk then mergeUnknown ids
    else id :: mergeUnknown ids

end

end UgmVocab
end RocmFpx

/-!
The unigram tokenizer finds a segmentation of the greatest score. Its loop is one pass of
challenges over the edges between the code points of the text, its way back follows the table, and
the paths between the ends of the text are its segmentations.
-/

namespace RocmFpx
namespace UgmVocab

open BestPath Unicode

/-! ## The matcher -/

section
variable {v : UgmVocab}

theorem find_foldl {l : List (UgmToken × ℕ)} (hl : (l.map fun p => p.1.text).Nodup)
    (trie : NaiveTrie ℕ) (w : List UInt8) (id : ℕ) :
    (l.foldl (fun trie p => if isMatched p.1 then trie.insert p.1.text p.2 else trie) trie).find w =
        some id ↔
      (∃ p ∈ l, isMatched p.1 ∧ p.1.text = w ∧ p.2 = id) ∨
        (∀ p ∈ l, isMatched p.1 → p.1.text ≠ w) ∧ trie.find w = some id := by
  induction l generalizing trie with
  | nil => simp
  | cons p l ih =>
    obtain ⟨hp, hl⟩ := List.nodup_cons.mp hl
    rw [List.foldl_cons, ih hl, List.exists_mem_cons_iff, List.forall_mem_cons]
    by_cases hm : isMatched p.1
    · rw [if_pos hm, NaiveTrie.find_insert]
      by_cases hw : w = p.1.text
      · -- no other token has this text
        have hothers : ∀ q ∈ l, q.1.text ≠ w := fun q hq he =>
          hp (List.mem_map.mpr ⟨q, hq, he.trans hw⟩)
        rw [if_pos hw]
        constructor
        · rintro (⟨q, hq, -, he, -⟩ | ⟨-, he⟩)
          · exact absurd he (hothers q hq)
          · exact .inl (.inl ⟨hm, hw.symm, Option.some.inj he⟩)
        · rintro ((⟨-, -, he⟩ | ⟨q, hq, -, he, -⟩) | ⟨⟨hne, -⟩, -⟩)
          · exact .inr ⟨fun q hq _ => hothers q hq, congrArg some he⟩
          · exact absurd he (hothers q hq)
          · exact absurd hw.symm (hne hm)
      · rw [if_neg hw]
        constructor
        · rintro (hex | ⟨hall, hfind⟩)
          · exact .inl (.inr hex)
          · exact .inr ⟨⟨fun _ he => hw he.symm, hall⟩, hfind⟩
        · rintro ((⟨-, he, -⟩ | hex) | ⟨⟨-, hall⟩, hfind⟩)
          · exact absurd he.symm hw
          · exact .inl hex
          · exact .inr ⟨hall, hfind⟩
    · rw [if_neg hm]
      simp only [hm, Bool.false_eq_true, false_and, false_or, false_implies, true_and]

/-- The matcher finds a text where it is the text of one of its tokens. -/
theorem find_tokenMatcher (w : List UInt8) (id : ℕ) : v.tokenMatcher.find w = some id ↔
    ∃ t, v.tokens[id]? = some t ∧ isMatched t ∧ t.text = w := by
  have hnodup : (v.tokens.zipIdx.map fun p => p.1.text).Nodup := by
    have hfst : v.tokens.zipIdx.map (fun p => p.1.text) = v.tokens.map UgmToken.text := by
      rw [← Function.comp_def, ← List.map_map, List.zipIdx_map_fst]
    exact hfst ▸ v.nodup
  rw [tokenMatcher, find_foldl hnodup, NaiveTrie.find_empty]
  constructor
  · rintro (⟨⟨t, i⟩, hmem, hm, ht, rfl⟩ | ⟨-, h⟩)
    · exact ⟨t, List.mk_mem_zipIdx_iff_getElem?.mp hmem, hm, ht⟩
    · cases h
  · rintro ⟨t, hid, hm, ht⟩
    exact .inl ⟨(t, id), List.mk_mem_zipIdx_iff_getElem?.mpr hid, hm, ht, rfl⟩

end

/-! ## The loop as a pass over edges -/

section
variable (v : UgmVocab)

/-- The edges of the tokens that a walk down the trie comes across. -/
def trieEdges (o : ℕ) : NaiveTrie ℕ → List UInt8 → ℕ → List (Edge ℤ ℚ)
  | _, [], _ => []
  | node, c :: s, k =>
    match node.traverse c with
    | none => []
    | some next =>
      (next.value.toList.map fun id => ⟨o, k + 1, id, v.tokenScore id⟩) ++
        trieEdges o next s (k + 1)

theorem walk_eq (o n : ℕ) (node : NaiveTrie ℕ) (s : List UInt8) (k : ℕ) (t : Results)
    (found : Bool) :
    v.walk o n node s k (t, found) = (run t (v.trieEdges o node s k),
      found || (v.trieEdges o node s k).any fun e => e.tgt - o == n) := by
  induction s generalizing node k t found with
  | nil => simp [walk, trieEdges, run]
  | cons c s ih =>
    rw [walk, trieEdges]
    cases node.traverse c with
    | none => simp [run]
    | some next =>
      simp only
      cases next.value with
      | none => exact ih _ _ _ _
      | some id =>
        simp only [ih, Option.toList_some, List.map_cons, List.map_nil, List.singleton_append,
          run_cons, List.any_cons, Bool.or_assoc]

theorem mem_trieEdges {o : ℕ} {node : NaiveTrie ℕ} {s : List UInt8} {k : ℕ} {e : Edge ℤ ℚ} :
    e ∈ v.trieEdges o node s k ↔ ∃ w id, w ≠ [] ∧ w <+: s ∧ node.find w = some id ∧
      e = ⟨o, k + w.length, id, v.tokenScore id⟩ := by
  induction s generalizing node k with
  | nil =>
    refine ⟨fun h => (nomatch h), ?_⟩
    rintro ⟨w, id, hw, hpre, -⟩
    exact absurd (List.prefix_nil.mp hpre) hw
  | cons c s ih =>
    rw [trieEdges]
    cases hnode : node.traverse c with
    | none =>
      refine ⟨fun h => (nomatch h), ?_⟩
      rintro ⟨w, id, hw, hpre, hfind, -⟩
      obtain ⟨d, w, rfl⟩ := List.exists_cons_of_ne_nil hw
      obtain rfl := (List.cons_prefix_cons.mp hpre).1
      rw [NaiveTrie.find, hnode] at hfind
      cases hfind
    | some next =>
      simp only [List.mem_append, List.mem_map, Option.mem_toList, ih]
      constructor
      · rintro (⟨id, hvalue, rfl⟩ | ⟨w, id, hw, hpre, hfind, rfl⟩)
        · refine ⟨[c], id, List.cons_ne_nil _ _, List.cons_prefix_cons.mpr ⟨rfl, List.nil_prefix⟩,
            ?_, rfl⟩
          rw [NaiveTrie.find, hnode]
          exact hvalue
        · refine ⟨c :: w, id, List.cons_ne_nil _ _, List.cons_prefix_cons.mpr ⟨rfl, hpre⟩, ?_, ?_⟩
          · rw [NaiveTrie.find, hnode]
            exact hfind
          · rw [List.length_cons, Nat.add_right_comm]
            rfl
      · rintro ⟨w, id, hw, hpre, hfind, rfl⟩
        obtain ⟨d, w, rfl⟩ := List.exists_cons_of_ne_nil hw
        obtain ⟨rfl, hrest⟩ := List.cons_prefix_cons.mp hpre
        rw [NaiveTrie.find, hnode] at hfind
        by_cases hnil : w = []
        · obtain rfl := hnil
          exact .inl ⟨id, hfind, rfl⟩
        · refine .inr ⟨w, id, hnil, hrest, hfind, ?_⟩
          rw [List.length_cons, Nat.add_right_comm]
          rfl

def encode (cpts : List ℕ) : List UInt8 := cpts.flatMap utf8Bytes

/-- The edges that begin in front of `c`, `o` bytes into the text. -/
def edgesAt (o c : ℕ) (cpts : List ℕ) : List (Edge ℤ ℚ) :=
  let found := v.trieEdges o v.tokenMatcher (encode (c :: cpts)) o
  if found.any fun e => e.tgt - o == (utf8Bytes c).length then found
  else found ++ [⟨o, o + (utf8Bytes c).length, v.tokenUnk, v.unknownTokenScore⟩]

def edges : ℕ → List ℕ → List (Edge ℤ ℚ)
  | _, [] => []
  | o, c :: cpts => v.edgesAt o c cpts ++ edges (o + (utf8Bytes c).length) cpts

theorem encode_cons (c : ℕ) (cpts : List ℕ) : encode (c :: cpts) = utf8Bytes c ++ encode cpts :=
  List.flatMap_cons

theorem encode_append (g h : List ℕ) : encode (g ++ h) = encode g ++ encode h :=
  List.flatMap_append

theorem forward_eq {cpts : List ℕ} (hvalid : ∀ c ∈ cpts, c ≤ maxCpt) {n : ℕ}
    (hn : (encode cpts).length ≤ n) (o : ℕ) (t : Results) :
    v.forward n o (encode cpts) t = run t (v.edges o cpts) := by
  induction cpts generalizing n o t with
  | nil => cases n <;> rfl
  | cons c cpts ih =>
    obtain ⟨b, s, hb, hlen⟩ := utf8Bytes_lenUtf8 (hvalid c List.mem_cons_self)
    have henc : encode (c :: cpts) = b :: (s ++ encode cpts) := by
      rw [encode_cons, hb, List.cons_append]
    have hunits : min (lenUtf8 b) ((s ++ encode cpts).length + 1) = (utf8Bytes c).length := by
      rw [hlen, hb, List.length_cons, List.length_append]
      omega
    have hdrop : (encode (c :: cpts)).drop (utf8Bytes c).length = encode cpts := by
      rw [encode_cons, List.drop_left']
      rfl
    cases n with
    | zero =>
      rw [henc] at hn
      cases hn
    | succ n =>
      have hle : (encode cpts).length ≤ n := by
        rw [henc, List.length_cons, List.length_append] at hn
        omega
      rw [edges, run_append, ← ih (fun x hx => hvalid x (List.mem_cons_of_mem c hx)) hle, henc,
        forward]
      simp only [hunits]
      rw [← henc, hdrop, walk_eq, edgesAt, Bool.false_or]
      split_ifs
      · rfl
      · rw [run_append]
        rfl

/-- In front of a code point begin its tokens, and the unknown one if it has none of its own. -/
theorem mem_edgesAt {o c : ℕ} {cpts : List ℕ} {e : Edge ℤ ℚ} : e ∈ v.edgesAt o c cpts ↔
    (∃ w id, w ≠ [] ∧ w <+: encode (c :: cpts) ∧ v.tokenMatcher.find w = some id ∧
      e = ⟨o, o + w.length, id, v.tokenScore id⟩) ∨
    v.tokenMatcher.find (utf8Bytes c) = none ∧
      e = ⟨o, o + (utf8Bytes c).length, v.tokenUnk, v.unknownTokenScore⟩ := by
  have hfound : ((v.trieEdges o v.tokenMatcher (encode (c :: cpts)) o).any fun e =>
      e.tgt - o == (utf8Bytes c).length) = true ↔ v.tokenMatcher.find (utf8Bytes c) ≠ none := by
    rw [List.any_eq_true]
    constructor
    · rintro ⟨e, he, hlen⟩
      obtain ⟨w, id, -, hpre, hfind, rfl⟩ := (v.mem_trieEdges).mp he
      rw [beq_iff_eq, Nat.add_sub_cancel_left] at hlen
      have hw : w = utf8Bytes c :=
        (List.prefix_of_prefix_length_le hpre (encode_cons c cpts ▸ List.prefix_append _ _)
          hlen.le).eq_of_length hlen
      rw [← hw, hfind]
      exact Option.some_ne_none id
    · intro hne
      obtain ⟨id, hfind⟩ := Option.ne_none_iff_exists'.mp hne
      refine ⟨⟨o, o + (utf8Bytes c).length, id, v.tokenScore id⟩,
        (v.mem_trieEdges).mpr ⟨utf8Bytes c, id, utf8Bytes_ne_nil c, ?_, hfind, rfl⟩, ?_⟩
      · rw [encode_cons]
        exact List.prefix_append _ _
      · rw [beq_iff_eq, Nat.add_sub_cancel_left]
  rw [edgesAt]
  by_cases hany : v.tokenMatcher.find (utf8Bytes c) = none
  · rw [if_neg fun h => hfound.mp h hany, List.mem_append, mem_trieEdges, List.mem_singleton]
    simp only [hany, true_and]
  · rw [if_pos (hfound.mpr hany), mem_trieEdges]
    simp only [hany, false_and, or_false]

theorem edges_append (o : ℕ) (g cpts : List ℕ) :
    v.edges (o + (encode g).length) cpts ⊆ v.edges o (g ++ cpts) := by
  induction g generalizing o with
  | nil => exact fun _ h => h
  | cons c g ih =>
    rw [encode_cons, List.length_append, ← Nat.add_assoc, List.cons_append, edges]
    exact fun e he => List.mem_append_right _ (ih _ he)

theorem mem_edges {o : ℕ} {cpts : List ℕ} {e : Edge ℤ ℚ} (h : e ∈ v.edges o cpts) :
    ∃ pre c post, cpts = pre ++ c :: post ∧ e ∈ v.edgesAt (o + (encode pre).length) c post := by
  induction cpts generalizing o with
  | nil => cases h
  | cons c cpts ih =>
    obtain h | h := List.mem_append.mp h
    · exact ⟨[], c, cpts, rfl, h⟩
    · obtain ⟨pre, d, post, rfl, he⟩ := ih h
      refine ⟨c :: pre, d, post, rfl, ?_⟩
      rwa [encode_cons, List.length_append, ← Nat.add_assoc]

theorem edgesAt_src {o c : ℕ} {cpts : List ℕ} {e : Edge ℤ ℚ} (h : e ∈ v.edgesAt o c cpts) :
    e.src = o ∧ e.src < e.tgt := by
  obtain ⟨w, id, hw, -, -, rfl⟩ | ⟨-, rfl⟩ := (v.mem_edgesAt).mp h
  · exact ⟨rfl, Nat.lt_add_of_pos_right (List.length_pos_iff.mpr hw)⟩
  · exact ⟨rfl, Nat.lt_add_of_pos_right (List.length_pos_iff.mpr (utf8Bytes_ne_nil c))⟩

theorem edges_src_le {o : ℕ} {cpts : List ℕ} {e : Edge ℤ ℚ} (h : e ∈ v.edges o cpts) :
    o ≤ e.src := by
  obtain ⟨pre, c, post, -, he⟩ := v.mem_edges h
  rw [(v.edgesAt_src he).1]
  exact Nat.le_add_right o _

theorem edges_ordered (o : ℕ) (cpts : List ℕ) : Ordered (v.edges o cpts) where
  forward e he := by
    obtain ⟨pre, c, post, -, he⟩ := v.mem_edges he
    exact (v.edgesAt_src he).2
  sorted := by
    induction cpts generalizing o with
    | nil => exact List.Pairwise.nil
    | cons c cpts ih =>
      rw [edges, List.pairwise_append]
      refine ⟨List.Pairwise.imp_of_mem (R := fun _ _ => True) ?_ ?_, ih _, ?_⟩
      · intro e f he hf _
        rw [(v.edgesAt_src he).1, (v.edgesAt_src hf).1]
      · exact List.pairwise_of_forall fun _ _ => trivial
      · intro e he f hf
        rw [(v.edgesAt_src he).1]
        exact (Nat.le_add_right o _).trans (v.edges_src_le hf)

/-! ## Paths and segmentations -/

variable {v}

theorem encode_ne_nil {g : List ℕ} (h : g ≠ []) : encode g ≠ [] := by
  obtain ⟨c, g, rfl⟩ := List.exists_cons_of_ne_nil h
  rw [encode_cons]
  exact List.append_ne_nil_of_left_ne_nil (utf8Bytes_ne_nil c) _

theorem Covers.mem_edges {g : List ℕ} {x : Piece} (h : v.Covers g x) (o : ℕ) (cpts : List ℕ) :
    ⟨o, o + (encode g).length, x.id v, x.score v⟩ ∈ v.edges o (g ++ cpts) := by
  cases x with
  | token id =>
    obtain ⟨hne, t, hid, hm, ht⟩ := h
    have hfind := (find_tokenMatcher (v := v) (encode g) id).mpr ⟨t, hid, hm, ht⟩
    have hpre : encode g <+: encode (g ++ cpts) := encode_append g cpts ▸ List.prefix_append _ _
    obtain ⟨c, g', rfl⟩ := List.exists_cons_of_ne_nil hne
    exact List.mem_append_left _
      ((v.mem_edgesAt).mpr (.inl ⟨_, id, encode_ne_nil hne, hpre, hfind, rfl⟩))
  | unknown c =>
    obtain ⟨rfl, hnone⟩ := h
    have hfind : v.tokenMatcher.find (utf8Bytes c) = none := by
      by_contra hsome
      obtain ⟨id, hid⟩ := Option.ne_none_iff_exists'.mp hsome
      obtain ⟨t, ht, hm, htext⟩ := (find_tokenMatcher _ _).mp hid
      exact hnone t (List.mem_of_getElem? ht) hm htext
    have hone : encode [c] = utf8Bytes c := List.flatMap_singleton _ _
    exact List.mem_append_left _ ((v.mem_edgesAt).mpr (.inr ⟨hfind, by rw [hone]; rfl⟩))

theorem Segmentation.path {cpts : List ℕ} {pieces : List Piece}
    (h : v.Segmentation cpts pieces) (o : ℕ) :
    ∃ p, Path (v.edges o cpts) o (o + (encode cpts).length) p ∧
      weight p = v.totalScore pieces := by
  obtain ⟨groups, rfl, hall⟩ := h
  induction hall generalizing o with
  | nil => exact ⟨[], .nil o, rfl⟩
  | @cons g x groups pieces hg _ ih =>
    obtain ⟨p, hp, hweight⟩ := ih (o + (encode g).length)
    rw [List.flatten_cons, encode_append, List.length_append, ← Nat.add_assoc]
    refine ⟨⟨o, o + (encode g).length, x.id v, x.score v⟩ :: p,
      .cons (hg.mem_edges o groups.flatten) (hp.mono (v.edges_append o g _)), ?_⟩
    rw [weight_cons, hweight]
    exact List.sum_cons.symm

theorem prefix_of_length_lt {g h cpts : List ℕ} (hg : g <+: cpts) (hh : h <+: cpts)
    (hlt : (encode g).length < (encode h).length) : ∃ x, x ≠ [] ∧ h = g ++ x := by
  obtain hgh | ⟨x, rfl⟩ := List.prefix_or_prefix_of_prefix hg hh
  · obtain ⟨x, rfl⟩ := hgh
    refine ⟨x, ?_, rfl⟩
    rintro rfl
    rw [List.append_nil] at hlt
    exact absurd hlt (lt_irrefl _)
  · rw [encode_append, List.length_append] at hlt
    omega

theorem prefix_eq_of_length {g h cpts : List ℕ} (hg : g <+: cpts) (hh : h <+: cpts)
    (heq : (encode g).length = (encode h).length) : g = h := by
  obtain ⟨x, rfl⟩ | ⟨x, rfl⟩ := List.prefix_or_prefix_of_prefix hg hh
  all_goals
    rw [encode_append, List.length_append] at heq
    have hx : x = [] := by
      by_contra hne
      have := List.length_pos_iff.mpr (encode_ne_nil hne)
      omega
    rw [hx, List.append_nil]

theorem path_boundary {cpts : List ℕ} {k : ℕ} {p : List (Edge ℤ ℚ)}
    (h : Path (v.edges 0 cpts) k (encode cpts).length p) :
    ∃ pre, pre <+: cpts ∧ k = (encode pre).length := by
  cases h with
  | nil => exact ⟨cpts, List.prefix_rfl, rfl⟩
  | cons he _ =>
    obtain ⟨pre, c, post, hcpts, he⟩ := v.mem_edges he
    exact ⟨pre, ⟨c :: post, hcpts.symm⟩, by rw [(v.edgesAt_src he).1, Nat.zero_add]⟩

theorem covers_of_mem_edgesAt {o c : ℕ} {post g rest : List ℕ} {e : Edge ℤ ℚ}
    (he : e ∈ v.edgesAt o c post) (hpost : c :: post = g ++ rest) (hne : g ≠ [])
    (htgt : e.tgt = o + (encode g).length) :
    ∃ x, v.Covers g x ∧ e.label = x.id v ∧ e.weight = x.score v := by
  obtain ⟨w, id, -, hpre, hfind, rfl⟩ | ⟨hfind, rfl⟩ := (v.mem_edgesAt).mp he
  · have hlen : w.length = (encode g).length := Nat.add_left_cancel htgt
    have hg : encode g <+: encode (c :: post) := by
      rw [hpost, encode_append]
      exact List.prefix_append _ _
    obtain rfl := (List.prefix_of_prefix_length_le hpre hg hlen.le).eq_of_length hlen
    obtain ⟨t, hid, hm, ht⟩ := (find_tokenMatcher _ _).mp hfind
    exact ⟨.token id, ⟨hne, t, hid, hm, ht⟩, rfl, rfl⟩
  · have hlen : (utf8Bytes c).length = (encode g).length := Nat.add_left_cancel htgt
    obtain ⟨d, g, rfl⟩ := List.exists_cons_of_ne_nil hne
    obtain ⟨rfl, -⟩ := List.cons.inj hpost
    rw [encode_cons, List.length_append] at hlen
    have hg : g = [] := by
      by_contra hne
      have := List.length_pos_iff.mpr (encode_ne_nil hne)
      omega
    refine ⟨.unknown c, ⟨by rw [hg], fun t ht hm htext => ?_⟩, rfl, rfl⟩
    obtain ⟨id, hid⟩ := List.getElem?_of_mem ht
    have := (find_tokenMatcher (v := v) (utf8Bytes c) id).mpr ⟨t, hid, hm, htext⟩
    rw [hfind] at this
    cases this

theorem path_segmentation {cpts : List ℕ} {n k : ℕ} {p : List (Edge ℤ ℚ)}
    (h : Path (v.edges 0 cpts) k n p) (hn : n = (encode cpts).length) {pre post : List ℕ}
    (hcpts : cpts = pre ++ post) (hk : k = (encode pre).length) :
    ∃ pieces, v.Segmentation post pieces ∧ p.map Edge.label = pieces.map (Piece.id v) ∧
      weight p = v.totalScore pieces := by
  induction h generalizing pre post with
  | nil k =>
    have hpre : pre = cpts := prefix_eq_of_length ⟨post, hcpts.symm⟩ List.prefix_rfl (hk ▸ hn)
    obtain rfl : post = [] := by simpa [hpre] using hcpts
    exact ⟨[], ⟨[], rfl, .nil⟩, rfl, rfl⟩
  | @cons e n p he hp ih =>
    obtain ⟨pre', c, post', hcpts', he⟩ := v.mem_edges he
    obtain ⟨hsrc, hforward⟩ := v.edgesAt_src he
    rw [Nat.zero_add] at hsrc he
    obtain rfl : pre = pre' :=
      prefix_eq_of_length ⟨post, hcpts.symm⟩ ⟨c :: post', hcpts'.symm⟩ (hk ▸ hsrc)
    obtain ⟨pre₂, hpre₂, htgt⟩ := path_boundary (hn ▸ hp)
    obtain ⟨g, hne, rfl⟩ := prefix_of_length_lt ⟨post, hcpts.symm⟩ hpre₂ (hk ▸ htgt ▸ hforward)
    obtain ⟨rest, hrest⟩ := hpre₂
    have hpost : c :: post' = g ++ rest := by
      rw [hcpts', List.append_assoc] at hrest
      exact (List.append_cancel_left hrest).symm
    have hpost' : post = g ++ rest := by
      rw [hcpts, List.append_assoc] at hrest
      exact (List.append_cancel_left hrest).symm
    obtain ⟨pieces, ⟨groups, hgroups, hall⟩, hlabels, hweight⟩ := ih hn hrest.symm htgt
    rw [encode_append, List.length_append] at htgt
    obtain ⟨x, hx, hlabel, hscore⟩ := covers_of_mem_edgesAt he hpost hne htgt
    refine ⟨x :: pieces, ⟨g :: groups, ?_, .cons hx hall⟩, ?_, ?_⟩
    · rw [List.flatten_cons, hgroups, hpost']
    · rw [List.map_cons, List.map_cons, hlabel, hlabels]
    · rw [weight_cons, hscore, hweight]
      exact List.sum_cons.symm

/-! ## Every code point is reached -/

theorem minScore_ge : -fltMax ≤ v.minScore := by
  have hfold : ∀ (l : List UgmToken) (m : ℚ), (∀ t ∈ l, -fltMax ≤ t.score) → -fltMax ≤ m →
      -fltMax ≤ l.foldl (fun m t => if t.isNormal then min m t.score else m) m := by
    intro l
    induction l with
    | nil => exact fun m _ hm => hm
    | cons t l ih =>
      intro m hl hm
      obtain ⟨ht, hl⟩ := List.forall_mem_cons.mp hl
      refine ih _ hl ?_
      dsimp only
      split_ifs
      · exact le_min hm ht
      · exact hm
  exact hfold _ _ (fun t ht => (v.finite t ht).1) (by norm_num [fltMax])

theorem edgesAt_weight_ge {o c : ℕ} {cpts : List ℕ} {e : Edge ℤ ℚ} (h : e ∈ v.edgesAt o c cpts) :
    -(fltMax + 10) ≤ e.weight := by
  obtain ⟨w, id, -, -, hfind, rfl⟩ | ⟨-, rfl⟩ := (v.mem_edgesAt).mp h
  · obtain ⟨t, hid, -, -⟩ := (find_tokenMatcher _ _).mp hfind
    have hscore := (v.finite t (List.mem_of_getElem? hid)).1
    have hpos : (0 : ℚ) ≤ fltMax := by norm_num [fltMax]
    simp only [tokenScore, hid]
    split_ifs <;> linarith
  · have hmin := minScore_ge (v := v)
    simp only [unknownTokenScore]
    linarith

theorem exists_edgesAt_one (o c : ℕ) (cpts : List ℕ) :
    ∃ e ∈ v.edgesAt o c cpts, e.tgt = o + (utf8Bytes c).length := by
  cases hfind : v.tokenMatcher.find (utf8Bytes c) with
  | none => exact ⟨_, (v.mem_edgesAt).mpr (.inr ⟨hfind, rfl⟩), rfl⟩
  | some id =>
    refine ⟨_, (v.mem_edgesAt).mpr
      (.inl ⟨utf8Bytes c, id, utf8Bytes_ne_nil c, ?_, hfind, rfl⟩), rfl⟩
    rw [encode_cons]
    exact List.prefix_append _ _

theorem exists_path_to (pre post : List ℕ) :
    ∃ p, Path (v.edges 0 (pre ++ post)) 0 (encode pre).length p ∧
      -((pre.length : ℚ) * (fltMax + 10)) ≤ weight p := by
  induction pre using List.reverseRecOn generalizing post with
  | nil => exact ⟨[], .nil 0, by simp [weight]⟩
  | append_singleton pre c ih =>
    obtain ⟨p, hp, hweight⟩ := ih (c :: post)
    obtain ⟨e, he, htgt⟩ := exists_edgesAt_one (v := v) (encode pre).length c post
    have hsub := v.edges_append 0 pre (c :: post)
    rw [Nat.zero_add] at hsub
    have hone : encode [c] = utf8Bytes c := List.flatMap_singleton _ _
    rw [List.append_assoc, List.singleton_append, encode_append, List.length_append, hone, ← htgt]
    refine ⟨p ++ [e], hp.snoc (hsub (List.mem_append_left _ he)) (v.edgesAt_src he).1, ?_⟩
    have hlast : weight [e] = e.weight := List.sum_singleton
    have hge := edgesAt_weight_ge he
    rw [weight_append, hlast, List.length_append, List.length_singleton]
    push_cast
    linarith

theorem length_le_encode (g : List ℕ) : g.length ≤ (encode g).length := by
  induction g with
  | nil => exact le_rfl
  | cons c g ih =>
    have := List.length_pos_iff.mpr (utf8Bytes_ne_nil c)
    rw [encode_cons, List.length_append, List.length_cons]
    omega

theorem fltMax_lt_dblMax : (2 : ℚ) ^ 64 * (fltMax + 10) < dblMax := by
  have hsplit : (2 : ℚ) ^ 1024 = 2 ^ 971 * 2 ^ 53 := by rw [← pow_add]
  have hlarge : (2 : ℚ) ^ 200 ≤ 2 ^ 971 := pow_le_pow_right₀ (by norm_num) (by norm_num)
  rw [dblMax, fltMax, hsplit]
  generalize (2 : ℚ) ^ 971 = y at hlarge
  norm_num at hlarge ⊢
  linarith

theorem reached {cpts pre : List ℕ} (hsize : (encode cpts).length < 2 ^ 64) (hpre : pre <+: cpts)
    (hne : (encode pre).length ≠ 0) : Reached v.start (v.edges 0 cpts) (encode pre).length := by
  obtain ⟨post, rfl⟩ := hpre
  obtain ⟨p, hp, hweight⟩ := exists_path_to (v := v) pre post
  refine ⟨p, hp, ?_⟩
  have hcount : (pre.length : ℚ) ≤ 2 ^ 64 := by
    have hle : pre.length ≤ 2 ^ 64 := by
      rw [encode_append, List.length_append] at hsize
      have := length_le_encode pre
      omega
    exact_mod_cast hle
  have hpos : (0 : ℚ) ≤ fltMax + 10 := by norm_num [fltMax]
  have hbound := mul_le_mul_of_nonneg_right hcount hpos
  have hfirst : (v.start 0).score = 0 := rfl
  have hempty : (v.start (encode pre).length).score = -dblMax := by rw [start, if_neg hne]
  have hfar := fltMax_lt_dblMax
  rw [hfirst, hempty]
  linarith

/-! ## The way back -/

/-- The tokens of the way back, one for each run of the unknown token. -/
def skipRuns (unk : ℤ) : Bool → List ℤ → List ℤ
  | _, [] => []
  | isPrevUnknown, id :: ids =>
    (if isPrevUnknown && id == unk then [] else [id]) ++ skipRuns unk (id == unk) ids

theorem backtrack_eq {t : Results} (ht : ∀ k, (t k).src = 0 ∨ (t k).src < k) {inputLen k : ℕ}
    (hk : k ≤ inputLen) (fuel : ℕ) (isPrevUnknown : Bool) :
    v.backtrack inputLen fuel isPrevUnknown (Function.update t inputLen (t k)) =
      skipRuns v.tokenUnk isPrevUnknown (labelsFrom t fuel k) := by
  induction fuel generalizing k isPrevUnknown with
  | zero => rfl
  | succ fuel ih =>
    rw [backtrack, labelsFrom, skipRuns]
    simp only [Function.update_self, Function.update_idem]
    congr 1
    by_cases h0 : (t k).src = 0
    · rw [if_pos h0, if_pos h0]
      rfl
    · have hlt := ((ht k).resolve_left h0).trans_le hk
      rw [if_neg h0, if_neg h0, Function.update_of_ne hlt.ne, ih hlt.le]

theorem skipRuns_append (unk : ℤ) (isPrevUnknown : Bool) (ids : List ℤ) (id : ℤ) :
    skipRuns unk isPrevUnknown (ids ++ [id]) = skipRuns unk isPrevUnknown ids ++
      if (ids.getLast?.elim isPrevUnknown (· == unk)) && id == unk then [] else [id] := by
  induction ids generalizing isPrevUnknown with
  | nil => simp [skipRuns]
  | cons x ids ih =>
    rw [List.cons_append, skipRuns, skipRuns, ih, List.append_assoc]
    congr 2
    cases ids with
    | nil => rfl
    | cons y ids =>
      obtain ⟨z, hz⟩ := Option.ne_none_iff_exists'.mp
        (mt List.getLast?_eq_none_iff.mp (List.cons_ne_nil y ids))
      rw [List.getLast?_cons_cons, hz]
      rfl

theorem reverse_skipRuns (ids : List ℤ) :
    (skipRuns v.tokenUnk false ids.reverse).reverse = v.mergeUnknown ids := by
  induction ids with
  | nil => rfl
  | cons id ids ih =>
    rw [List.reverse_cons, skipRuns_append, List.reverse_append, ih, mergeUnknown,
      List.getLast?_reverse]
    cases ids with
    | nil => simp
    | cons x ids =>
      by_cases hid : id = v.tokenUnk <;> by_cases hx : x = v.tokenUnk <;> simp [hid, hx]

theorem run_src (es : List (Edge ℤ ℚ)) (ho : Ordered es) (k : ℕ) :
    (run v.start es k).src = 0 ∨ (run v.start es k).src < k := by
  obtain hsame | ⟨e, he, rfl, hrec⟩ := ho.run_recorded v.start k
  · rw [hsame, start]
    split_ifs <;> exact .inl rfl
  · rw [hrec]
    exact .inr (ho.forward e he)

/-- The tokens of a text in UTF-8 are those of a segmentation of the greatest score, in order, with
runs of the unknown token merged into one. -/
theorem tokenize_optimal (v : UgmVocab) (cpts : List ℕ) (hvalid : ∀ c ∈ cpts, c ≤ maxCpt)
    (hsize : (encode cpts).length < 2 ^ 64) :
    ∃ pieces, v.Segmentation cpts pieces ∧
      v.tokenize (encode cpts) = v.mergeUnknown (pieces.map (Piece.id v)) ∧
      ∀ others, v.Segmentation cpts others → v.totalScore others ≤ v.totalScore pieces := by
  by_cases hempty : cpts = []
  · obtain rfl := hempty
    refine ⟨[], ⟨[], rfl, .nil⟩, rfl, fun others hothers => ?_⟩
    obtain ⟨p, hp, hweight⟩ := hothers.path 0
    rw [← hweight, Path.eq_nil hp]
    exact le_rfl
  have hne : encode cpts ≠ [] := encode_ne_nil hempty
  have hlen : (encode cpts).length ≠ 0 := (List.length_pos_iff.mpr hne).ne'
  have hsrc : ∀ e ∈ v.edges 0 cpts, e.src ≠ 0 → Reached v.start (v.edges 0 cpts) e.src := by
    intro e he h0
    obtain ⟨pre, c, post, hcpts, hat⟩ := v.mem_edges he
    rw [(v.edgesAt_src hat).1, Nat.zero_add] at h0 ⊢
    exact reached hsize ⟨c :: post, hcpts.symm⟩ h0
  have ho := v.edges_ordered 0 cpts
  obtain ⟨p, hp, hlabels, hbest⟩ := exists_best ho v.start rfl hsrc hlen
    (reached hsize List.prefix_rfl hlen) le_rfl
  obtain ⟨pieces, hseg, hids, hscore⟩ :=
    path_segmentation hp rfl (List.nil_append cpts).symm rfl
  refine ⟨pieces, hseg, ?_, fun others hothers => ?_⟩
  · have hback := backtrack_eq (v := v) (run_src (v := v) _ ho) (le_refl (encode cpts).length)
      (encode cpts).length false
    rw [Function.update_eq_self, hlabels, hids] at hback
    rw [tokenize, if_neg (by simpa using hne), forward_eq v hvalid le_rfl, hback, reverse_skipRuns]
  · obtain ⟨q, hq, hweight⟩ := hothers.path 0
    rw [Nat.zero_add] at hq
    rw [← hweight, ← hscore]
    exact hbest q hq

end

/-- `ab` with the tokens `a`, `b` and `ab`, and the unknown token 0. -/
def twoLetters : UgmVocab where
  tokens := [⟨[60], 0, false, false, false⟩, ⟨[97], -1, true, false, false⟩,
    ⟨[98], -2, true, false, false⟩, ⟨[97, 98], -4, true, false, false⟩]
  tokenUnk := 0
  nodup := by decide
  finite := by
    simp only [List.mem_cons, List.not_mem_nil, or_false, forall_eq_or_imp, forall_eq]
    norm_num [fltMax]

theorem tokenize_optimal_twoLetters :
    ∃ pieces, twoLetters.Segmentation [97, 98, 99, 99] pieces ∧
      twoLetters.tokenize (encode [97, 98, 99, 99]) =
        twoLetters.mergeUnknown (pieces.map (Piece.id twoLetters)) ∧
      ∀ others, twoLetters.Segmentation [97, 98, 99, 99] others →
        twoLetters.totalScore others ≤ twoLetters.totalScore pieces :=
  tokenize_optimal twoLetters [97, 98, 99, 99] (by decide) (by decide +kernel)

example : twoLetters.tokenize (encode [97, 98, 99, 99]) = [1, 2, 0] := by decide +kernel

end UgmVocab
end RocmFpx
