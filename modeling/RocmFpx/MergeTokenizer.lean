import RocmFpx.GreedyMerge
import RocmFpx.PriorityQueue
import RocmFpx.UnicodeText
import Mathlib.Data.List.GetD

/-!
The merging tokenizers of `llama-vocab.cpp`. A text becomes a chain of symbols; a work queue holds
the pairs of neighbours that are worth a merge, in the order in which to merge them. A merged pair
stays in the queue together with every other pair of its two symbols, and is recognized when it
comes out.
-/

namespace RocmFpx
namespace MergeTokenizer

open Unicode

/-- `llm_symbol`. `text` is what is left of the text where the symbol begins; a symbol that another
one absorbed has no bytes. -/
structure LlmSymbol where
  prev : Option ℕ
  next : Option ℕ
  text : List UInt8
  n : ℕ

/-- `std::string(symbol.text, symbol.n)`. -/
def LlmSymbol.word (s : LlmSymbol) : List UInt8 := s.text.take s.n

def symbolsFrom : ℕ → ℕ → List UInt8 → List LlmSymbol
  | 0, _, _ => []
  | _ + 1, _, [] => []
  | fuel + 1, index, c :: s =>
    let n := min (lenUtf8 c) (s.length + 1)
    let rest := (c :: s).drop n
    ⟨if index = 0 then none else some (index - 1), if rest = [] then none else some (index + 1),
      c :: s, n⟩ :: symbolsFrom fuel (index + 1) rest

/-- The symbols both sessions begin with, one for each character. -/
def symbolsOf (text : List UInt8) : List LlmSymbol := symbolsFrom text.length 0 text

/-- `symbols[i]`. -/
def sym (symbols : List LlmSymbol) (i : ℕ) : LlmSymbol := symbols.getD i ⟨none, none, [], 0⟩

/-- What the two sessions put into their queues, how these order it, and when what comes out is
skipped. -/
structure MergeQueue (B : Type) where
  left : B → ℕ
  right : B → ℕ
  less : B → B → Bool
  bigram : ℕ → ℕ → LlmSymbol → LlmSymbol → Option B
  outdated : B → LlmSymbol → LlmSymbol → Bool

/-- `revMerge` is what the SPM session notes for each pair it queues. -/
structure Session {B : Type} (q : MergeQueue B) (pq : PriorityQueue B q.less) where
  symbols : List LlmSymbol
  workQueue : pq.Carrier
  revMerge : List (List UInt8 × ℕ × ℕ)

section
variable {B : Type} {q : MergeQueue B} {pq : PriorityQueue B q.less}

/-- `try_add_bigram`, `add_new_bigram`. -/
def Session.addBigram (s : Session q pq) (left right : Option ℕ) : Session q pq :=
  match left, right with
  | some left, some right =>
    let l := sym s.symbols left
    let r := sym s.symbols right
    match q.bigram left right l r with
    | some b => { s with
        workQueue := pq.push s.workQueue b
        revMerge := (l.text.take (l.n + r.n), left, right) :: s.revMerge }
    | none => s
  | _, _ => s

/-- The session whose queue holds what it wants of the first pairs. -/
def Session.start (pq : PriorityQueue B q.less) (symbols : List LlmSymbol) : Session q pq :=
  (List.range (symbols.length - 1)).foldl (fun s i => s.addBigram (some i) (some (i + 1)))
    ⟨symbols, pq.empty, []⟩

/-- The right symbol becomes a part of the left one and leaves the chain. -/
def absorb (symbols : List LlmSymbol) (left right : ℕ) : List LlmSymbol :=
  let r := sym symbols right
  let symbols := symbols.modify left fun s => { s with n := s.n + r.n }
  let symbols := symbols.modify right fun s => { s with n := 0 }
  let symbols := symbols.modify left fun s => { s with next := r.next }
  match r.next with
  | some next => symbols.modify next fun s => { s with prev := some left }
  | none => symbols

/-- One round of the loop; there is none when the queue is empty. -/
def Session.round (s : Session q pq) : Option (Session q pq) :=
  match pq.pop s.workQueue with
  | none => none
  | some (b, workQueue) =>
    if q.outdated b (sym s.symbols (q.left b)) (sym s.symbols (q.right b)) then
      some { s with workQueue := workQueue }
    else
      let symbols := absorb s.symbols (q.left b) (q.right b)
      let l := sym symbols (q.left b)
      let s := { s with symbols := symbols, workQueue := workQueue }
      some ((s.addBigram l.prev (some (q.left b))).addBigram (some (q.left b)) l.next)

/-- The session after so many rounds, or when there are no more. -/
def Session.rounds : ℕ → Session q pq → Session q pq
  | 0, s => s
  | n + 1, s =>
    match s.round with
    | none => s
    | some s => rounds n s

end

def chainFrom (symbols : List LlmSymbol) : ℕ → Option ℕ → List LlmSymbol
  | n + 1, some i => sym symbols i :: chainFrom symbols n (sym symbols i).next
  | _, _ => []

/-- The symbols as the SPM session reads them, along the chain. -/
def chained (symbols : List LlmSymbol) : List LlmSymbol :=
  chainFrom symbols symbols.length (some 0)

/-- The symbols as the BPE session reads them, all that have bytes left. -/
def finished (symbols : List LlmSymbol) : List LlmSymbol := symbols.filter fun s => 0 < s.n

/-! ## The vocabulary -/

/-- `llama_token_attr`. -/
structure TokenAttr where
  unknown : Bool := false
  unused : Bool := false
  normal : Bool := false
  control : Bool := false
  userDefined : Bool := false
  byte : Bool := false
  lstrip : Bool := false
  rstrip : Bool := false

structure TokenData (S : Type) where
  text : List UInt8
  score : S
  attr : TokenAttr

/-- The tokens of a model. The loader asserts that no two have the same text, and gives one without
a text a name. -/
structure TokenTable (S : Type) where
  idToToken : List (TokenData S)
  nodup : (idToToken.map TokenData.text).Nodup
  named : ∀ t ∈ idToToken, t.text ≠ []

/-- `text_to_token`; `none` stands for `LLAMA_TOKEN_NULL`. -/
def TokenTable.textToToken {S : Type} (v : TokenTable S) (text : List UInt8) : Option ℕ :=
  v.idToToken.findIdx? fun t => t.text == text

theorem TokenTable.textToToken_nil {S : Type} (v : TokenTable S) : v.textToToken [] = none := by
  rw [textToToken, List.findIdx?_eq_none_iff]
  exact fun t ht => beq_eq_false_iff_ne.mpr (v.named t ht)

/-! ## SPM -/

structure LlmBigramSpm (S : Type) where
  left : ℕ
  right : ℕ
  score : S
  size : ℕ

section
variable {S : Type} [LinearOrder S]

def LlmBigramSpm.less (l r : LlmBigramSpm S) : Bool :=
  l.score < r.score || (l.score == r.score && l.left > r.left)

/-- The pair of `try_add_bigram`: its text is a token of the table. -/
def spmBigram (v : TokenTable S) (left right : ℕ) (l r : LlmSymbol) : Option (LlmBigramSpm S) :=
  let text := l.text.take (l.n + r.n)
  match v.textToToken text with
  | none => none
  | some token =>
    match v.idToToken[token]? with
    | none => none
    | some tokData => some ⟨left, right, tokData.score, text.length⟩

def spmQueue (v : TokenTable S) : MergeQueue (LlmBigramSpm S) where
  left := LlmBigramSpm.left
  right := LlmBigramSpm.right
  less := LlmBigramSpm.less
  bigram := spmBigram v
  outdated b l r := l.n == 0 || r.n == 0 || l.n + r.n != b.size

/-- The score of the token that two words make. -/
def spmKey (v : TokenTable S) (l r : List UInt8) : Option S :=
  (v.textToToken (l ++ r)).bind fun token => v.idToToken[token]?.map TokenData.score

end

/-! ## BPE -/

/-- The pre-tokenizers the loop asks about. -/
inductive VocabPreType where
  | gemma4
  | mmbert
  | other
  deriving DecidableEq

structure BpeVocab (S : Type) extends TokenTable S where
  bpeRanks : List UInt8 → List UInt8 → Option ℤ
  ignoreMerges : Bool
  preType : VocabPreType

structure LlmBigramBpe where
  left : ℕ
  right : ℕ
  text : List UInt8
  rank : ℤ
  size : ℕ

def LlmBigramBpe.less (l r : LlmBigramBpe) : Bool :=
  l.rank > r.rank || (l.rank == r.rank && l.left > r.left)

section
variable {S : Type}

/-- `find_bpe_rank`. It asserts that neither word has a space; a word of the pre-tokenizer has
none, since spaces are encoded or escaped before. -/
def BpeVocab.findBpeRank (v : BpeVocab S) (l r : List UInt8) : ℤ := (v.bpeRanks l r).getD (-1)

/-- The pair of `add_new_bigram`: its words have a rank. -/
def bpeBigram (v : BpeVocab S) (left right : ℕ) (l r : LlmSymbol) : Option LlmBigramBpe :=
  let rankFound := v.findBpeRank l.word r.word
  if rankFound < 0 then none
  else some ⟨left, right, l.word ++ r.word, rankFound, l.word.length + r.word.length⟩

def bpeQueue (v : BpeVocab S) : MergeQueue LlmBigramBpe where
  left := LlmBigramBpe.left
  right := LlmBigramBpe.right
  less := LlmBigramBpe.less
  bigram := bpeBigram v
  outdated b l r := l.n == 0 || r.n == 0 || l.word ++ r.word != b.text

/-- The rank of two words; the lowest is the greatest key. -/
def bpeKey (v : BpeVocab S) (l r : List UInt8) : Option ℤᵒᵈ :=
  let rankFound := v.findBpeRank l r
  if rankFound < 0 then none else some (OrderDual.toDual rankFound)

/-- The symbols of a word: one for all of it where merges are ignored for a token, or where it is a
token of newlines only, else one for each character. -/
def bpeSymbols (v : BpeVocab S) (word : List UInt8) : List LlmSymbol :=
  let newlines := (v.preType == .gemma4 || v.preType == .mmbert) && word.all (· == 10)
  if (v.ignoreMerges && (v.textToToken word).isSome) || (newlines && (v.textToToken word).isSome) then
    [⟨none, none, word, word.length⟩]
  else symbolsOf word

end

end MergeTokenizer
end RocmFpx

/-!
The work queues merge greedily. The symbols with bytes left are a chain over the text. A symbol
only grows by absorbing the next one, so that a queued pair whose sizes still add up is as it was
queued: neighbours, of the key they had. Every pair of neighbours with a key is in the queue.
-/

namespace RocmFpx
namespace MergeTokenizer

open GreedyMerge Unicode

/-! ## Symbols -/

theorem sym_of_le {symbols : List LlmSymbol} {i : ℕ} (h : symbols.length ≤ i) :
    sym symbols i = ⟨none, none, [], 0⟩ := List.getD_eq_default _ _ h

theorem lt_of_sym {symbols : List LlmSymbol} {i : ℕ} (h : (sym symbols i).n ≠ 0) :
    i < symbols.length := by
  by_contra hle
  rw [sym_of_le (not_lt.mp hle)] at h
  exact h rfl

theorem sym_modify (symbols : List LlmSymbol) (f : LlmSymbol → LlmSymbol) {i : ℕ}
    (hi : i < symbols.length) (k : ℕ) :
    sym (symbols.modify i f) k = if k = i then f (sym symbols k) else sym symbols k := by
  rw [sym, sym, List.getD_eq_getElem?_getD, List.getD_eq_getElem?_getD, List.getElem?_modify]
  by_cases h : k = i
  · obtain rfl := h
    simp [List.getElem?_eq_getElem hi]
  · rw [if_neg h]
    simp [Ne.symm h]

theorem length_absorb (symbols : List LlmSymbol) (i j : ℕ) :
    (absorb symbols i j).length = symbols.length := by
  rw [absorb]
  cases (sym symbols j).next <;> simp only [List.length_modify]

theorem sym_absorb {symbols : List LlmSymbol} {i j : ℕ} (hij : i ≠ j) (hi : i < symbols.length)
    (hj : j < symbols.length) (hnext : ∀ k, (sym symbols j).next = some k →
      k < symbols.length ∧ k ≠ i ∧ k ≠ j) (k : ℕ) :
    sym (absorb symbols i j) k =
      if k = i then
        { sym symbols i with n := (sym symbols i).n + (sym symbols j).n, next := (sym symbols j).next }
      else if k = j then { sym symbols j with n := 0 }
      else if (sym symbols j).next = some k then { sym symbols k with prev := some i }
      else sym symbols k := by
  have hbase : ∀ k, sym (((symbols.modify i fun s => { s with n := s.n + (sym symbols j).n }).modify j
      fun s => { s with n := 0 }).modify i fun s => { s with next := (sym symbols j).next }) k =
      if k = i then
        { sym symbols i with n := (sym symbols i).n + (sym symbols j).n, next := (sym symbols j).next }
      else if k = j then { sym symbols j with n := 0 }
      else sym symbols k := by
    intro k
    rw [sym_modify _ _ (by simpa only [List.length_modify] using hi),
      sym_modify _ _ (by simpa only [List.length_modify] using hj), sym_modify _ _ hi]
    by_cases hki : k = i
    · obtain rfl := hki
      simp only [if_true, if_neg hij]
    · by_cases hkj : k = j
      · obtain rfl := hkj
        simp only [if_neg hki, if_true]
      · simp only [if_neg hki, if_neg hkj]
  rw [absorb]
  cases hn : (sym symbols j).next with
  | none =>
    rw [hn] at hbase
    simp only [hbase, reduceCtorEq, if_false]
  | some next =>
    obtain ⟨hlt, hni, hnj⟩ := hnext next hn
    rw [hn] at hbase
    dsimp only
    rw [sym_modify _ _ (by simpa only [List.length_modify] using hlt)]
    simp only [hbase, Option.some.injEq]
    by_cases hk : k = next
    · obtain rfl := hk
      simp only [if_true, if_neg hni, if_neg hnj]
    · simp only [if_neg hk, if_neg (Ne.symm hk)]

/-! ## The chain -/

/-- The symbols `L` are a chain over the text `rest`, the first of them behind `prev`. -/
def Linked (symbols : List LlmSymbol) : Option ℕ → List ℕ → List UInt8 → Prop
  | _, [], rest => rest = []
  | prev, i :: L, rest =>
    (sym symbols i).prev = prev ∧ (sym symbols i).next = L.head? ∧ (sym symbols i).text = rest ∧
      (sym symbols i).n ≠ 0 ∧ (sym symbols i).n ≤ rest.length ∧
      Linked symbols (some i) L (rest.drop (sym symbols i).n)

theorem Linked.congr {symbols symbols' : List LlmSymbol} {prev : Option ℕ} {L : List ℕ}
    {rest : List UInt8} (h : Linked symbols prev L rest)
    (hsym : ∀ k ∈ L, sym symbols' k = sym symbols k) : Linked symbols' prev L rest := by
  induction L generalizing prev rest with
  | nil => exact h
  | cons i L ih =>
    obtain ⟨hprev, hnext, htext, hn, hle, hrest⟩ := h
    rw [Linked, hsym i List.mem_cons_self]
    exact ⟨hprev, hnext, htext, hn, hle, ih hrest fun k hk => hsym k (List.mem_cons_of_mem i hk)⟩

theorem Linked.split {symbols : List LlmSymbol} {prev : Option ℕ} {pre L : List ℕ}
    {rest : List UInt8} (h : Linked symbols prev (pre ++ L) rest) :
    ∃ rest', Linked symbols (pre.getLast?.or prev) L rest' := by
  induction pre generalizing prev rest with
  | nil => exact ⟨rest, h⟩
  | cons i pre ih =>
    obtain ⟨rest', hL⟩ := ih h.2.2.2.2.2
    refine ⟨rest', ?_⟩
    cases pre with
    | nil => exact hL
    | cons k pre =>
      rw [List.getLast?_cons_cons]
      obtain ⟨z, hz⟩ := Option.ne_none_iff_exists'.mp
        (mt List.getLast?_eq_none_iff.mp (List.cons_ne_nil k pre))
      rw [hz] at hL ⊢
      exact hL

/-- The chain of the symbols with bytes left. -/
structure Chain (symbols : List LlmSymbol) (L : List ℕ) (text : List UInt8) : Prop where
  sorted : L.Pairwise (· < ·)
  linked : Linked symbols none L text
  dead : ∀ k, k ∉ L → (sym symbols k).n = 0

section
variable {symbols : List LlmSymbol} {L pre post : List ℕ} {text : List UInt8} {i j : ℕ}

theorem Chain.nodup (h : Chain symbols L text) : L.Nodup := h.sorted.imp fun hlt => hlt.ne

theorem Chain.live_iff (h : Chain symbols L text) : (sym symbols i).n ≠ 0 ↔ i ∈ L := by
  refine ⟨fun hn => by_contra fun hi => hn (h.dead i hi), fun hi => ?_⟩
  obtain ⟨pre, post, rfl⟩ := List.append_of_mem hi
  obtain ⟨rest, -, -, -, hn, -⟩ := h.linked.split
  exact hn

theorem Chain.n_le (h : Chain symbols L text) (i : ℕ) :
    (sym symbols i).n ≤ (sym symbols i).text.length := by
  by_cases hi : i ∈ L
  · obtain ⟨pre, post, rfl⟩ := List.append_of_mem hi
    obtain ⟨rest, -, -, htext, -, hle, -⟩ := h.linked.split
    rwa [htext]
  · rw [h.dead i hi]
    exact Nat.zero_le _

theorem Chain.prev_next (h : Chain symbols (pre ++ i :: post) text) :
    (sym symbols i).prev = pre.getLast? ∧ (sym symbols i).next = post.head? := by
  obtain ⟨rest, hprev, hnext, -⟩ := h.linked.split
  exact ⟨hprev.trans (Option.or_none), hnext⟩

theorem Chain.drop_n (h : Chain symbols (pre ++ i :: j :: post) text) :
    (sym symbols j).text = (sym symbols i).text.drop (sym symbols i).n := by
  obtain ⟨rest, -, -, htext, -, -, -, -, htext', -⟩ := h.linked.split
  rw [htext, htext']

/-- A symbol and the one behind it are neighbours in the chain. -/
theorem Chain.exists_split (h : Chain symbols L text) (hi : (sym symbols i).n ≠ 0)
    (hnext : (sym symbols i).next = some j) : ∃ pre post, L = pre ++ i :: j :: post := by
  obtain ⟨pre, post, rfl⟩ := List.append_of_mem (h.live_iff.mp hi)
  rw [h.prev_next.2] at hnext
  obtain ⟨k, post, rfl⟩ := List.exists_cons_of_ne_nil
    (fun hnil : post = [] => by rw [hnil] at hnext; cases hnext)
  obtain rfl := Option.some.inj hnext
  exact ⟨pre, post, rfl⟩

theorem Chain.ne (h : Chain symbols (pre ++ i :: j :: post) text) : i ≠ j := by
  have hnodup := (List.nodup_append.mp h.nodup).2.1
  exact fun he => (List.nodup_cons.mp hnodup).1 (he ▸ List.mem_cons_self)

theorem Chain.sym_absorb (h : Chain symbols (pre ++ i :: j :: post) text) (k : ℕ) :
    sym (absorb symbols i j) k =
      if k = i then
        { sym symbols i with n := (sym symbols i).n + (sym symbols j).n, next := (sym symbols j).next }
      else if k = j then { sym symbols j with n := 0 }
      else if (sym symbols j).next = some k then { sym symbols k with prev := some i }
      else sym symbols k := by
  have hi : (sym symbols i).n ≠ 0 := h.live_iff.mpr (by simp)
  have hj : (sym symbols j).n ≠ 0 := h.live_iff.mpr (by simp)
  refine MergeTokenizer.sym_absorb h.ne (lt_of_sym hi) (lt_of_sym hj) (fun k hk => ?_) k
  have hsplit : pre ++ i :: j :: post = (pre ++ [i]) ++ j :: post := by simp
  rw [hsplit] at h
  rw [h.prev_next.2] at hk
  have hpost : k ∈ post := List.mem_of_mem_head? hk
  have hnodup := List.nodup_append.mp h.nodup
  refine ⟨lt_of_sym (h.live_iff.mpr (by simp [hpost])), ?_, ?_⟩
  · rintro rfl
    exact hnodup.2.2 k (by simp) k (by simp [hpost]) rfl
  · rintro rfl
    exact (List.nodup_cons.mp hnodup.2.1).1 hpost

theorem Chain.sym_absorb_pre (h : Chain symbols (pre ++ i :: j :: post) text) {k : ℕ}
    (hk : k ∈ pre) : sym (absorb symbols i j) k = sym symbols k := by
  have hnodup := List.nodup_append.mp h.nodup
  have hki : k ≠ i := hnodup.2.2 k hk i (by simp)
  have hkj : k ≠ j := hnodup.2.2 k hk j (by simp)
  have hnext : (sym symbols j).next ≠ some k := by
    have hsplit : pre ++ i :: j :: post = (pre ++ [i]) ++ j :: post := by simp
    have h' := h
    rw [hsplit] at h'
    rw [h'.prev_next.2]
    exact fun he => hnodup.2.2 k hk k (by simp [List.mem_of_mem_head? he]) rfl
  rw [h.sym_absorb, if_neg hki, if_neg hkj, if_neg hnext]

theorem Chain.linked_absorb (h : Chain symbols (pre ++ i :: j :: post) text) {rest : List UInt8}
    (hpost : Linked symbols (some j) post rest) :
    Linked (absorb symbols i j) (some i) post rest := by
  have hsplit : pre ++ i :: j :: post = (pre ++ [i]) ++ j :: post := by simp
  have hnext : (sym symbols j).next = post.head? := by
    have h' := h
    rw [hsplit] at h'
    exact h'.prev_next.2
  have hnodup := (List.nodup_append.mp h.nodup).2.1
  obtain ⟨hi, hj, hnodup⟩ : i ∉ post ∧ j ∉ post ∧ post.Nodup := by
    obtain ⟨hi, hnodup⟩ := List.nodup_cons.mp hnodup
    obtain ⟨hj, hnodup⟩ := List.nodup_cons.mp hnodup
    exact ⟨fun hmem => hi (List.mem_cons_of_mem j hmem), hj, hnodup⟩
  cases post with
  | nil => exact hpost
  | cons k post =>
    rw [List.head?_cons] at hnext
    have hki : k ≠ i := fun he => hi (he ▸ List.mem_cons_self)
    have hkj : k ≠ j := fun he => hj (he ▸ List.mem_cons_self)
    have hk : sym (absorb symbols i j) k = { sym symbols k with prev := some i } := by
      rw [h.sym_absorb, if_neg hki, if_neg hkj, if_pos hnext]
    obtain ⟨-, hnext', htext, hn, hle, hrest⟩ := hpost
    rw [Linked, hk]
    refine ⟨rfl, hnext', htext, hn, hle, hrest.congr fun m hm => ?_⟩
    have hmi : m ≠ i := fun he => hi (he ▸ List.mem_cons_of_mem k hm)
    have hmj : m ≠ j := fun he => hj (he ▸ List.mem_cons_of_mem k hm)
    have hmk : m ≠ k := fun he => (List.nodup_cons.mp hnodup).1 (he ▸ hm)
    rw [h.sym_absorb, if_neg hmi, if_neg hmj, if_neg]
    rw [hnext]
    exact fun he => hmk (Option.some.inj he).symm

theorem linked_absorb {prev : Option ℕ} {rest : List UInt8} {pre' : List ℕ}
    (h : Chain symbols (pre ++ i :: j :: post) text) (hsub : pre' ⊆ pre)
    (hl : Linked symbols prev (pre' ++ i :: j :: post) rest) :
    Linked (absorb symbols i j) prev (pre' ++ i :: post) rest := by
  induction pre' generalizing prev rest with
  | nil =>
    obtain ⟨hprev, -, htext, hn, hle, -, hnext', htext', -, hle', hrest⟩ := hl
    have hi : sym (absorb symbols i j) i = { sym symbols i with
        n := (sym symbols i).n + (sym symbols j).n, next := (sym symbols j).next } := by
      rw [h.sym_absorb, if_pos rfl]
    rw [List.length_drop] at hle'
    rw [List.nil_append, Linked, hi]
    refine ⟨hprev, hnext', htext, by dsimp only; omega, by dsimp only; omega, ?_⟩
    dsimp only
    rw [← List.drop_drop]
    exact h.linked_absorb hrest
  | cons x pre' ih =>
    obtain ⟨hprev, hnext, htext, hn, hle, hrest⟩ := hl
    rw [List.cons_append, Linked, h.sym_absorb_pre (hsub List.mem_cons_self)]
    refine ⟨hprev, ?_, htext, hn, hle, ih (fun y hy => hsub (List.mem_cons_of_mem x hy)) hrest⟩
    rw [hnext]
    cases pre' <;> rfl

theorem Chain.absorb (h : Chain symbols (pre ++ i :: j :: post) text) :
    Chain (absorb symbols i j) (pre ++ i :: post) text where
  sorted := h.sorted.sublist (List.Sublist.append_left ((List.sublist_cons_self j post).cons_cons i) pre)
  linked := MergeTokenizer.linked_absorb h (List.Subset.refl pre) h.linked
  dead k hk := by
    rw [List.mem_append, List.mem_cons, not_or, not_or] at hk
    obtain ⟨hpre, hki, hpost⟩ := hk
    rw [h.sym_absorb, if_neg hki]
    by_cases hkj : k = j
    · rw [if_pos hkj]
    · have hdead : (sym symbols k).n = 0 := h.dead k (by simp [hpre, hki, hkj, hpost])
      rw [if_neg hkj]
      split_ifs <;> exact hdead

theorem Chain.text_absorb (h : Chain symbols (pre ++ i :: j :: post) text) (k : ℕ) :
    (sym (MergeTokenizer.absorb symbols i j) k).text = (sym symbols k).text := by
  rw [h.sym_absorb]
  split_ifs with hi hj
  · rw [hi]
  · rw [hj]
  · rfl
  · rfl

theorem Chain.word_absorb (h : Chain symbols (pre ++ i :: j :: post) text) :
    (sym (MergeTokenizer.absorb symbols i j) i).word = (sym symbols i).word ++ (sym symbols j).word := by
  rw [h.sym_absorb, if_pos rfl, LlmSymbol.word, LlmSymbol.word, LlmSymbol.word, List.take_add,
    h.drop_n]

theorem Chain.n_absorb (h : Chain symbols (pre ++ i :: j :: post) text) {k : ℕ} (hi : k ≠ i)
    (hj : k ≠ j) : (sym (MergeTokenizer.absorb symbols i j) k).n = (sym symbols k).n := by
  rw [h.sym_absorb, if_neg hi, if_neg hj]
  split_ifs <;> rfl

theorem Chain.next_absorb (h : Chain symbols (pre ++ i :: j :: post) text) {k : ℕ} (hi : k ≠ i) :
    (sym (MergeTokenizer.absorb symbols i j) k).next = (sym symbols k).next := by
  rw [h.sym_absorb, if_neg hi]
  split_ifs with hj
  · rw [hj]
  · rfl
  · rfl

theorem Chain.words_absorb (h : Chain symbols (pre ++ i :: j :: post) text) :
    (pre ++ i :: post).map (fun k => (sym (MergeTokenizer.absorb symbols i j) k).word) =
      pre.map (fun k => (sym symbols k).word) ++ ((sym symbols i).word ++ (sym symbols j).word) ::
        post.map fun k => (sym symbols k).word := by
  have hnodup := List.nodup_append.mp h.nodup
  have hsame : ∀ k, k ≠ i → k ≠ j →
      (sym (MergeTokenizer.absorb symbols i j) k).word = (sym symbols k).word := by
    intro k hi hj
    rw [LlmSymbol.word, LlmSymbol.word, h.text_absorb, h.n_absorb hi hj]
  rw [List.map_append, List.map_cons, h.word_absorb]
  congr 1
  · refine List.map_congr_left fun k hk => hsame k ?_ ?_
    · exact hnodup.2.2 k hk i (by simp)
    · exact hnodup.2.2 k hk j (by simp)
  · congr 1
    refine List.map_congr_left fun k hk => hsame k ?_ ?_
    · rintro rfl
      exact (List.nodup_cons.mp hnodup.2.1).1 (List.mem_cons_of_mem j hk)
    · rintro rfl
      exact (List.nodup_cons.mp (List.nodup_cons.mp hnodup.2.1).2).1 hk

end

/-! ## What the queues agree on -/

/-- Two symbols of which the second begins where the first ends. -/
structure Adjoining (l r : LlmSymbol) : Prop where
  left_ne : l.n ≠ 0
  left_le : l.n ≤ l.text.length
  right_ne : r.n ≠ 0
  right_le : r.n ≤ r.text.length
  text : r.text = l.text.drop l.n

theorem Adjoining.take_add {l r : LlmSymbol} (h : Adjoining l r) :
    l.text.take (l.n + r.n) = l.word ++ r.word := by
  rw [List.take_add, ← h.text]
  rfl

theorem length_word {s : LlmSymbol} (h : s.n ≤ s.text.length) : s.word.length = s.n :=
  (List.length_take).trans (min_eq_left h)

theorem Chain.adjoining {symbols : List LlmSymbol} {pre post : List ℕ} {text : List UInt8} {i j : ℕ}
    (h : Chain symbols (pre ++ i :: j :: post) text) :
    Adjoining (sym symbols i) (sym symbols j) where
  left_ne := h.live_iff.mpr (by simp)
  left_le := h.n_le i
  right_ne := h.live_iff.mpr (by simp)
  right_le := h.n_le j
  text := h.drop_n

section
variable {B K : Type} [LinearOrder K]

/-- A queue whose pairs have a size and a key, the key that `pairKey` gives their words. -/
structure Merges (q : MergeQueue B) (size : B → ℕ) (key : B → K)
    (pairKey : List UInt8 → List UInt8 → Option K) : Prop where
  less_iff (x y : B) :
    q.less x y = true ↔ key x < key y ∨ key x = key y ∧ q.left y < q.left x
  bigram_none {i j : ℕ} {l r : LlmSymbol} : Adjoining l r → q.bigram i j l r = none →
    pairKey l.word r.word = none
  bigram_some {i j : ℕ} {l r : LlmSymbol} {b : B} : Adjoining l r → q.bigram i j l r = some b →
    q.left b = i ∧ q.right b = j ∧ size b = l.n + r.n ∧ pairKey l.word r.word = some (key b) ∧
      q.outdated b l r = false
  outdated_congr {b : B} {l l' r r' : LlmSymbol} : l'.text = l.text → l'.n = l.n →
    r'.text = r.text → r'.n = r.n → q.outdated b l' r' = q.outdated b l r
  size_of_not_outdated {b : B} {l r : LlmSymbol} : l.n ≤ l.text.length → r.n ≤ r.text.length →
    q.outdated b l r = false → l.n ≠ 0 ∧ r.n ≠ 0 ∧ l.n + r.n = size b

theorem LlmBigramSpm.less_iff {S : Type} [LinearOrder S] (x y : LlmBigramSpm S) :
    LlmBigramSpm.less x y = true ↔
      x.score < y.score ∨ x.score = y.score ∧ y.left < x.left := by
  simp only [less, Bool.or_eq_true, Bool.and_eq_true, decide_eq_true_eq, beq_iff_eq, gt_iff_lt]

theorem spmBigram_eq {S : Type} [LinearOrder S] (v : TokenTable S) {l r : LlmSymbol}
    (h : Adjoining l r) (i j : ℕ) :
    spmBigram v i j l r = (spmKey v l.word r.word).map fun score => ⟨i, j, score, l.n + r.n⟩ := by
  have hlen : (l.word ++ r.word).length = l.n + r.n := by
    rw [List.length_append, length_word h.left_le, length_word h.right_le]
  rw [spmBigram, spmKey, h.take_add]
  cases v.textToToken (l.word ++ r.word) with
  | none => rfl
  | some token =>
    rw [Option.bind_some]
    dsimp only
    cases v.idToToken[token]? with
    | none => rfl
    | some tokData => simp only [Option.map_some, hlen]

theorem spmQueue_merges {S : Type} [LinearOrder S] (v : TokenTable S) :
    Merges (spmQueue v) LlmBigramSpm.size LlmBigramSpm.score (spmKey v) where
  less_iff := LlmBigramSpm.less_iff
  bigram_none h hnone := by
    change spmBigram v _ _ _ _ = none at hnone
    rw [spmBigram_eq v h] at hnone
    exact Option.map_eq_none_iff.mp hnone
  bigram_some {i j l r b} h hsome := by
    change spmBigram v i j l r = some b at hsome
    rw [spmBigram_eq v h] at hsome
    obtain ⟨score, hscore, rfl⟩ := Option.map_eq_some_iff.mp hsome
    refine ⟨rfl, rfl, rfl, hscore, ?_⟩
    simp [spmQueue, h.left_ne, h.right_ne]
  outdated_congr _ hl _ hr := by simp only [spmQueue, hl, hr]
  size_of_not_outdated _ _ h := by simpa [spmQueue, and_assoc] using h

theorem LlmBigramBpe.less_iff (x y : LlmBigramBpe) : LlmBigramBpe.less x y = true ↔
    OrderDual.toDual x.rank < OrderDual.toDual y.rank ∨
      OrderDual.toDual x.rank = OrderDual.toDual y.rank ∧ y.left < x.left := by
  simp only [less, Bool.or_eq_true, Bool.and_eq_true, decide_eq_true_eq, beq_iff_eq, gt_iff_lt,
    OrderDual.toDual_lt_toDual, OrderDual.toDual_inj]

theorem bpeQueue_merges {S : Type} (v : BpeVocab S) :
    Merges (bpeQueue v) (fun b => b.text.length) (fun b => OrderDual.toDual b.rank) (bpeKey v) where
  less_iff := LlmBigramBpe.less_iff
  bigram_none {i j l r} _ hnone := by
    simp only [bpeQueue, bpeBigram] at hnone
    rw [bpeKey]
    by_cases hrank : v.findBpeRank l.word r.word < 0
    · exact if_pos hrank
    · rw [if_neg hrank] at hnone
      cases hnone
  bigram_some {i j l r b} h hsome := by
    simp only [bpeQueue, bpeBigram] at hsome
    rw [bpeKey]
    by_cases hrank : v.findBpeRank l.word r.word < 0
    · rw [if_pos hrank] at hsome
      cases hsome
    · rw [if_neg hrank] at hsome ⊢
      obtain rfl := Option.some.inj hsome
      refine ⟨rfl, rfl, ?_, rfl, ?_⟩
      · rw [List.length_append, length_word h.left_le, length_word h.right_le]
      · simp [bpeQueue, h.left_ne, h.right_ne]
  outdated_congr hlt hl hrt hr := by simp only [bpeQueue, LlmSymbol.word, hlt, hl, hrt, hr]
  size_of_not_outdated {b l r} hl hr h := by
    simp only [bpeQueue, Bool.or_eq_false_iff, beq_eq_false_iff_ne, bne_eq_false_iff_eq] at h
    obtain ⟨⟨hln, hrn⟩, htext⟩ := h
    refine ⟨hln, hrn, ?_⟩
    rw [← htext, List.length_append, length_word hl, length_word hr]

end

end MergeTokenizer
end RocmFpx
