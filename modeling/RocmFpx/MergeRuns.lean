import Mathlib.Data.List.Sort
import RocmFpx.MergeTokenizer

/-!
Runs of the merging sessions. One invariant ties the queue to the chain, each round keeps it, and a
round either drops a pair that is out of date or joins the pair that greedy merging joins.
-/

namespace RocmFpx
namespace MergeTokenizer

open GreedyMerge Unicode

section
variable {B : Type} {q : MergeQueue B} {pq : PriorityQueue B q.less}

/-! ## Queueing a pair -/

theorem addBigram_symbols (s : Session q pq) (l r : Option ℕ) :
    (s.addBigram l r).symbols = s.symbols := by
  cases l with
  | none => rfl
  | some i =>
    cases r with
    | none => rfl
    | some j =>
      rw [Session.addBigram]
      split <;> rfl

theorem mem_addBigram (s : Session q pq) {l r : Option ℕ} {b : B} :
    b ∈ pq.elems (s.addBigram l r).workQueue ↔ b ∈ pq.elems s.workQueue ∨
      ∃ i j, l = some i ∧ r = some j ∧
        q.bigram i j (sym s.symbols i) (sym s.symbols j) = some b := by
  cases l with
  | none => simp [Session.addBigram]
  | some i =>
    cases r with
    | none => simp [Session.addBigram]
    | some j =>
      simp only [Option.some.injEq, exists_and_left, exists_eq_left', Session.addBigram]
      cases hb : q.bigram i j (sym s.symbols i) (sym s.symbols j) with
      | none => simp
      | some b' =>
        dsimp only
        rw [pq.mem_push, or_comm, Option.some.injEq, eq_comm]

theorem length_addBigram (s : Session q pq) (l r : Option ℕ) :
    (pq.elems (s.addBigram l r).workQueue).length ≤ (pq.elems s.workQueue).length + 1 := by
  cases l with
  | none => exact Nat.le_succ _
  | some i =>
    cases r with
    | none => exact Nat.le_succ _
    | some j =>
      rw [Session.addBigram]
      split
      · exact (pq.length_push _ _).le
      · exact Nat.le_succ _

/-! ## What a queued pair was -/

variable {K : Type} {size : B → ℕ} {key : B → K} {pairKey : List UInt8 → List UInt8 → Option K}

/-- A pair was queued when its symbols were neighbours; the left one has not changed, has grown, or
is gone, the right one is as long at least, or gone. -/
structure WasQueued (q : MergeQueue B) (size : B → ℕ) (key : B → K)
    (pairKey : List UInt8 → List UInt8 → Option K) (symbols : List LlmSymbol) (b : B)
    (nl nr : ℕ) : Prop where
  size : size b = nl + nr
  key : pairKey ((sym symbols (q.left b)).text.take nl) ((sym symbols (q.right b)).text.take nr) =
    some (key b)
  left : (sym symbols (q.left b)).n = 0 ∨ nl < (sym symbols (q.left b)).n ∨
    (sym symbols (q.left b)).n = nl ∧ (sym symbols (q.left b)).next = some (q.right b)
  right : (sym symbols (q.right b)).n = 0 ∨ nr ≤ (sym symbols (q.right b)).n

theorem WasQueued.absorb {symbols : List LlmSymbol} {pre post : List ℕ} {i j : ℕ}
    {text : List UInt8} (hc : Chain symbols (pre ++ i :: j :: post) text) {b : B} {nl nr : ℕ}
    (hb : WasQueued q size key pairKey symbols b nl nr) :
    WasQueued q size key pairKey (MergeTokenizer.absorb symbols i j) b nl nr := by
  have hi : (sym symbols i).n ≠ 0 := hc.live_iff.mpr (by simp)
  have hgrow : (sym (MergeTokenizer.absorb symbols i j) i).n = (sym symbols i).n + (sym symbols j).n := by
    rw [hc.sym_absorb, if_pos rfl]
  have hj : (sym symbols j).n ≠ 0 := hc.live_iff.mpr (by simp)
  have hgone : (sym (MergeTokenizer.absorb symbols i j) j).n = 0 := by
    rw [hc.sym_absorb, if_neg hc.ne.symm, if_pos rfl]
  obtain ⟨hsize, hkey, hleft, hright⟩ := hb
  refine ⟨hsize, ?_, ?_, ?_⟩
  · rw [hc.text_absorb, hc.text_absorb, hkey]
  · by_cases hli : q.left b = i
    · rw [hli] at hleft ⊢
      obtain hlt | ⟨hnl, -⟩ := hleft.resolve_left hi
      · exact .inr (.inl (by omega))
      · exact .inr (.inl (by omega))
    · by_cases hlj : q.left b = j
      · rw [hlj]
        exact .inl hgone
      · rwa [hc.n_absorb hli hlj, hc.next_absorb hli]
  · by_cases hri : q.right b = i
    · rw [hri] at hright ⊢
      have hge := hright.resolve_left hi
      exact .inr (by omega)
    · by_cases hrj : q.right b = j
      · rw [hrj]
        exact .inl hgone
      · rwa [hc.n_absorb hri hrj]

/-- The queue and the chain `L` of a session. -/
structure Tied (size : B → ℕ) (key : B → K) (pairKey : List UInt8 → List UInt8 → Option K)
    (s : Session q pq) (L : List ℕ) (text : List UInt8) : Prop where
  chain : Chain s.symbols L text
  queued : ∀ b ∈ pq.elems s.workQueue, ∃ nl nr, WasQueued q size key pairKey s.symbols b nl nr
  known : ∀ pre i j post, L = pre ++ i :: j :: post → ∀ k,
    pairKey (sym s.symbols i).word (sym s.symbols j).word = some k →
      ∃ b ∈ pq.elems s.workQueue, q.left b = i ∧ q.right b = j ∧
        q.outdated b (sym s.symbols i) (sym s.symbols j) = false

def words (symbols : List LlmSymbol) (L : List ℕ) : List (List UInt8) :=
  L.map fun k => (sym symbols k).word

theorem keys_words {p : K → Prop} {symbols : List LlmSymbol} {L : List ℕ}
    (h : ∀ pre i j post, L = pre ++ i :: j :: post → ∀ k,
      pairKey (sym symbols i).word (sym symbols j).word = some k → p k) :
    Keys pairKey p (words symbols L) := by
  rw [keys_iff]
  intro pre a b post he k hk
  obtain ⟨pre', rest, hL, -, hrest⟩ := List.map_eq_append_iff.mp he
  obtain ⟨i, rest', rfl, rfl, hrest'⟩ := List.map_eq_cons_iff.mp hrest
  obtain ⟨j, post', rfl, rfl, -⟩ := List.map_eq_cons_iff.mp hrest'
  exact h pre' i j post' hL k hk

theorem Tied.round_none {s : Session q pq} {L : List ℕ} {text : List UInt8}
    (h : Tied size key pairKey s L text) (hround : s.round = none) :
    Keys pairKey (fun _ => False) (words s.symbols L) := by
  rw [Session.round] at hround
  cases hpop : pq.pop s.workQueue with
  | some p =>
    rw [hpop] at hround
    dsimp only at hround
    split_ifs at hround
  | none =>
    refine keys_words fun pre i j post hL k hk => ?_
    obtain ⟨b, hb, -⟩ := h.known pre i j post hL k hk
    rw [pq.elems_of_pop_none hpop] at hb
    cases hb

theorem Tied.drop {s : Session q pq} {L : List ℕ} {text : List UInt8}
    (h : Tied size key pairKey s L text) {b : B} {rest : pq.Carrier}
    (hpop : pq.pop s.workQueue = some (b, rest))
    (hout : q.outdated b (sym s.symbols (q.left b)) (sym s.symbols (q.right b)) = true) :
    Tied size key pairKey { s with workQueue := rest } L text := by
  have hmem : ∀ x, x ∈ pq.elems s.workQueue ↔ x = b ∨ x ∈ pq.elems rest := fun x => by
    rw [(pq.elems_of_pop hpop).mem_iff, List.mem_cons]
  refine ⟨h.chain, fun x hx => h.queued x ((hmem x).mpr (.inr hx)), fun pre i j post hL k hk => ?_⟩
  obtain ⟨b', hb', rfl, rfl, hout'⟩ := h.known pre i j post hL k hk
  refine ⟨b', ((hmem b').mp hb').resolve_left ?_, rfl, rfl, hout'⟩
  rintro rfl
  rw [hout] at hout'
  cases hout'

variable [LinearOrder K]

/-- A pair that passes the check is a pair of neighbours, of the key it was queued with. -/
theorem WasQueued.current (hq : Merges q size key pairKey) {symbols : List LlmSymbol} {L : List ℕ}
    {text : List UInt8} (hc : Chain symbols L text) {b : B} {nl nr : ℕ}
    (hb : WasQueued q size key pairKey symbols b nl nr)
    (h : q.outdated b (sym symbols (q.left b)) (sym symbols (q.right b)) = false) :
    (sym symbols (q.left b)).n ≠ 0 ∧ (sym symbols (q.left b)).next = some (q.right b) ∧
      pairKey (sym symbols (q.left b)).word (sym symbols (q.right b)).word = some (key b) := by
  obtain ⟨hl, hr, hsum⟩ := hq.size_of_not_outdated (hc.n_le _) (hc.n_le _) h
  obtain ⟨hsize, hkey, hleft, hright⟩ := hb
  have hge := hright.resolve_left hr
  -- neither symbol can have become shorter, so neither has become longer
  obtain hlt | ⟨hnl, hnext⟩ := hleft.resolve_left hl
  · omega
  have hnr : (sym symbols (q.right b)).n = nr := by omega
  refine ⟨hl, hnext, ?_⟩
  rw [LlmSymbol.word, LlmSymbol.word, hnl, hnr, hkey]

theorem wasQueued_of_bigram (hq : Merges q size key pairKey) {symbols : List LlmSymbol}
    {pre post : List ℕ} {i j : ℕ} {text : List UInt8}
    (hc : Chain symbols (pre ++ i :: j :: post) text) {b : B}
    (h : q.bigram i j (sym symbols i) (sym symbols j) = some b) :
    WasQueued q size key pairKey symbols b (sym symbols i).n (sym symbols j).n := by
  obtain ⟨rfl, rfl, hsize, hkey, -⟩ := hq.bigram_some hc.adjoining h
  exact ⟨hsize, hkey, .inr (.inr ⟨rfl, hc.prev_next.2⟩), .inr le_rfl⟩

/-! ## The first queue -/

theorem start_fold (pq : PriorityQueue B q.less) (symbols : List LlmSymbol) (m : ℕ) :
    let s : Session q pq := (List.range m).foldl
      (fun s i => s.addBigram (some i) (some (i + 1))) ⟨symbols, pq.empty, []⟩
    s.symbols = symbols ∧ (pq.elems s.workQueue).length ≤ m ∧
      ∀ b, b ∈ pq.elems s.workQueue ↔
        ∃ i < m, q.bigram i (i + 1) (sym symbols i) (sym symbols (i + 1)) = some b := by
  induction m with
  | zero => simp [pq.elems_empty]
  | succ m ih =>
    obtain ⟨hsymbols, hlen, hmem⟩ := ih
    simp only [List.range_succ, List.foldl_append, List.foldl_cons, List.foldl_nil]
    refine ⟨(addBigram_symbols _ _ _).trans hsymbols, ?_, fun b => ?_⟩
    · exact (length_addBigram _ _ _).trans (Nat.succ_le_succ hlen)
    · rw [mem_addBigram, hmem, hsymbols]
      constructor
      · rintro (⟨i, hi, hb⟩ | ⟨i, j, hi, hj, hb⟩)
        · exact ⟨i, hi.trans (Nat.lt_succ_self m), hb⟩
        · obtain rfl := Option.some.inj hi
          obtain rfl := Option.some.inj hj
          exact ⟨m, Nat.lt_succ_self m, hb⟩
      · rintro ⟨i, hi, hb⟩
        obtain hlt | rfl := Nat.lt_succ_iff_lt_or_eq.mp hi
        · exact .inl ⟨i, hlt, hb⟩
        · exact .inr ⟨i, i + 1, rfl, rfl, hb⟩

theorem range_split {n i j : ℕ} {pre post : List ℕ} (h : List.range n = pre ++ i :: j :: post) :
    j = i + 1 ∧ j < n := by
  have hi : (List.range n)[pre.length]? = some i := by
    rw [h, List.getElem?_append_right le_rfl, Nat.sub_self, List.getElem?_cons_zero]
  have hj : (List.range n)[pre.length + 1]? = some j := by
    rw [h, List.getElem?_append_right (Nat.le_add_right _ 1), Nat.add_sub_cancel_left]
    rfl
  rw [List.getElem?_eq_some_iff] at hi hj
  obtain ⟨-, rfl⟩ := hi
  obtain ⟨hlt, rfl⟩ := hj
  rw [List.length_range] at hlt
  simp only [List.getElem_range]
  exact ⟨trivial, hlt⟩

theorem tied_start (hq : Merges q size key pairKey) (pq : PriorityQueue B q.less)
    {symbols : List LlmSymbol} {text : List UInt8}
    (hc : Chain symbols (List.range symbols.length) text) :
    Tied size key pairKey (Session.start pq symbols) (List.range symbols.length) text := by
  obtain ⟨hsymbols, -, hmem⟩ := start_fold pq symbols (symbols.length - 1)
  have hsplit : ∀ i, i + 1 < symbols.length → ∃ pre post,
      List.range symbols.length = pre ++ i :: (i + 1) :: post := by
    intro i hi
    refine ⟨(List.range symbols.length).take i, (List.range symbols.length).drop (i + 2), ?_⟩
    have hlen : i + 1 < (List.range symbols.length).length := by rwa [List.length_range]
    conv_lhs => rw [← List.take_append_drop i (List.range symbols.length)]
    rw [List.drop_eq_getElem_cons (Nat.lt_of_succ_lt hlen), List.drop_eq_getElem_cons hlen,
      List.getElem_range, List.getElem_range]
  refine ⟨?_, fun b hb => ?_, fun pre i j post hL k hk => ?_⟩
  · rw [Session.start, hsymbols]
    exact hc
  · rw [Session.start, hmem] at hb
    obtain ⟨i, hi, hb⟩ := hb
    obtain ⟨pre, post, he⟩ := hsplit i (by omega)
    rw [Session.start, hsymbols]
    exact ⟨_, _, wasQueued_of_bigram hq (he ▸ hc) hb⟩
  · rw [Session.start, hsymbols] at hk ⊢
    obtain ⟨rfl, hlt⟩ := range_split hL
    rw [hL] at hc
    cases hb : q.bigram i (i + 1) (sym symbols i) (sym symbols (i + 1)) with
    | none =>
      rw [hq.bigram_none hc.adjoining hb] at hk
      cases hk
    | some b =>
      obtain ⟨hleft, hright, -, -, hout⟩ := hq.bigram_some hc.adjoining hb
      exact ⟨b, (hmem b).mpr ⟨i, by omega, hb⟩, hleft, hright, hout⟩

/-! ## One round -/

theorem Tied.key_le (hq : Merges q size key pairKey) {s : Session q pq} {L : List ℕ}
    {text : List UInt8} (h : Tied size key pairKey s L text) {b : B} {rest : pq.Carrier}
    (hpop : pq.pop s.workQueue = some (b, rest)) {pre post : List ℕ} {i j : ℕ}
    (hL : L = pre ++ i :: j :: post) {k : K}
    (hk : pairKey (sym s.symbols i).word (sym s.symbols j).word = some k) :
    k ≤ key b ∧ (k = key b → q.left b ≤ i) := by
  obtain ⟨b', hb', rfl, rfl, hout⟩ := h.known pre i j post hL k hk
  obtain ⟨nl, nr, hwas⟩ := h.queued b' hb'
  obtain ⟨-, -, hkey⟩ := hwas.current hq h.chain hout
  obtain rfl := Option.some.inj (hk.symm.trans hkey)
  have hless := pq.not_less_of_pop hpop hb'
  rw [Bool.eq_false_iff, ne_eq, hq.less_iff, not_or, not_and, not_lt, not_lt] at hless
  exact ⟨hless.1, fun he => hless.2 he.symm⟩

theorem Tied.best (hq : Merges q size key pairKey) {s : Session q pq} {text : List UInt8}
    {pre post : List ℕ} {b : B} {rest : pq.Carrier}
    (h : Tied size key pairKey s (pre ++ q.left b :: q.right b :: post) text)
    (hpop : pq.pop s.workQueue = some (b, rest))
    (hkey : pairKey (sym s.symbols (q.left b)).word (sym s.symbols (q.right b)).word =
      some (key b)) :
    Best pairKey (words s.symbols (pre ++ q.left b :: q.right b :: post)) (key b)
      (words (absorb s.symbols (q.left b) (q.right b)) (pre ++ q.left b :: post)) := by
  refine ⟨words s.symbols pre, _, _, words s.symbols post, ?_, h.chain.words_absorb, hkey, ?_, ?_⟩
  · rw [words, List.map_append, List.map_cons, List.map_cons]
    rfl
  · have hpre : words s.symbols pre ++ [(sym s.symbols (q.left b)).word] =
        words s.symbols (pre ++ [q.left b]) := by
      rw [words, words, List.map_append]
      rfl
    rw [hpre]
    refine keys_words fun pre' i j post' he k hk => ?_
    have hL : pre ++ q.left b :: q.right b :: post =
        pre' ++ i :: j :: (post' ++ q.right b :: post) := by
      have := congrArg (· ++ q.right b :: post) he
      simpa using this
    obtain ⟨hle, htie⟩ := h.key_le hq hpop hL hk
    refine lt_of_le_of_ne hle fun hek => ?_
    have hlt : i < q.left b := by
      have hsorted : (pre ++ [q.left b]).Pairwise (· < ·) :=
        h.chain.sorted.sublist (List.Sublist.append_left
          (List.singleton_sublist.mpr List.mem_cons_self) pre)
      rw [he] at hsorted
      have hlast : q.left b ∈ j :: post' := by
        have hget := congrArg List.getLast? he
        rw [List.getLast?_concat, List.getLast?_append_of_ne_nil _ (List.cons_ne_nil _ _),
          List.getLast?_cons_cons] at hget
        exact List.mem_of_getLast? hget.symm
      exact (List.pairwise_cons.mp (List.pairwise_append.mp hsorted).2.1).1 _ hlast
    exact absurd (htie hek) (not_le.mpr hlt)
  · refine keys_words (L := q.right b :: post) fun pre' i j post' he k hk => ?_
    have hL : pre ++ q.left b :: q.right b :: post =
        (pre ++ q.left b :: pre') ++ i :: j :: post' := by
      rw [he, List.append_assoc, List.cons_append]
    exact (h.key_le hq hpop hL hk).1

theorem Tied.merge (hq : Merges q size key pairKey) {s : Session q pq} {text : List UInt8}
    {pre post : List ℕ} {b : B} {rest : pq.Carrier}
    (h : Tied size key pairKey s (pre ++ q.left b :: q.right b :: post) text)
    (hpop : pq.pop s.workQueue = some (b, rest)) {s' : Session q pq}
    (hs' : s' = { s with
      symbols := absorb s.symbols (q.left b) (q.right b), workQueue := rest }) {l : LlmSymbol}
    (hl : l = sym s'.symbols (q.left b)) :
    Tied size key pairKey
      ((s'.addBigram l.prev (some (q.left b))).addBigram (some (q.left b)) l.next)
      (pre ++ q.left b :: post) text := by
  have hsymbols : s'.symbols = absorb s.symbols (q.left b) (q.right b) := by rw [hs']
  have hqueue : s'.workQueue = rest := by rw [hs']
  have hc := h.chain.absorb
  rw [← hsymbols] at hc
  have hmem : ∀ x, x ∈ pq.elems s.workQueue ↔ x = b ∨ x ∈ pq.elems rest := fun x => by
    rw [(pq.elems_of_pop hpop).mem_iff, List.mem_cons]
  -- the queue has the old pairs and those of the merged symbol with its neighbours
  have hnew : ∀ x, x ∈ pq.elems
      ((s'.addBigram l.prev (some (q.left b))).addBigram (some (q.left b)) l.next).workQueue ↔
      (x ∈ pq.elems rest ∨ ∃ i, l.prev = some i ∧
        q.bigram i (q.left b) (sym s'.symbols i) (sym s'.symbols (q.left b)) = some x) ∨
      ∃ j, l.next = some j ∧
        q.bigram (q.left b) j (sym s'.symbols (q.left b)) (sym s'.symbols j) = some x := by
    intro x
    rw [mem_addBigram, mem_addBigram, addBigram_symbols, hqueue]
    simp only [Option.some.injEq, exists_and_left, exists_eq_left']
  have hsyms : ((s'.addBigram l.prev (some (q.left b))).addBigram (some (q.left b))
      l.next).symbols = s'.symbols := by
    rw [addBigram_symbols, addBigram_symbols]
  have hprev : l.prev = pre.getLast? := by
    rw [hl]
    exact hc.prev_next.1
  have hnext : l.next = post.head? := by
    rw [hl]
    exact hc.prev_next.2
  refine ⟨by rw [hsyms]; exact hc, fun x hx => ?_, fun pre' i j post' hL k hk => ?_⟩
  · rw [hsyms]
    obtain (hx | ⟨i, hi, hx⟩) | ⟨j, hj, hx⟩ := (hnew x).mp hx
    · obtain ⟨nl, nr, hwas⟩ := h.queued x ((hmem x).mpr (.inr hx))
      rw [hsymbols]
      exact ⟨nl, nr, hwas.absorb h.chain⟩
    · obtain ⟨pre', rfl⟩ := List.getLast?_eq_some_iff.mp (hprev.symm.trans hi)
      rw [List.append_assoc, List.singleton_append] at hc
      exact ⟨_, _, wasQueued_of_bigram hq hc hx⟩
    · obtain ⟨post', rfl⟩ : ∃ post', post = j :: post' :=
        List.head?_eq_some_iff.mp (hnext.symm.trans hj)
      exact ⟨_, _, wasQueued_of_bigram hq hc hx⟩
  · rw [hsyms] at hk ⊢
    have hc' := hc
    rw [hL] at hc'
    -- a pair of the merged symbol has just been queued, any other has been there before
    have hadded : ∀ x, q.bigram i j (sym s'.symbols i) (sym s'.symbols j) = some x →
        q.left x = i ∧ q.right x = j ∧ q.outdated x (sym s'.symbols i) (sym s'.symbols j) = false :=
      fun x hx => by
        obtain ⟨hleft, hright, -, -, hout⟩ := hq.bigram_some hc'.adjoining hx
        exact ⟨hleft, hright, hout⟩
    have hsome : ∃ x, q.bigram i j (sym s'.symbols i) (sym s'.symbols j) = some x := by
      refine Option.ne_none_iff_exists'.mp fun hnone => ?_
      rw [hq.bigram_none hc'.adjoining hnone] at hk
      cases hk
    by_cases hi : i = q.left b
    · obtain ⟨x, hx⟩ := hsome
      have hj : l.next = some j := by
        rw [hl, ← hi]
        exact hc'.prev_next.2
      exact ⟨x, (hnew x).mpr (.inr ⟨j, hj, hi ▸ hx⟩), hadded x hx⟩
    · by_cases hj : j = q.left b
      · obtain ⟨x, hx⟩ := hsome
        have hi' : l.prev = some i := by
          have hsplit : pre' ++ i :: j :: post' = (pre' ++ [i]) ++ j :: post' := by simp
          rw [hsplit] at hc'
          rw [hl, ← hj, hc'.prev_next.1, List.getLast?_concat]
        exact ⟨x, (hnew x).mpr (.inl (.inr ⟨i, hi', hj ▸ hx⟩)), hadded x hx⟩
      · have hlive : ∀ k, k ∈ pre ++ q.left b :: post → k ≠ q.right b := by
          rintro k hk' rfl
          have hdead : (sym s'.symbols (q.right b)).n = 0 := by
            rw [hsymbols, h.chain.sym_absorb, if_neg h.chain.ne.symm, if_pos rfl]
          exact hc.live_iff.mpr hk' hdead
        have hir : i ≠ q.right b := hlive i (by rw [hL]; simp)
        have hjr : j ≠ q.right b := hlive j (by rw [hL]; simp)
        have hni : (sym s'.symbols i).n = (sym s.symbols i).n := by
          rw [hsymbols, h.chain.n_absorb hi hir]
        have hnj : (sym s'.symbols j).n = (sym s.symbols j).n := by
          rw [hsymbols, h.chain.n_absorb hj hjr]
        have hti : (sym s'.symbols i).text = (sym s.symbols i).text := by
          rw [hsymbols, h.chain.text_absorb]
        have htj : (sym s'.symbols j).text = (sym s.symbols j).text := by
          rw [hsymbols, h.chain.text_absorb]
        have hnexti : (sym s.symbols i).next = some j := by
          rw [← h.chain.next_absorb hi, ← hsymbols]
          exact hc'.prev_next.2
        have hlivei : (sym s.symbols i).n ≠ 0 := hni ▸ hc'.adjoining.left_ne
        obtain ⟨pre₀, post₀, hL₀⟩ := h.chain.exists_split hlivei hnexti
        rw [LlmSymbol.word, LlmSymbol.word, hni, hnj, hti, htj] at hk
        obtain ⟨x, hx, hxl, hxr, hout⟩ := h.known pre₀ i j post₀ hL₀ k hk
        refine ⟨x, (hnew x).mpr (.inl (.inl (((hmem x).mp hx).resolve_left ?_))), hxl, hxr, ?_⟩
        · rintro rfl
          exact hi hxl.symm
        · rw [hq.outdated_congr hti hni htj hnj]
          exact hout

theorem Tied.round_some (hq : Merges q size key pairKey) {s s' : Session q pq} {L : List ℕ}
    {text : List UInt8} (h : Tied size key pairKey s L text) (hround : s.round = some s') :
    ∃ L', Tied size key pairKey s' L' text ∧ L'.head? = L.head? ∧
      2 * L'.length + (pq.elems s'.workQueue).length <
        2 * L.length + (pq.elems s.workQueue).length ∧
      greedy pairKey (words s'.symbols L') = greedy pairKey (words s.symbols L) := by
  rw [Session.round] at hround
  cases hpop : pq.pop s.workQueue with
  | none =>
    rw [hpop] at hround
    cases hround
  | some p =>
    obtain ⟨b, rest⟩ := p
    have hlen := (pq.elems_of_pop hpop).length_eq
    rw [List.length_cons] at hlen
    rw [hpop] at hround
    dsimp only at hround
    by_cases hout : q.outdated b (sym s.symbols (q.left b)) (sym s.symbols (q.right b)) = true
    · rw [if_pos hout] at hround
      obtain rfl := Option.some.inj hround
      exact ⟨L, h.drop hpop hout, rfl, by dsimp only; omega, rfl⟩
    · rw [if_neg hout] at hround
      obtain rfl := Option.some.inj hround
      have hb : b ∈ pq.elems s.workQueue := (pq.elems_of_pop hpop).mem_iff.mpr List.mem_cons_self
      obtain ⟨nl, nr, hwas⟩ := h.queued b hb
      obtain ⟨hlive, hnext, hkey⟩ := hwas.current hq h.chain (Bool.eq_false_iff.mpr hout)
      obtain ⟨pre, post, rfl⟩ := h.chain.exists_split hlive hnext
      refine ⟨pre ++ q.left b :: post, h.merge hq hpop rfl rfl, ?_, ?_, ?_⟩
      · rw [List.head?_append, List.head?_append]
        rfl
      · have hadd := (length_addBigram
          (({ s with symbols := absorb s.symbols (q.left b) (q.right b),
                     workQueue := rest } : Session q pq).addBigram
            (sym (absorb s.symbols (q.left b) (q.right b)) (q.left b)).prev (some (q.left b)))
          (some (q.left b)) (sym (absorb s.symbols (q.left b) (q.right b)) (q.left b)).next).trans
          (Nat.succ_le_succ (length_addBigram _ _ _))
        simp only [List.length_append, List.length_cons]
        dsimp only at hadd
        omega
      · rw [greedy_of_best (h.best hq hpop hkey), addBigram_symbols, addBigram_symbols]

/-! ## Whole runs -/

theorem Tied.rounds (hq : Merges q size key pairKey) {s : Session q pq} {L : List ℕ}
    {text : List UInt8} (h : Tied size key pairKey s L text) (n : ℕ) :
    ∃ L', Tied size key pairKey (s.rounds n) L' text ∧ L'.head? = L.head? ∧
      greedy pairKey (words (s.rounds n).symbols L') = greedy pairKey (words s.symbols L) ∧
      (2 * L.length + (pq.elems s.workQueue).length ≤ n → (s.rounds n).round = none) := by
  induction n generalizing s L with
  | zero =>
    refine ⟨L, h, rfl, rfl, fun hle => ?_⟩
    rw [Session.rounds]
    cases hround : s.round with
    | none => rfl
    | some s' =>
      obtain ⟨L', -, -, hlt, -⟩ := h.round_some hq hround
      omega
  | succ n ih =>
    rw [Session.rounds]
    cases hround : s.round with
    | none => exact ⟨L, h, rfl, rfl, fun _ => hround⟩
    | some s' =>
      obtain ⟨L', h', hhead, hlt, hgreedy⟩ := h.round_some hq hround
      obtain ⟨L'', h'', hhead', hgreedy', hend⟩ := ih h'
      exact ⟨L'', h'', hhead'.trans hhead, hgreedy'.trans hgreedy, fun hle => hend (by omega)⟩

theorem length_rounds (s : Session q pq) (n : ℕ) :
    (s.rounds n).symbols.length = s.symbols.length := by
  induction n generalizing s with
  | zero => rfl
  | succ n ih =>
    rw [Session.rounds]
    cases hround : s.round with
    | none => rfl
    | some s' =>
      refine (ih s').trans ?_
      rw [Session.round] at hround
      cases hpop : pq.pop s.workQueue with
      | none =>
        rw [hpop] at hround
        cases hround
      | some p =>
        rw [hpop] at hround
        dsimp only at hround
        split_ifs at hround
        · obtain rfl := Option.some.inj hround
          rfl
        · obtain rfl := Option.some.inj hround
          rw [addBigram_symbols, addBigram_symbols, length_absorb]

/-- What passes the check of a session are pairs of neighbours that have the key they were queued
with, and no neighbours that have a key are missing from the queue. -/
structure Current (key : B → K) (pairKey : List UInt8 → List UInt8 → Option K)
    (s : Session q pq) : Prop where
  applied : ∀ b ∈ pq.elems s.workQueue,
    q.outdated b (sym s.symbols (q.left b)) (sym s.symbols (q.right b)) = false →
      (sym s.symbols (q.left b)).n ≠ 0 ∧
      (sym s.symbols (q.left b)).next = some (q.right b) ∧
      pairKey (sym s.symbols (q.left b)).word (sym s.symbols (q.right b)).word = some (key b)
  missed : ∀ i j k, (sym s.symbols i).n ≠ 0 → (sym s.symbols i).next = some j →
    pairKey (sym s.symbols i).word (sym s.symbols j).word = some k →
      ∃ b ∈ pq.elems s.workQueue, q.left b = i ∧ q.right b = j ∧ key b = k ∧
        q.outdated b (sym s.symbols i) (sym s.symbols j) = false

theorem Tied.current (hq : Merges q size key pairKey) {s : Session q pq} {L : List ℕ}
    {text : List UInt8} (h : Tied size key pairKey s L text) : Current key pairKey s where
  applied b hb hout := by
    obtain ⟨nl, nr, hwas⟩ := h.queued b hb
    exact hwas.current hq h.chain hout
  missed i j k hlive hnext hk := by
    obtain ⟨pre, post, hL⟩ := h.chain.exists_split hlive hnext
    obtain ⟨b, hb, rfl, rfl, hout⟩ := h.known pre i j post hL k hk
    obtain ⟨nl, nr, hwas⟩ := h.queued b hb
    obtain ⟨-, -, hkey⟩ := hwas.current hq h.chain hout
    exact ⟨b, hb, rfl, rfl, Option.some.inj (hkey.symm.trans hk), hout⟩

/-- The loop of a session merges greedily: its queue is current all the time, it empties, and then
`read` gives the words that greedy merging makes of those of the symbols. -/
def MergesGreedily (q : MergeQueue B) (key : B → K)
    (pairKey : List UInt8 → List UInt8 → Option K) (read : List LlmSymbol → List LlmSymbol)
    (symbols : List LlmSymbol) : Prop :=
  ∀ (pq : PriorityQueue B q.less) (n : ℕ),
    Current key pairKey ((Session.start pq symbols).rounds n) ∧
    (3 * symbols.length ≤ n → ((Session.start pq symbols).rounds n).round = none ∧
      (read ((Session.start pq symbols).rounds n).symbols).map LlmSymbol.word =
        greedy pairKey (symbols.map LlmSymbol.word))

/-! ## Reading the symbols -/

theorem map_sym_range (symbols : List LlmSymbol) :
    (List.range symbols.length).map (sym symbols) = symbols := by
  refine List.ext_getElem (by simp) fun i hi hi' => ?_
  rw [List.getElem_map, List.getElem_range, sym, List.getD_eq_getElem _ _ hi']

theorem Chain.lt_length {symbols : List LlmSymbol} {L : List ℕ} {text : List UInt8}
    (h : Chain symbols L text) {i : ℕ} (hi : i ∈ L) : i < symbols.length :=
  lt_of_sym (h.live_iff.mpr hi)

theorem chainFrom_eq {symbols : List LlmSymbol} {prev : Option ℕ} {L : List ℕ}
    {rest : List UInt8} (h : Linked symbols prev L rest) {n : ℕ} (hn : L.length ≤ n) :
    chainFrom symbols n L.head? = L.map (sym symbols) := by
  induction L generalizing prev rest n with
  | nil => cases n <;> rfl
  | cons i L ih =>
    cases n with
    | zero => cases hn
    | succ n =>
      rw [List.head?_cons, chainFrom, h.2.1, ih h.2.2.2.2.2 (Nat.le_of_succ_le_succ hn),
        List.map_cons]

theorem Chain.chained {symbols : List LlmSymbol} {L : List ℕ} {text : List UInt8}
    (h : Chain symbols L text) (hhead : L.head? = some 0) :
    chained symbols = L.map (sym symbols) := by
  have hlen : L.length ≤ symbols.length := by
    have hsub := (List.subperm_of_subset h.nodup fun i hi =>
      List.mem_range.mpr (h.lt_length hi)).length_le
    rwa [List.length_range] at hsub
  rw [MergeTokenizer.chained, ← hhead, chainFrom_eq h.linked hlen]

theorem Chain.finished {symbols : List LlmSymbol} {L : List ℕ} {text : List UInt8}
    (h : Chain symbols L text) : finished symbols = L.map (sym symbols) := by
  have hfilter : (List.range symbols.length).filter (fun i => 0 < (sym symbols i).n) = L := by
    refine (List.pairwise_lt_range.filter _).eq_of_mem_iff h.sorted fun i => ?_
    rw [List.mem_filter, List.mem_range, decide_eq_true_eq, Nat.pos_iff_ne_zero, h.live_iff]
    exact ⟨And.right, fun hi => ⟨h.lt_length hi, hi⟩⟩
  have hmap := congrArg (List.filter fun s => decide (0 < s.n)) (map_sym_range symbols)
  rw [List.filter_map] at hmap
  exact hmap.symm.trans (congrArg (List.map (sym symbols)) hfilter)

theorem mergesGreedily (hq : Merges q size key pairKey) {symbols : List LlmSymbol}
    {text : List UInt8} (hc : Chain symbols (List.range symbols.length) text)
    {read : List LlmSymbol → List LlmSymbol}
    (hread : ∀ symbols' L, symbols'.length = symbols.length → Chain symbols' L text →
      L.head? = (List.range symbols.length).head? → read symbols' = L.map (sym symbols')) : MergesGreedily q key pairKey read symbols := by
  intro pq n
  have hstart := tied_start hq pq hc
  obtain ⟨hsymbols, hlen, -⟩ := start_fold pq symbols (symbols.length - 1)
  obtain ⟨L, h, hhead, hgreedy, hend⟩ := hstart.rounds hq n
  refine ⟨h.current hq, fun hle => ?_⟩
  have hnone := hend (by
    rw [List.length_range]
    rw [Session.start]
    omega)
  refine ⟨hnone, ?_⟩
  have hwords : words (Session.start pq symbols).symbols (List.range symbols.length) =
      symbols.map LlmSymbol.word := by
    rw [Session.start, hsymbols, words]
    conv_rhs => rw [← map_sym_range symbols, List.map_map]
    rfl
  have hlength : ((Session.start pq symbols).rounds n).symbols.length = symbols.length := by
    rw [length_rounds, Session.start, hsymbols]
  rw [hread _ L hlength h.chain hhead, ← hwords, ← hgreedy, greedy_of_none (h.round_none hnone), words,
    List.map_map]
  rfl

/-! ## The symbols of a text -/

theorem lenUtf8_pos (c : UInt8) : 0 < lenUtf8 c := by
  have hall : ∀ i < 16,
      0 < [1, 1, 1, 1, 1, 1, 1, 1, 1, 1, 1, 1, 2, 2, 3, 4].getD i 1 := by decide
  exact hall _ (by have := c.toNat_lt; omega)

theorem head?_range'_symbolsFrom {fuel : ℕ} {rest : List UInt8} (hle : rest.length ≤ fuel)
    (index : ℕ) : (List.range' index (symbolsFrom fuel index rest).length).head? =
      if rest = [] then none else some index := by
  cases rest with
  | nil => cases fuel <;> rfl
  | cons c s =>
    cases fuel with
    | zero => cases hle
    | succ fuel =>
      rw [if_neg (List.cons_ne_nil c s), symbolsFrom, List.length_cons, List.range'_succ,
        List.head?_cons]

theorem linked_symbolsFrom {fuel : ℕ} {rest : List UInt8} (hle : rest.length ≤ fuel)
    (front : List LlmSymbol) : Linked (front ++ symbolsFrom fuel front.length rest)
      (if front.length = 0 then none else some (front.length - 1))
      (List.range' front.length (symbolsFrom fuel front.length rest).length) rest := by
  induction fuel generalizing rest front with
  | zero => exact List.length_eq_zero_iff.mp (Nat.le_zero.mp hle)
  | succ fuel ih =>
    cases rest with
    | nil => rfl
    | cons c s =>
      have hpos := lenUtf8_pos c
      have hmin : 0 < min (lenUtf8 c) (s.length + 1) ∧
          min (lenUtf8 c) (s.length + 1) ≤ s.length + 1 := by omega
      rw [symbolsFrom]
      generalize min (lenUtf8 c) (s.length + 1) = k at hmin
      generalize hS : LlmSymbol.mk _ _ _ _ = S
      have hfirst : sym (front ++ S :: symbolsFrom fuel (front.length + 1) ((c :: s).drop k))
          front.length = S := by
        rw [sym, List.getD_append_right _ _ _ _ le_rfl, Nat.sub_self]
        rfl
      have hle' : ((c :: s).drop k).length ≤ fuel := by
        rw [List.length_cons] at hle
        rw [List.length_drop, List.length_cons]
        omega
      have hn : S.n = k := by rw [← hS]
      have hrest := ih hle' (front ++ [S])
      rw [List.length_append, List.length_singleton, List.append_assoc, List.singleton_append] at hrest
      rw [List.length_cons, List.range'_succ, Linked, hfirst, head?_range'_symbolsFrom hle', hn]
      refine ⟨by rw [← hS], by rw [← hS], by rw [← hS], hmin.1.ne', hmin.2, ?_⟩
      rwa [if_neg (Nat.succ_ne_zero _), Nat.add_sub_cancel] at hrest

theorem chain_symbolsOf (text : List UInt8) :
    Chain (symbolsOf text) (List.range (symbolsOf text).length) text where
  sorted := List.pairwise_lt_range
  linked := by
    have h := linked_symbolsFrom (le_refl text.length) []
    rwa [List.nil_append, List.length_nil, if_pos rfl, ← List.range_eq_range'] at h
  dead k hk := by
    rw [sym_of_le (not_lt.mp (mt List.mem_range.mpr hk))]

theorem chain_bpeSymbols {S : Type} (v : BpeVocab S) (word : List UInt8) :
    Chain (bpeSymbols v word) (List.range (bpeSymbols v word).length) word := by
  by_cases hword : word = []
  · have hnone : bpeSymbols v word = symbolsOf word := by
      rw [bpeSymbols, hword, v.textToToken_nil]
      simp
    rw [hnone]
    exact chain_symbolsOf word
  rw [bpeSymbols]
  split_ifs
  · refine ⟨List.pairwise_lt_range, ?_, fun k hk => ?_⟩
    · exact ⟨rfl, rfl, rfl, (List.length_pos_iff.mpr hword).ne', le_rfl, List.drop_length⟩
    · rw [sym_of_le (not_lt.mp (mt List.mem_range.mpr hk))]
  · exact chain_symbolsOf word

end

section
variable {S : Type}

theorem spm_mergesGreedily [LinearOrder S] (v : TokenTable S) (text : List UInt8) :
    MergesGreedily (spmQueue v) LlmBigramSpm.score (spmKey v) chained (symbolsOf text) := by
  refine mergesGreedily (spmQueue_merges v) (chain_symbolsOf text) fun symbols L hlen hc hhead => ?_
  cases hsymbols : (symbolsOf text).length with
  | zero =>
    obtain rfl : symbols = [] := List.length_eq_zero_iff.mp (hlen.trans hsymbols)
    obtain rfl : L = [] := List.eq_nil_iff_forall_not_mem.mpr fun i hi =>
      absurd (hc.lt_length hi) (Nat.not_lt_zero i)
    rfl
  | succ n =>
    rw [hsymbols, List.range_succ_eq_map, List.head?_cons] at hhead
    exact hc.chained hhead

theorem bpe_mergesGreedily (v : BpeVocab S) (word : List UInt8) :
    MergesGreedily (bpeQueue v) (fun b => OrderDual.toDual b.rank) (bpeKey v) finished
      (bpeSymbols v word) :=
  mergesGreedily (bpeQueue_merges v) (chain_bpeSymbols v word) fun _ _ _ hc _ => hc.finished

/-- The loops of the SPM session over a text and of the BPE session over a word merge greedily,
whatever the scores of the tokens, the ranks of the merges, and the queue's choice among equals. -/
theorem sessions_mergeGreedily [LinearOrder S] :
    (∀ (v : TokenTable S) (text : List UInt8),
      MergesGreedily (spmQueue v) LlmBigramSpm.score (spmKey v) chained (symbolsOf text)) ∧
    ∀ (v : BpeVocab S) (word : List UInt8),
      MergesGreedily (bpeQueue v) (fun b => OrderDual.toDual b.rank) (bpeKey v) finished
        (bpeSymbols v word) :=
  ⟨spm_mergesGreedily, bpe_mergesGreedily⟩

end

end MergeTokenizer
end RocmFpx
