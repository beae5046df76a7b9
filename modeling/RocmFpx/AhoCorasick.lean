import Mathlib.Data.List.Pairwise
import Mathlib.Data.List.Perm.Subperm
import RocmFpx.Trie

/-!
The automaton over a trie (`common_aho_corasick`). Read from the left, a text leads to the node of
its longest suffix among the words of the trie, and the pattern of that node is the longest pattern
at the end of the text.
-/

namespace RocmFpx

open LongestSuffix

/-- The queue of the construction, the states visited and the failure links found. -/
structure BfsState where
  fail : List ℕ
  order : List ℕ
  queue : List ℕ

namespace Trie

/-- `while (f && nodes[f].children.find(ch) == end) f = fail[f];` -/
def fall (t : Trie) (fail : List ℕ) (ch : ℕ) : ℕ → ℕ → ℕ
  | 0, f => f
  | fuel + 1, f =>
    if f ≠ 0 ∧ (t.node f).child ch = none then t.fall fail ch fuel (fail.getD f 0) else f

/-- One child of `u`: its failure link, and its place in the queue. -/
def visitChild (t : Trie) (u : ℕ) (b : BfsState) (e : ℕ × ℕ) : BfsState :=
  { b with
    fail :=
      if u ≠ 0 then
        match (t.node (t.fall b.fail e.1 t.nodes.length (b.fail.getD u 0))).child e.1 with
        | some w => b.fail.set e.2 (if w ≠ e.2 then w else 0)
        | none => b.fail.set e.2 0
      else b.fail
    queue := b.queue ++ [e.2] }

/-- The loop over the queue; every node is taken from it once. -/
def bfs (t : Trie) : ℕ → BfsState → BfsState
  | 0, b => b
  | fuel + 1, b =>
    match b.queue with
    | [] => b
    | u :: queue =>
      t.bfs fuel ((t.node u).children.foldl (t.visitChild u)
        { b with order := b.order ++ [u], queue := queue })

/-- `nodes[u].pattern >= 0 ? nodes[u].pattern : (u != 0 ? match[fail[u]] : -1)` -/
def matchAt (t : Trie) (fail : List ℕ) (m : List (Option ℕ)) (u : ℕ) : List (Option ℕ) :=
  m.set u <|
    match (t.node u).pattern with
    | some p => some p
    | none => if u ≠ 0 then m.getD (fail.getD u 0) none else none

end Trie

/-- `common_aho_corasick`. -/
structure AhoCorasick where
  t : Trie
  fail : List ℕ
  order : List ℕ
  matchOf : List (Option ℕ)

namespace AhoCorasick

def ofTrie (t : Trie) : AhoCorasick :=
  let b := t.bfs t.nodes.length ⟨List.replicate t.nodes.length 0, [], [0]⟩
  { t := t
    fail := b.fail
    order := b.order
    matchOf := b.order.foldl (t.matchAt b.fail) (List.replicate t.nodes.length none) }

/-- The index of the longest pattern ending at this state. -/
def matchPattern (ac : AhoCorasick) (s : ℕ) : Option ℕ := ac.matchOf.getD s none

/-- Follow the failure links until the symbol has a transition. -/
def next (ac : AhoCorasick) (state ch : ℕ) : ℕ :=
  ((ac.t.node (ac.t.fall ac.fail ch ac.t.nodes.length state)).child ch).getD 0

end AhoCorasick

/-! ## Failure links -/

namespace Trie

variable {t : Trie} {path : ℕ → List ℕ} {pats : List (List ℕ)} {fail : List ℕ} {u v c : ℕ}

/-- The failure link of `v` names the longest suffix of its word but for the first symbol. -/
structure Falls (t : Trie) (path : ℕ → List ℕ) (fail : List ℕ) (v : ℕ) : Prop where
  lt : fail.getD v 0 < t.nodes.length
  longest : IsLongest (t.words path) (path v).tail (path (fail.getD v 0))

theorem Falls.length_le (h : t.Falls path fail v) :
    (path (fail.getD v 0)).length ≤ (path v).length - 1 := by
  have := h.longest.suffix.length_le
  rwa [List.length_tail] at this

theorem fall_spec (hl : t.Labelled path) {w : List ℕ} {c d fuel s : ℕ}
    (hgood : ∀ v < t.nodes.length, (path v).length ≤ d → t.Falls path fail v)
    (hs : s < t.nodes.length) (hd : (path s).length ≤ d) (hfuel : (path s).length ≤ fuel)
    (hcov : Covers (t.words path) w c (path s)) :
    t.fall fail c fuel s < t.nodes.length ∧
      (path (t.fall fail c fuel s)).length ≤ (path s).length ∧
      IsLongest (t.words path) (w ++ [c])
        (path (((t.node (t.fall fail c fuel s)).child c).getD 0)) := by
  have hstop : ∀ s < t.nodes.length, Covers (t.words path) w c (path s) →
      (s = 0 ∨ (t.node s).child c ≠ none) →
      IsLongest (t.words path) (w ++ [c]) (path (((t.node s).child c).getD 0)) := by
    intro s hs hcov hstop
    cases hc : (t.node s).child c with
    | none =>
      obtain rfl := hstop.resolve_right (not_not_intro hc)
      have hmiss := (hl.child_none hs).mp hc
      rw [Option.getD_none, hl.root] at *
      exact hcov.miss hl.prefixClosed hmiss
    | some v =>
      obtain ⟨hv, hpath⟩ := (hl.child_iff hs).mp hc
      rw [Option.getD_some, hpath]
      exact hcov.take ⟨v, hv, hpath⟩
  induction fuel generalizing s with
  | zero =>
    have hs0 := hl.eq_zero hs (List.length_eq_zero_iff.mp (Nat.le_zero.mp hfuel))
    exact ⟨hs, le_rfl, hstop s hs hcov (Or.inl hs0)⟩
  | succ fuel ih =>
    rw [fall]
    split_ifs with hcond
    · obtain ⟨hs0, hc⟩ := hcond
      have hf := hgood s hs hd
      have hlen := hf.length_le
      obtain ⟨a, rest, hpath⟩ :=
        List.exists_cons_of_ne_nil fun hnil => hs0 (hl.eq_zero hs hnil)
      have hpos : (path s).length = rest.length + 1 := by rw [hpath, List.length_cons]
      have htail : (path s).tail = rest := by rw [hpath, List.tail_cons]
      have hmiss := (hl.child_none hs).mp hc
      rw [hpath] at hcov hmiss
      have hlong := hf.longest
      rw [htail] at hlong
      obtain ⟨h1, h2, h3⟩ := ih hf.lt (by omega) (by omega)
        (hcov.fall hl.prefixClosed hmiss hlong)
      exact ⟨h1, by omega, h3⟩
    · have hcond : s = 0 ∨ (t.node s).child c ≠ none := by
        by_cases hs0 : s = 0
        · exact Or.inl hs0
        · exact Or.inr fun hc => hcond ⟨hs0, hc⟩
      exact ⟨hs, le_rfl, hstop s hs hcov hcond⟩

/-! ## Breadth first -/

/-- What holds while the queue is worked off: `kids` are the edges followed so far, and the nodes
seen lie at most one level below the queue. -/
structure Seen (t : Trie) (path : ℕ → List ℕ) (kids : ℕ → List (ℕ × ℕ)) (d : ℕ) (b : BfsState) :
    Prop where
  length : b.fail.length = t.nodes.length
  lt : ∀ v ∈ b.order ++ b.queue, v < t.nodes.length
  nodup : (b.order ++ b.queue).Nodup
  sorted : (b.order ++ b.queue).Pairwise fun u v => (path u).length ≤ (path v).length
  le : ∀ v ∈ b.order ++ b.queue, (path v).length ≤ d + 1
  ge : ∀ v ∈ b.queue, d ≤ (path v).length
  root : 0 ∈ b.order ++ b.queue
  closed : ∀ u ∈ b.order, ∀ e ∈ kids u, e.2 ∈ b.order ++ b.queue
  reached : ∀ v ∈ b.order ++ b.queue, v ≠ 0 → ∃ u ∈ b.order, ∃ c, (c, v) ∈ kids u
  falls : ∀ v ∈ b.order ++ b.queue, t.Falls path b.fail v
  fresh : ∀ v, v ∉ b.order ++ b.queue → b.fail.getD v 0 = 0

variable {kids : ℕ → List (ℕ × ℕ)} {b : BfsState} {d : ℕ}

theorem Seen.mem_of_le (hl : t.Labelled path) (h : t.Seen path kids d b)
    (hkids : ∀ w ∈ b.order, (path w).length < d → kids w = (t.node w).children)
    (hv : v < t.nodes.length) (hd : (path v).length ≤ d) : v ∈ b.order ++ b.queue := by
  induction v using Nat.strong_induction_on with
  | _ v ih =>
    by_cases hv0 : v = 0
    · rw [hv0]
      exact h.root
    · obtain ⟨p, hp, c, hmem⟩ := hl.parent v hv hv0
      have hplt := hp.trans hv
      have hlen : (path v).length = (path p).length + 1 := by
        rw [(hl.edge p hplt c v hmem).2, List.length_append, List.length_singleton]
      have hporder : p ∈ b.order := by
        refine (List.mem_append.mp (ih p hp hplt (by omega))).resolve_right fun hq => ?_
        have := h.ge p hq
        omega
      refine h.closed p hporder (c, v) ?_
      rw [hkids p hporder (by omega)]
      exact hmem

theorem falls_set {x y : ℕ} (hne : v ≠ x) : t.Falls path (fail.set x y) v ↔ t.Falls path fail v := by
  have hget : (fail.set x y).getD v 0 = fail.getD v 0 := by
    rw [List.getD_eq_getElem?_getD, List.getD_eq_getElem?_getD, List.getElem?_set_ne hne.symm]
  exact ⟨fun h => ⟨hget ▸ h.lt, hget ▸ h.longest⟩, fun h => ⟨hget.symm ▸ h.lt, hget.symm ▸ h.longest⟩⟩

theorem falls_set_self {y : ℕ} (hlen : fail.length = t.nodes.length) (hv : v < t.nodes.length)
    (hy : y < t.nodes.length) (h : IsLongest (t.words path) (path v).tail (path y)) :
    t.Falls path (fail.set v y) v := by
  have hget : (fail.set v y).getD v 0 = y := by
    rw [List.getD_eq_getElem?_getD, List.getElem?_set_self (hlen.symm ▸ hv), Option.getD_some]
  exact ⟨by rw [hget]; exact hy, by rw [hget]; exact h⟩

theorem visitChild_fail (hl : t.Labelled path) (order queue : List ℕ)
    (hgood : ∀ w < t.nodes.length, (path w).length ≤ (path u).length → t.Falls path fail w)
    (hlen : fail.length = t.nodes.length)
    (hzero : fail.getD v 0 = 0) (hu : u < t.nodes.length) (hmem : (c, v) ∈ (t.node u).children) :
    ∃ y, (t.visitChild u ⟨fail, order, queue⟩ (c, v)).fail = fail.set v y ∧
      t.Falls path (fail.set v y) v := by
  obtain ⟨hv, hpath⟩ := hl.edge u hu c v hmem
  rw [visitChild]
  by_cases hu0 : u = 0
  · -- the children of the root fall back to the root, where they were set
    refine ⟨0, ?_, falls_set_self hlen hv hl.pos ?_⟩
    · rw [if_neg (not_not_intro hu0)]
      refine List.ext_getElem? fun i => ?_
      rw [List.getElem?_set]
      split_ifs with hi hlt
      · rw [← hi, List.getElem?_eq_getElem hlt]
        rw [List.getD_eq_getElem _ _ hlt] at hzero
        rw [hzero]
      · rw [← hi, List.getElem?_eq_none (not_lt.mp hlt)]
      · rfl
    · rw [hpath, hu0, hl.root, List.nil_append, List.tail_cons]
      exact IsLongest.nil hl.prefixClosed
  · rw [if_pos hu0]
    have hf := hgood u hu le_rfl
    have hflen := hf.length_le
    obtain ⟨a, rest, hcons⟩ := List.exists_cons_of_ne_nil fun hnil => hu0 (hl.eq_zero hu hnil)
    have hulen : (path u).length = rest.length + 1 := by rw [hcons, List.length_cons]
    have htail : (path v).tail = rest ++ [c] := by rw [hpath, hcons, List.cons_append, List.tail_cons]
    have hlong := hf.longest
    rw [hcons, List.tail_cons] at hlong
    obtain ⟨hlt, hle, hres⟩ := fall_spec hl hgood hf.lt (by omega)
      ((hl.depth_le hf.lt).trans hf.lt.le) (hlong.covers hl.prefixClosed c)
    rw [← htail] at hres
    generalize hg : t.fall fail c t.nodes.length (fail.getD u 0) = g at hlt hle hres ⊢
    cases hc : (t.node g).child c with
    | none =>
      rw [hc] at hres
      exact ⟨0, rfl, falls_set_self hlen hv hl.pos hres⟩
    | some w =>
      rw [hc] at hres
      obtain ⟨hw, hpw⟩ := (hl.child_iff hlt).mp hc
      have hne : w ≠ v := by
        rintro rfl
        have := congrArg List.length (hpw.symm.trans hpath)
        rw [List.length_append, List.length_append] at this
        omega
      refine ⟨w, ?_, falls_set_self hlen hv hw hres⟩
      simp only [if_pos hne]

/-- The edges followed once those of `u` in `done` have been. -/
def followed (t : Trie) (u : ℕ) (done : List (ℕ × ℕ)) (w : ℕ) : List (ℕ × ℕ) :=
  if w = u then done else (t.node w).children

theorem Seen.visitChild (hl : t.Labelled path) {done : List (ℕ × ℕ)}
    (h : t.Seen path (t.followed u done) (path u).length b) (hu : u ∈ b.order)
    (hdone : ∀ e ∈ done, e ∈ (t.node u).children) (hmem : (c, v) ∈ (t.node u).children)
    (hnew : (c, v) ∉ done) :
    t.Seen path (t.followed u (done ++ [(c, v)])) (path u).length (t.visitChild u b (c, v)) := by
  obtain ⟨fail, order, queue⟩ := b
  have hult : u < t.nodes.length := h.lt u (List.mem_append_left _ hu)
  obtain ⟨hv, hpath⟩ := hl.edge u hult c v hmem
  have hvlen : (path v).length = (path u).length + 1 := by
    rw [hpath, List.length_append, List.length_singleton]
  have hkids : ∀ w ∈ order, (path w).length < (path u).length →
      t.followed u done w = (t.node w).children := by
    intro w _ hlt
    refine if_neg ?_
    rintro rfl
    exact lt_irrefl _ hlt
  have hall : ∀ w < t.nodes.length, (path w).length ≤ (path u).length → w ∈ order ++ queue :=
    fun w hw hle => h.mem_of_le hl hkids hw hle
  -- the only parent of the child is `u`, and this edge of it has not been followed
  have hunseen : v ∉ order ++ queue := by
    intro hseen
    have hv0 : v ≠ 0 := by
      rintro rfl
      rw [hl.root] at hvlen
      exact absurd hvlen (Nat.succ_ne_zero _).symm
    obtain ⟨w, hw, c', hwmem⟩ := h.reached v hseen hv0
    rw [Trie.followed] at hwmem
    have hwlt := h.lt w (List.mem_append_left _ hw)
    have hwedge : (c', v) ∈ (t.node w).children := by
      split_ifs at hwmem with hwu
      · exact hwu ▸ hdone _ hwmem
      · exact hwmem
    obtain ⟨hpw, hc⟩ := List.append_inj' (hpath.symm.trans (hl.edge w hwlt c' v hwedge).2) rfl
    obtain rfl := hl.inj u hult w hwlt hpw
    obtain rfl := List.singleton_inj.mp hc
    rw [if_pos rfl] at hwmem
    exact hnew hwmem
  obtain ⟨y, hfail, hfalls⟩ := visitChild_fail hl order queue
    (fun w hw hle => h.falls w (hall w hw hle)) h.length (h.fresh v hunseen) hult hmem
  have hlist : ∀ w, w ∈ order ++ (queue ++ [v]) ↔ w ∈ order ++ queue ∨ w = v := by
    intro w
    rw [← List.append_assoc, List.mem_append, List.mem_singleton]
  have hb : t.visitChild u ⟨fail, order, queue⟩ (c, v) = ⟨fail.set v y, order, queue ++ [v]⟩ := by
    rw [← hfail]
    rfl
  rw [hb]
  constructor
  case length => rw [List.length_set]; exact h.length
  case lt => exact fun w hw => ((hlist w).mp hw).elim (h.lt w) fun hw => hw ▸ hv
  case nodup =>
    rw [← List.append_assoc]
    refine List.nodup_append.mpr ⟨h.nodup, List.nodup_singleton v, fun w hw x hx => ?_⟩
    rintro rfl
    exact hunseen (List.mem_singleton.mp hx ▸ hw)
  case sorted =>
    rw [← List.append_assoc]
    refine List.pairwise_append.mpr ⟨h.sorted, List.pairwise_singleton _ _, fun w hw x hx => ?_⟩
    rw [List.mem_singleton.mp hx, hvlen]
    exact h.le w hw
  case le => exact fun w hw => ((hlist w).mp hw).elim (h.le w) fun hw => by rw [hw, hvlen]
  case ge =>
    intro w hw
    obtain hw | hw := List.mem_append.mp hw
    · exact h.ge w hw
    · rw [List.mem_singleton.mp hw, hvlen]
      exact Nat.le_succ _
  case root => exact (hlist 0).mpr (Or.inl h.root)
  case closed =>
    intro w hw e he
    rw [hlist]
    rw [Trie.followed] at he
    split_ifs at he with hwu
    · obtain he | he := List.mem_append.mp he
      · refine Or.inl (h.closed w hw e ?_)
        rw [Trie.followed, if_pos hwu]
        exact he
      · rw [List.mem_singleton.mp he]
        exact Or.inr rfl
    · refine Or.inl (h.closed w hw e ?_)
      rw [Trie.followed, if_neg hwu]
      exact he
  case reached =>
    intro w hw hw0
    obtain hw | rfl := (hlist w).mp hw
    · obtain ⟨x, hx, c', hxmem⟩ := h.reached w hw hw0
      refine ⟨x, hx, c', ?_⟩
      rw [Trie.followed] at hxmem ⊢
      split_ifs at hxmem ⊢ with hxu
      · exact List.mem_append_left _ hxmem
      · exact hxmem
    · refine ⟨u, hu, c, ?_⟩
      rw [Trie.followed, if_pos rfl]
      exact List.mem_append_right _ (List.mem_singleton_self _)
  case falls =>
    intro w hw
    obtain hw | rfl := (hlist w).mp hw
    · have hne : w ≠ v := fun hwv => hunseen (hwv ▸ hw)
      exact (falls_set hne).mpr (h.falls w hw)
    · exact hfalls
  case fresh =>
    intro w hw
    obtain ⟨hw, hne⟩ := not_or.mp (mt (hlist w).mpr hw)
    rw [List.getD_eq_getElem?_getD, List.getElem?_set_ne (Ne.symm hne), ← List.getD_eq_getElem?_getD]
    exact h.fresh w hw

theorem Seen.visitChildren (hl : t.Labelled path) {done rest : List (ℕ × ℕ)}
    (h : t.Seen path (t.followed u done) (path u).length b) (hu : u ∈ b.order)
    (hsplit : done ++ rest = (t.node u).children) :
    t.Seen path (fun w => (t.node w).children) (path u).length
        (rest.foldl (t.visitChild u) b) ∧ (rest.foldl (t.visitChild u) b).order = b.order := by
  induction rest generalizing done b with
  | nil =>
    rw [List.append_nil] at hsplit
    refine ⟨?_, rfl⟩
    have hkids : t.followed u done = fun w => (t.node w).children := by
      funext w
      rw [followed]
      split_ifs with hwu
      · rw [hsplit, hwu]
      · rfl
    rwa [hkids] at h
  | cons e rest ih =>
    have hult := h.lt u (List.mem_append_left _ hu)
    have hnodup := hl.nodup u hult
    rw [← hsplit] at hnodup
    have hnew : e ∉ done := fun hmem =>
      List.disjoint_of_nodup_append hnodup hmem List.mem_cons_self
    have hstep := h.visitChild (c := e.1) (v := e.2) hl hu
      (fun x hx => hsplit ▸ List.mem_append_left _ hx)
      (hsplit ▸ List.mem_append_right _ List.mem_cons_self) hnew
    exact ih hstep hu (by rw [List.append_assoc, List.singleton_append, hsplit])

theorem Seen.pop {fail order queue : List ℕ}
    (h : t.Seen path (fun w => (t.node w).children) d ⟨fail, order, u :: queue⟩) :
    t.Seen path (t.followed u []) (path u).length ⟨fail, order ++ [u], queue⟩ := by
  have hlist : order ++ [u] ++ queue = order ++ u :: queue := by
    rw [List.append_assoc, List.singleton_append]
  have hunot : u ∉ order := by
    intro hmem
    exact List.disjoint_of_nodup_append h.nodup hmem List.mem_cons_self
  have hge := h.ge u List.mem_cons_self
  constructor
  case length => exact h.length
  case lt => rw [hlist]; exact h.lt
  case nodup => rw [hlist]; exact h.nodup
  case sorted => rw [hlist]; exact h.sorted
  case le =>
    rw [hlist]
    intro v hv
    exact (h.le v hv).trans (Nat.succ_le_succ hge)
  case ge =>
    intro v hv
    exact List.rel_of_pairwise_cons (List.pairwise_append.mp h.sorted).2.1 hv
  case root => rw [hlist]; exact h.root
  case closed =>
    intro w hw e he
    rw [hlist]
    rw [Trie.followed] at he
    split_ifs at he with hwu
    · exact absurd he List.not_mem_nil
    · refine h.closed w ?_ e he
      exact (List.mem_append.mp hw).resolve_right fun hw => hwu (List.mem_singleton.mp hw)
  case reached =>
    rw [hlist]
    intro v hv hv0
    obtain ⟨w, hw, c, hmem⟩ := h.reached v hv hv0
    refine ⟨w, List.mem_append_left _ hw, c, ?_⟩
    rw [Trie.followed, if_neg fun (hwu : w = u) => hunot (hwu ▸ hw)]
    exact hmem
  case falls => rw [hlist]; exact h.falls
  case fresh => rw [hlist]; exact h.fresh

theorem Seen.bfs (hl : t.Labelled path) (fuel : ℕ)
    (h : t.Seen path (fun w => (t.node w).children) d b) :
    ∃ d', t.Seen path (fun w => (t.node w).children) d' (t.bfs fuel b) ∧
      ((t.bfs fuel b).queue = [] ∨ (t.bfs fuel b).order.length = b.order.length + fuel) := by
  induction fuel generalizing b d with
  | zero => exact ⟨d, h, Or.inr rfl⟩
  | succ fuel ih =>
    obtain ⟨fail, order, queue⟩ := b
    cases queue with
    | nil => exact ⟨d, h, Or.inl rfl⟩
    | cons u queue =>
      obtain ⟨hseen, horder⟩ := h.pop.visitChildren hl
        (List.mem_append_right _ (List.mem_singleton_self u)) (List.nil_append _)
      obtain ⟨d', hd', hend⟩ := ih hseen
      refine ⟨d', hd', hend.imp_right fun hlen => ?_⟩
      refine hlen.trans ?_
      simp only [horder, List.length_append, List.length_singleton]
      omega

theorem bfs_spec (hl : t.Labelled path) :
    ∃ d, t.Seen path (fun w => (t.node w).children) d
        (t.bfs t.nodes.length ⟨List.replicate t.nodes.length 0, [], [0]⟩) ∧
      ∀ v < t.nodes.length,
        v ∈ (t.bfs t.nodes.length ⟨List.replicate t.nodes.length 0, [], [0]⟩).order := by
  have hzero : ∀ v, (List.replicate t.nodes.length 0).getD v 0 = 0 := by
    intro v
    rw [List.getD_eq_getElem?_getD, List.getElem?_replicate]
    split_ifs <;> rfl
  have hstart : t.Seen path (fun w => (t.node w).children) 0
      ⟨List.replicate t.nodes.length 0, [], [0]⟩ := by
    have hone : ∀ v ∈ [] ++ [0], v = 0 := fun v hv => List.mem_singleton.mp hv
    constructor
    case length => exact List.length_replicate
    case lt => exact fun v hv => hone v hv ▸ hl.pos
    case nodup => exact List.nodup_singleton 0
    case sorted => exact List.pairwise_singleton _ _
    case le =>
      intro v hv
      rw [hone v hv, hl.root]
      exact Nat.zero_le _
    case ge => exact fun _ _ => Nat.zero_le _
    case root => exact List.mem_singleton_self 0
    case closed => exact fun u hu => absurd hu List.not_mem_nil
    case reached => exact fun v hv hv0 => absurd (hone v hv) hv0
    case falls =>
      intro v hv
      rw [hone v hv]
      refine ⟨by rw [hzero]; exact hl.pos, ?_⟩
      rw [hzero, hl.root, List.tail_nil]
      exact IsLongest.nil hl.prefixClosed
    case fresh => exact fun v _ => hzero v
  obtain ⟨d, hseen, hend⟩ := hstart.bfs hl t.nodes.length
  refine ⟨d, hseen, ?_⟩
  generalize t.bfs t.nodes.length ⟨List.replicate t.nodes.length 0, [], [0]⟩ = b at hseen hend ⊢
  have hcount : (b.order ++ b.queue).length ≤ t.nodes.length := by
    have hsub : b.order ++ b.queue ⊆ List.range t.nodes.length := fun v hv =>
      List.mem_range.mpr (hseen.lt v hv)
    have := (List.subperm_of_subset hseen.nodup hsub).length_le
    rwa [List.length_range] at this
  have hempty : b.queue = [] := by
    obtain hempty | hlen := hend
    · exact hempty
    · rw [List.length_append] at hcount
      rw [List.length_nil] at hlen
      exact List.length_eq_zero_iff.mp (by omega)
  intro v hv
  induction v using Nat.strong_induction_on with
  | _ v ih =>
    by_cases hv0 : v = 0
    · have := hseen.root
      rwa [hempty, List.append_nil, ← hv0] at this
    · obtain ⟨p, hp, c, hmem⟩ := hl.parent v hv hv0
      have := hseen.closed p (ih p hp (hp.trans hv)) (c, v) hmem
      rwa [hempty, List.append_nil] at this

/-! ## Patterns at the end of a text -/

/-- The index of the longest pattern at the end of `w`, if there is one. -/
def EndsAt (pats : List (List ℕ)) (w : List ℕ) : Option ℕ → Prop
  | none => ∀ q ∈ pats, ¬ q <:+ w
  | some i => ∃ p, pats[i]? = some p ∧ p <:+ w ∧ ∀ q ∈ pats, q <:+ w → q <:+ p

theorem EndsAt.isSome_iff {w : List ℕ} {r : Option ℕ} (h : EndsAt pats w r) :
    r.isSome ↔ ∃ q ∈ pats, q <:+ w := by
  cases r with
  | none => exact ⟨fun h => (nomatch h), fun ⟨q, hq, hw⟩ => absurd hw (h q hq)⟩
  | some i =>
    obtain ⟨p, hp, hw, -⟩ := h
    exact ⟨fun _ => ⟨p, List.mem_of_getElem? hp, hw⟩, fun _ => rfl⟩

theorem endsAt_congr {w x : List ℕ} {r : Option ℕ} (h : ∀ q ∈ pats, q <:+ w ↔ q <:+ x) :
    EndsAt pats w r ↔ EndsAt pats x r := by
  cases r with
  | none => exact forall₂_congr fun q hq => not_congr (h q hq)
  | some i =>
    refine exists_congr fun p => and_congr_right fun hp => ?_
    refine and_congr (h p (List.mem_of_getElem? hp)) ?_
    exact forall₂_congr fun q hq => imp_congr_left (h q hq)

theorem EndsAt.matchAt (hl : t.Labelled path) (hp : t.Holds path pats) {m : List (Option ℕ)}
    (hu : u < t.nodes.length) (hlen : m.length = t.nodes.length)
    (hfail : t.Falls path fail u)
    (hm : u ≠ 0 → EndsAt pats (path (fail.getD u 0)) (m.getD (fail.getD u 0) none)) :
    EndsAt pats (path u) ((t.matchAt fail m u).getD u none) := by
  rw [Trie.matchAt, List.getD_eq_getElem?_getD, List.getElem?_set_self (hlen.symm ▸ hu),
    Option.getD_some]
  cases hpat : (t.node u).pattern with
  | some i =>
    exact ⟨path u, (hp.pattern u hu i).mp hpat, List.suffix_rfl, fun _ _ h => h⟩
  | none =>
    have hnot : path u ∉ pats := by
      intro hmem
      obtain ⟨i, hi⟩ := List.getElem?_of_mem hmem
      rw [← hp.pattern u hu, hpat] at hi
      nomatch hi
    by_cases hu0 : u = 0
    · simp only [hu0, ne_eq, not_true_eq_false, if_false, hl.root] at hnot ⊢
      intro q hq hsuf
      exact hnot (List.suffix_nil.mp hsuf ▸ hq)
    · simp only [if_pos hu0]
      refine (endsAt_congr fun q hq => ?_).mpr (hm hu0)
      rw [hfail.longest.suffix_iff (hp.mem q hq)]
      obtain ⟨a, rest, hcons⟩ := List.exists_cons_of_ne_nil fun hnil => hu0 (hl.eq_zero hu hnil)
      rw [hcons] at hnot ⊢
      rw [List.tail_cons, List.suffix_cons_iff]
      exact or_iff_right fun h => hnot (h ▸ hq)

theorem foldl_matchAt_spec (hl : t.Labelled path) (hp : t.Holds path pats)
    (pre : List ℕ) {post : List ℕ} {m : List (Option ℕ)} (hlen : m.length = t.nodes.length)
    (hlt : ∀ v ∈ pre ++ post, v < t.nodes.length) (hall : ∀ v < t.nodes.length, v ∈ pre ++ post)
    (hnodup : (pre ++ post).Nodup)
    (hsorted : (pre ++ post).Pairwise fun u v => (path u).length ≤ (path v).length)
    (hfalls : ∀ v ∈ pre ++ post, t.Falls path fail v)
    (hpre : ∀ v ∈ pre, EndsAt pats (path v) (m.getD v none)) :
    ∀ v ∈ pre ++ post, EndsAt pats (path v) ((post.foldl (t.matchAt fail) m).getD v none) := by
  induction post generalizing pre m with
  | nil => rwa [List.append_nil]
  | cons u post ih =>
    have hmem : u ∈ pre ++ u :: post := List.mem_append_right _ List.mem_cons_self
    have hsplit : pre ++ u :: post = pre ++ [u] ++ post := by
      rw [List.append_assoc, List.singleton_append]
    have hult := hlt u hmem
    -- the failure link of `u` lies higher in the trie, so it has been visited before
    have hbefore : u ≠ 0 → fail.getD u 0 ∈ pre := by
      intro hu0
      have hf := hfalls u hmem
      have hle := hf.length_le
      have hpos : 0 < (path u).length :=
        List.length_pos_iff.mpr fun hnil => hu0 (hl.eq_zero hult hnil)
      refine (List.mem_append.mp (hall _ hf.lt)).resolve_right fun hpost => ?_
      obtain heq | hpost := List.mem_cons.mp hpost
      · rw [heq] at hle
        omega
      · have := List.rel_of_pairwise_cons (List.pairwise_append.mp hsorted).2.1 hpost
        omega
    have hu := EndsAt.matchAt hl hp hult hlen (hfalls u hmem) fun hu0 => hpre _ (hbefore hu0)
    have hrest : ∀ v ∈ pre, (t.matchAt fail m u).getD v none = m.getD v none := by
      intro v hv
      have hne : u ≠ v := by
        rintro rfl
        exact List.disjoint_of_nodup_append hnodup hv List.mem_cons_self
      rw [Trie.matchAt, List.getD_eq_getElem?_getD, List.getElem?_set_ne hne,
        ← List.getD_eq_getElem?_getD]
    rw [hsplit] at hlt hall hnodup hsorted hfalls ⊢
    refine ih _ (by rw [Trie.matchAt, List.length_set, hlen]) hlt hall hnodup hsorted hfalls ?_
    intro v hv
    obtain hv | hv := List.mem_append.mp hv
    · rw [hrest v hv]
      exact hpre v hv
    · rw [List.mem_singleton.mp hv]
      exact hu

end Trie

namespace AhoCorasick

/-- Having read `w` the automaton is in state `s`: the node of the longest suffix of `w`. -/
def Tracks (ac : AhoCorasick) (pats : List (List ℕ)) (w : List ℕ) (s : ℕ) : Prop :=
  ∃ path, ac.t.Labelled path ∧ (∀ v < ac.t.nodes.length, ac.t.Falls path ac.fail v) ∧
    (∀ v < ac.t.nodes.length, Trie.EndsAt pats (path v) (ac.matchPattern v)) ∧
    (∀ p ∈ pats, p ∈ ac.t.words path) ∧ s < ac.t.nodes.length ∧
    IsLongest (ac.t.words path) w (path s)

variable {ac : AhoCorasick} {pats : List (List ℕ)} {w : List ℕ} {s : ℕ}

theorem Tracks.start (h : ac.Tracks pats w s) : ac.Tracks pats [] 0 := by
  obtain ⟨path, hl, hf, hm, hmem, -⟩ := h
  refine ⟨path, hl, hf, hm, hmem, hl.pos, ?_⟩
  rw [hl.root]
  exact IsLongest.nil hl.prefixClosed

theorem Tracks.next (h : ac.Tracks pats w s) (c : ℕ) : ac.Tracks pats (w ++ [c]) (ac.next s c) := by
  obtain ⟨path, hl, hf, hm, hmem, hs, hlong⟩ := h
  obtain ⟨hlt, -, hres⟩ := Trie.fall_spec hl (fun v hv _ => hf v hv) hs le_rfl
    ((hl.depth_le hs).trans hs.le) (hlong.covers hl.prefixClosed c)
  refine ⟨path, hl, hf, hm, hmem, ?_, hres⟩
  rw [AhoCorasick.next]
  generalize hc : (ac.t.node (ac.t.fall ac.fail c ac.t.nodes.length s)).child c = r
  cases r with
  | none => exact hl.pos
  | some v => exact ((hl.child_iff hlt).mp hc).1

/-- The pattern reported is the longest one at the end of the text. -/
theorem Tracks.matchPattern (h : ac.Tracks pats w s) :
    Trie.EndsAt pats w (ac.matchPattern s) := by
  obtain ⟨path, -, -, hm, hmem, hs, hlong⟩ := h
  exact (Trie.endsAt_congr fun q hq => hlong.suffix_iff (hmem q hq)).mp (hm s hs)

theorem tracks_ofTrie {t : Trie} {path : ℕ → List ℕ} (hl : t.Labelled path)
    (hp : t.Holds path pats) : (ofTrie t).Tracks pats [] 0 := by
  obtain ⟨d, hseen, hall⟩ := Trie.bfs_spec hl
  have hsub : ∀ v ∈ (ofTrie t).order, v < t.nodes.length ∧ t.Falls path (ofTrie t).fail v :=
    fun v hv => ⟨hseen.lt v (List.mem_append_left _ hv), hseen.falls v (List.mem_append_left _ hv)⟩
  refine ⟨path, hl, fun v hv => (hsub v (hall v hv)).2, fun v hv => ?_, hp.mem, hl.pos, ?_⟩
  · exact Trie.foldl_matchAt_spec hl hp [] List.length_replicate
      (fun v hv => (hsub v hv).1) hall (List.nodup_append.mp hseen.nodup).1
      (List.pairwise_append.mp hseen.sorted).1 (fun v hv => (hsub v hv).2)
      (fun v hv => absurd hv List.not_mem_nil) v (hall v hv)
  · rw [hl.root]
    exact IsLongest.nil hl.prefixClosed

/-! ## The automaton of a set of patterns -/

/-- The condition of the loop in `next`. -/
def GoesOn (ac : AhoCorasick) (ch s : ℕ) : Prop := s ≠ 0 ∧ (ac.t.node s).child ch = none

/-- `state = fail[state]` -/
def link (ac : AhoCorasick) (s : ℕ) : ℕ := ac.fail.getD s 0

theorem fall_stops {path : ℕ → List ℕ} (hl : ac.t.Labelled path)
    (hf : ∀ v < ac.t.nodes.length, ac.t.Falls path ac.fail v) (ch : ℕ) {fuel : ℕ}
    (hs : s < ac.t.nodes.length) (hfuel : (path s).length ≤ fuel) :
    ∃ k, (∀ i < k, ac.GoesOn ch (ac.link^[i] s)) ∧ ¬ ac.GoesOn ch (ac.link^[k] s) ∧
      ac.t.fall ac.fail ch fuel s = ac.link^[k] s := by
  induction fuel generalizing s with
  | zero =>
    obtain rfl := hl.eq_zero hs (List.length_eq_zero_iff.mp (Nat.le_zero.mp hfuel))
    exact ⟨0, fun i hi => absurd hi (Nat.not_lt_zero i), fun h => h.1 rfl, rfl⟩
  | succ fuel ih =>
    rw [Trie.fall]
    by_cases hgo : ac.GoesOn ch s
    · have hlen := (hf s hs).length_le
      obtain ⟨k, hk, hstop, hfall⟩ := ih (hf s hs).lt (by omega)
      refine ⟨k + 1, fun i hi => ?_, by rwa [Function.iterate_succ_apply], ?_⟩
      · cases i with
        | zero => exact hgo
        | succ i =>
          rw [Function.iterate_succ_apply]
          exact hk i (Nat.lt_of_succ_lt_succ hi)
      · rw [if_pos (show s ≠ 0 ∧ (ac.t.node s).child ch = none from hgo), hfall,
          Function.iterate_succ_apply]
        rfl
    · exact ⟨0, fun i hi => absurd hi (Nat.not_lt_zero i), hgo, if_neg hgo⟩

theorem foldl_tracks (h : ac.Tracks pats w s) (text : List ℕ) :
    ac.Tracks pats (w ++ text) (text.foldl ac.next s) := by
  induction text generalizing w s with
  | nil => rwa [List.append_nil]
  | cons c text ih =>
    rw [List.foldl_cons, ← List.singleton_append, ← List.append_assoc]
    exact ih (h.next c)

/-- The automaton of a list of patterns. -/
def ofPatterns (patterns : List (List ℕ)) : AhoCorasick := ofTrie (Trie.empty.insertAll patterns)

/-- Whatever is read, the state is the node of the longest suffix that begins a pattern, its match
is the longest pattern at the end, and the loop of `next` stops. -/
theorem automaton_correct (patterns : List (List ℕ)) :
    (∀ text : List ℕ,
      (∃ x, IsLongest (Trie.prefixesOf patterns) text x ∧
        (ofPatterns patterns).t.walk x 0 = some (text.foldl (ofPatterns patterns).next 0)) ∧
      Trie.EndsAt (patterns.foldl Trie.addPattern []) text
        ((ofPatterns patterns).matchPattern (text.foldl (ofPatterns patterns).next 0))) ∧
    ∀ s < (ofPatterns patterns).t.nodes.length, ∀ ch, ∃ k,
      (∀ i < k, (ofPatterns patterns).GoesOn ch ((ofPatterns patterns).link^[i] s)) ∧
      ¬ (ofPatterns patterns).GoesOn ch ((ofPatterns patterns).link^[k] s) ∧
      (ofPatterns patterns).next s ch =
        (((ofPatterns patterns).t.node ((ofPatterns patterns).link^[k] s)).child ch).getD 0 := by
  rw [ofPatterns]
  obtain ⟨path₀, hl₀, hp₀, hwords₀⟩ :=
    Trie.insertAll_spec patterns Trie.empty_labelled Trie.empty_holds
  have hwords := Trie.words_insertAll hl₀ hp₀ hwords₀
  refine ⟨fun text => ?_, fun s hs ch => ?_⟩
  · have htracks := foldl_tracks (tracks_ofTrie hl₀ hp₀) text
    refine ⟨?_, htracks.matchPattern⟩
    obtain ⟨path, hl, -, -, -, hs, hlong⟩ := htracks
    refine ⟨path (text.foldl (ofTrie (Trie.empty.insertAll patterns)).next 0), ?_, ?_⟩
    · have hsame : (ofTrie (Trie.empty.insertAll patterns)).t.words path = Trie.prefixesOf patterns := by
        rw [← hwords]
        exact Trie.Labelled.words_eq hl hl₀
      rw [← hsame]
      exact hlong
    · refine (hl.walk_iff _ hl.pos).mpr ⟨hs, ?_⟩
      rw [hl.root, List.nil_append]
  · obtain ⟨path, hl, hf, -⟩ := tracks_ofTrie hl₀ hp₀
    obtain ⟨k, hk, hstop, hfall⟩ := fall_stops hl hf ch hs ((hl.depth_le hs).trans hs.le)
    exact ⟨k, hk, hstop, by rw [AhoCorasick.next, hfall]⟩

end AhoCorasick

end RocmFpx
