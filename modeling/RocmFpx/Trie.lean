import Mathlib.Data.List.Infix
import Mathlib.Data.List.Nodup
import Mathlib.Data.List.GetD
import RocmFpx.LongestAffix

/-!
The trie of several words (`common_trie`). A node is a number; the root is node 0. Each node stands
for one word, which its parent's word and the symbol on the edge give.
-/

namespace RocmFpx

open LongestSuffix

/-- `common_trie::node`: the children by symbol and the pattern that ends here. -/
structure TrieNode where
  children : List (ℕ × ℕ)
  pattern : Option ℕ

/-- `common_trie`. -/
structure Trie where
  nodes : List TrieNode
  nPatterns : ℕ

namespace TrieNode

/-- A node as `create_node` makes it. -/
def empty : TrieNode := ⟨[], none⟩

/-- `children.find(ch)`. -/
def child (n : TrieNode) (ch : ℕ) : Option ℕ := n.children.lookup ch

/-- `children[ch] = v` for a symbol without a child; the map is kept by symbol. -/
def insertChild (ch v : ℕ) : List (ℕ × ℕ) → List (ℕ × ℕ)
  | [] => [(ch, v)]
  | e :: l => if ch < e.1 then (ch, v) :: e :: l else e :: insertChild ch v l

theorem mem_insertChild {ch v : ℕ} {e : ℕ × ℕ} {l : List (ℕ × ℕ)} :
    e ∈ insertChild ch v l ↔ e = (ch, v) ∨ e ∈ l := by
  induction l with
  | nil => rw [insertChild, List.mem_singleton, or_iff_left List.not_mem_nil]
  | cons x l ih =>
    rw [insertChild]
    split_ifs
    · exact List.mem_cons
    · rw [List.mem_cons, List.mem_cons, ih, or_left_comm]

theorem nodup_insertChild {ch v : ℕ} {l : List (ℕ × ℕ)} (hl : l.Nodup) (hnew : (ch, v) ∉ l) :
    (insertChild ch v l).Nodup := by
  induction l with
  | nil => exact List.nodup_singleton _
  | cons x l ih =>
    rw [insertChild]
    split_ifs
    · exact List.nodup_cons.mpr ⟨hnew, hl⟩
    · obtain ⟨hx, hl⟩ := List.nodup_cons.mp hl
      obtain ⟨hne, hnew⟩ := not_or.mp (mt List.mem_cons.mpr hnew)
      refine List.nodup_cons.mpr ⟨fun h => ?_, ih hl hnew⟩
      exact (mem_insertChild.1 h).elim (fun h => hne h.symm) hx

theorem mem_of_child {n : TrieNode} {ch v : ℕ} (h : n.child ch = some v) : (ch, v) ∈ n.children := by
  obtain ⟨children, pattern⟩ := n
  simp only [child] at h ⊢
  induction children with
  | nil => nomatch h
  | cons e l ih =>
    rw [List.lookup_cons] at h
    split at h
    · rename_i heq
      obtain rfl := Option.some.inj h
      obtain rfl := eq_of_beq heq
      exact List.mem_cons_self
    · exact List.mem_cons_of_mem _ (ih h)

theorem child_ne_none {n : TrieNode} {ch v : ℕ} (h : (ch, v) ∈ n.children) : n.child ch ≠ none := by
  obtain ⟨children, pattern⟩ := n
  simp only [child] at h ⊢
  induction children with
  | nil => exact absurd h List.not_mem_nil
  | cons e l ih =>
    rw [List.lookup_cons]
    obtain heq | h := List.mem_cons.mp h
    · rw [← heq, beq_self_eq_true]
      exact Option.some_ne_none _
    · split
      · exact Option.some_ne_none _
      · exact ih h

end TrieNode

namespace Trie

def empty : Trie := ⟨[.empty], 0⟩

def node (t : Trie) (i : ℕ) : TrieNode := t.nodes.getD i .empty

/-- A new child of `current`. -/
def createChild (t : Trie) (current ch : ℕ) : Trie :=
  { t with nodes := (t.nodes ++ [TrieNode.empty]).modify current fun n =>
      { n with children := TrieNode.insertChild ch t.nodes.length n.children } }

/-- The loop of `insert`: the node of the word and the trie with it. -/
def descend (t : Trie) : List ℕ → ℕ → Trie × ℕ
  | [], current => (t, current)
  | ch :: symbols, current =>
    match (t.node current).child ch with
    | none => (t.createChild current ch).descend symbols t.nodes.length
    | some v => t.descend symbols v

/-- `nodes[current].pattern = n_patterns++` -/
def setPattern (t : Trie) (current : ℕ) : Trie :=
  { nodes := t.nodes.modify current fun n => { n with pattern := some t.nPatterns }
    nPatterns := t.nPatterns + 1 }

def insert (t : Trie) (symbols : List ℕ) : Trie × ℕ :=
  let r := t.descend symbols 0
  match (r.1.node r.2).pattern with
  | none => (r.1.setPattern r.2, r.1.nPatterns)
  | some p => (r.1, p)

def insertAll (t : Trie) (words : List (List ℕ)) : Trie :=
  words.foldl (fun t w => (t.insert w).1) t

/-! ## The word of a node -/

/-- The node `v` stands for the word `path v`. -/
structure Labelled (t : Trie) (path : ℕ → List ℕ) : Prop where
  root : path 0 = []
  pos : 0 < t.nodes.length
  edge : ∀ u < t.nodes.length, ∀ c v, (c, v) ∈ (t.node u).children →
    v < t.nodes.length ∧ path v = path u ++ [c]
  parent : ∀ v < t.nodes.length, v ≠ 0 → ∃ u < v, ∃ c, (c, v) ∈ (t.node u).children
  inj : ∀ u < t.nodes.length, ∀ v < t.nodes.length, path u = path v → u = v
  nodup : ∀ u < t.nodes.length, (t.node u).children.Nodup

/-- The words of the nodes. -/
def words (t : Trie) (path : ℕ → List ℕ) : Set (List ℕ) := {w | ∃ v < t.nodes.length, path v = w}

/-- The patterns are numbered in the order of their insertion. -/
structure Holds (t : Trie) (path : ℕ → List ℕ) (pats : List (List ℕ)) : Prop where
  count : t.nPatterns = pats.length
  pattern : ∀ u < t.nodes.length, ∀ i, (t.node u).pattern = some i ↔ pats[i]? = some (path u)
  mem : ∀ p ∈ pats, p ∈ t.words path

variable {t : Trie} {path : ℕ → List ℕ} {pats : List (List ℕ)} {u v c : ℕ}

theorem Labelled.child_iff (h : t.Labelled path) (hu : u < t.nodes.length) :
    (t.node u).child c = some v ↔ v < t.nodes.length ∧ path v = path u ++ [c] := by
  constructor
  · intro hc
    exact h.edge u hu c v (TrieNode.mem_of_child hc)
  · rintro ⟨hv, hpath⟩
    have hne : v ≠ 0 := by
      rintro rfl
      rw [h.root] at hpath
      exact absurd hpath.symm (List.append_ne_nil_of_right_ne_nil _ (List.cons_ne_nil _ _))
    obtain ⟨u', hu', c', hmem⟩ := h.parent v hv hne
    obtain ⟨-, hpath'⟩ := h.edge u' (hu'.trans hv) c' v hmem
    obtain ⟨hpu, hc⟩ := List.append_inj' (hpath.symm.trans hpath') rfl
    obtain rfl := h.inj u hu u' (hu'.trans hv) hpu
    obtain rfl := List.singleton_inj.mp hc
    obtain ⟨w, hw⟩ := Option.ne_none_iff_exists'.mp (TrieNode.child_ne_none hmem)
    obtain ⟨hwlt, hpw⟩ := h.edge u hu c w (TrieNode.mem_of_child hw)
    rw [hw, h.inj w hwlt v hv (hpw.trans hpath.symm)]

theorem Labelled.child_none (h : t.Labelled path) (hu : u < t.nodes.length) :
    (t.node u).child c = none ↔ path u ++ [c] ∉ t.words path := by
  rw [Option.eq_none_iff_forall_ne_some]
  refine ⟨fun hn ⟨v, hv, hpath⟩ => hn v ((h.child_iff hu).mpr ⟨hv, hpath⟩), fun hn v hc => ?_⟩
  exact hn ⟨v, (h.child_iff hu).mp hc⟩

theorem Labelled.mem_words (_ : t.Labelled path) (hu : u < t.nodes.length) : path u ∈ t.words path :=
  ⟨u, hu, rfl⟩

theorem Labelled.prefixClosed (h : t.Labelled path) : PrefixClosed (t.words path) := by
  refine ⟨⟨0, h.pos, h.root⟩, ?_⟩
  rintro w c ⟨v, hv, hpath⟩
  have hne : v ≠ 0 := by
    rintro rfl
    rw [h.root] at hpath
    exact absurd hpath.symm (List.append_ne_nil_of_right_ne_nil _ (List.cons_ne_nil _ _))
  obtain ⟨u, hu, c', hmem⟩ := h.parent v hv hne
  obtain ⟨-, hpath'⟩ := h.edge u (hu.trans hv) c' v hmem
  exact ⟨u, hu.trans hv, (List.append_inj' (hpath'.symm.trans hpath) rfl).1⟩

/-- A node lies at most as deep as its number. -/
theorem Labelled.depth_le (h : t.Labelled path) (hv : v < t.nodes.length) : (path v).length ≤ v := by
  induction v using Nat.strong_induction_on with
  | _ v ih =>
    by_cases hne : v = 0
    · rw [hne, h.root]
      exact le_rfl
    · obtain ⟨u, hu, c, hmem⟩ := h.parent v hv hne
      have hlt := hu.trans hv
      rw [(h.edge u hlt c v hmem).2, List.length_append, List.length_singleton]
      have := ih u hu hlt
      omega

theorem Labelled.eq_zero (h : t.Labelled path) (hv : v < t.nodes.length) (hpath : path v = []) :
    v = 0 :=
  h.inj v hv 0 h.pos (hpath.trans h.root.symm)

theorem Labelled.path_eq {path' : ℕ → List ℕ} (h : t.Labelled path) (h' : t.Labelled path')
    (hv : v < t.nodes.length) : path v = path' v := by
  induction v using Nat.strong_induction_on with
  | _ v ih =>
    by_cases hv0 : v = 0
    · rw [hv0, h.root, h'.root]
    · obtain ⟨u, hu, c, hmem⟩ := h.parent v hv hv0
      have hult := hu.trans hv
      rw [(h.edge u hult c v hmem).2, (h'.edge u hult c v hmem).2, ih u hu hult]

theorem Labelled.words_eq {path' : ℕ → List ℕ} (h : t.Labelled path) (h' : t.Labelled path') :
    t.words path = t.words path' := by
  ext w
  refine exists_congr fun v => and_congr_right fun hv => ?_
  rw [h.path_eq h' hv]

/-! ## Insertion -/

theorem node_of_lt (hu : u < t.nodes.length) : t.node u = t.nodes[u] := by
  rw [node, List.getD_eq_getElem _ _ hu]

theorem length_createChild (t : Trie) (u c : ℕ) :
    (t.createChild u c).nodes.length = t.nodes.length + 1 := by
  rw [createChild, List.length_modify, List.length_append, List.length_singleton]

theorem node_createChild (hu : u < t.nodes.length) (hv : v < t.nodes.length) :
    (t.createChild u c).node v = if v = u then
      { t.node u with children := TrieNode.insertChild c t.nodes.length (t.node u).children }
    else t.node v := by
  have hlt : v < (t.createChild u c).nodes.length := by
    rw [length_createChild]
    omega
  rw [node_of_lt hlt, node_of_lt hv, node_of_lt hu]
  simp only [createChild, List.getElem_modify, List.getElem_append_left hv]
  split_ifs with h h' h'
  · simp only [h']
  · exact absurd h.symm h'
  · exact absurd h'.symm h
  · rfl

theorem node_createChild_new (hu : u < t.nodes.length) :
    (t.createChild u c).node t.nodes.length = TrieNode.empty := by
  have hlt : t.nodes.length < (t.createChild u c).nodes.length := by
    rw [length_createChild]
    omega
  rw [node_of_lt hlt]
  simp only [createChild, List.getElem_modify, if_neg hu.ne]
  rw [List.getElem_append_right le_rfl]
  simp

theorem Labelled.createChild (h : t.Labelled path) (hu : u < t.nodes.length)
    (hc : (t.node u).child c = none) :
    (t.createChild u c).Labelled (Function.update path t.nodes.length (path u ++ [c])) := by
  have hold : ∀ w < t.nodes.length,
      Function.update path t.nodes.length (path u ++ [c]) w = path w :=
    fun w hw => Function.update_of_ne hw.ne _ _
  have hfresh : ∀ w < t.nodes.length, path w ≠ path u ++ [c] :=
    fun w hw hpath => (h.child_none hu).mp hc ⟨w, hw, hpath⟩
  have hedge : ∀ w < t.nodes.length, ∀ d v,
      (d, v) ∈ ((t.createChild u c).node w).children ↔
        (w = u ∧ d = c ∧ v = t.nodes.length) ∨ (d, v) ∈ (t.node w).children := by
    intro w hw d v
    rw [node_createChild hu hw]
    split_ifs with hwu
    · simp only [TrieNode.mem_insertChild, Prod.mk.injEq, hwu, true_and]
    · simp only [hwu, false_and, false_or]
  have hnew : ((t.createChild u c).node t.nodes.length).children = [] := by
    rw [node_createChild_new hu]
    rfl
  have hsplit : ∀ {w}, w < (t.createChild u c).nodes.length →
      w < t.nodes.length ∨ w = t.nodes.length := by
    intro w hw
    rw [length_createChild] at hw
    omega
  constructor
  case root => rw [hold 0 h.pos, h.root]
  case pos => rw [length_createChild]; exact Nat.succ_pos _
  case edge =>
    intro w hw d v hmem
    obtain hw | rfl := hsplit hw
    · obtain ⟨rfl, rfl, rfl⟩ | hmem := (hedge w hw d v).mp hmem
      · rw [hold w hu, Function.update_self, length_createChild]
        exact ⟨Nat.lt_succ_self _, rfl⟩
      · obtain ⟨hv, hpath⟩ := h.edge w hw d v hmem
        rw [hold w hw, hold v hv, length_createChild]
        exact ⟨hv.trans (Nat.lt_succ_self _), hpath⟩
    · rw [hnew] at hmem
      exact absurd hmem List.not_mem_nil
  case parent =>
    intro v hv hne
    obtain hv | rfl := hsplit hv
    · obtain ⟨w, hw, d, hmem⟩ := h.parent v hv hne
      exact ⟨w, hw, d, (hedge w (hw.trans hv) d v).mpr (Or.inr hmem)⟩
    · exact ⟨u, hu, c, (hedge u hu c _).mpr (Or.inl ⟨rfl, rfl, rfl⟩)⟩
  case inj =>
    intro w hw v hv hpath
    obtain hw | rfl := hsplit hw
    · obtain hv | rfl := hsplit hv
      · rw [hold w hw, hold v hv] at hpath
        exact h.inj w hw v hv hpath
      · rw [hold w hw, Function.update_self] at hpath
        exact absurd hpath (hfresh w hw)
    · obtain hv | rfl := hsplit hv
      · rw [hold v hv, Function.update_self] at hpath
        exact absurd hpath.symm (hfresh v hv)
      · rfl
  case nodup =>
    intro w hw
    obtain hw | rfl := hsplit hw
    · rw [node_createChild hu hw]
      split_ifs with hwu
      · refine TrieNode.nodup_insertChild (h.nodup u hu) fun hmem => ?_
        exact absurd (h.edge u hu _ _ hmem).1 (lt_irrefl _)
      · exact h.nodup w hw
    · rw [hnew]
      exact List.nodup_nil

theorem Holds.createChild (hp : t.Holds path pats) (hl : t.Labelled path)
    (hu : u < t.nodes.length) (hc : (t.node u).child c = none) :
    (t.createChild u c).Holds (Function.update path t.nodes.length (path u ++ [c])) pats := by
  have hold : ∀ w < t.nodes.length,
      Function.update path t.nodes.length (path u ++ [c]) w = path w :=
    fun w hw => Function.update_of_ne hw.ne _ _
  refine ⟨hp.count, fun w hw i => ?_, fun p hmem => ?_⟩
  · by_cases hlt : w < t.nodes.length
    · rw [hold w hlt, ← hp.pattern w hlt, node_createChild hu hlt]
      split_ifs with hwu
      · rw [hwu]
      · rfl
    · obtain rfl : w = t.nodes.length := by
        rw [length_createChild] at hw
        omega
      rw [node_createChild_new hu, Function.update_self]
      refine ⟨fun h => (nomatch h), fun h => absurd ?_ ((hl.child_none hu).mp hc)⟩
      exact hp.mem _ (List.mem_of_getElem? h)
  · obtain ⟨v, hv, hpath⟩ := hp.mem p hmem
    refine ⟨v, ?_, (hold v hv).trans hpath⟩
    rw [length_createChild]
    exact hv.trans (Nat.lt_succ_self _)

theorem mem_words_createChild {w : List ℕ}
    (hw : w ∈ (t.createChild u c).words
      (Function.update path t.nodes.length (path u ++ [c]))) :
    w ∈ t.words path ∨ w = path u ++ [c] := by
  obtain ⟨v, hv, rfl⟩ := hw
  rw [length_createChild] at hv
  by_cases hnew : v = t.nodes.length
  · rw [hnew, Function.update_self]
    exact Or.inr rfl
  · rw [Function.update_of_ne hnew]
    exact Or.inl ⟨v, by omega, rfl⟩

theorem descend_spec (symbols : List ℕ) (hl : t.Labelled path) (hp : t.Holds path pats)
    (hu : u < t.nodes.length) :
    ∃ path', (t.descend symbols u).1.Labelled path' ∧ (t.descend symbols u).1.Holds path' pats ∧
      (t.descend symbols u).2 < (t.descend symbols u).1.nodes.length ∧
      path' (t.descend symbols u).2 = path u ++ symbols ∧
      ∀ w ∈ (t.descend symbols u).1.words path', w ∈ t.words path ∨ w <+: path u ++ symbols := by
  induction symbols generalizing t path u with
  | nil => exact ⟨path, hl, hp, hu, (List.append_nil _).symm, fun w hw => Or.inl hw⟩
  | cons c symbols ih =>
    rw [descend]
    cases hc : (t.node u).child c with
    | none =>
      have hlt : t.nodes.length < (t.createChild u c).nodes.length := by
        rw [length_createChild]
        exact Nat.lt_succ_self _
      have hword : Function.update path t.nodes.length (path u ++ [c]) t.nodes.length ++ symbols =
          path u ++ c :: symbols := by
        rw [Function.update_self, List.append_assoc, List.singleton_append]
      obtain ⟨path', hl', hp', hlt', hpath, hwords⟩ :=
        ih (hl.createChild hu hc) (hp.createChild hl hu hc) hlt
      rw [hword] at hpath hwords
      refine ⟨path', hl', hp', hlt', hpath, fun w hw => (hwords w hw).elim (fun hw => ?_) Or.inr⟩
      refine (mem_words_createChild hw).imp_right fun hw => ?_
      exact hw ▸ ⟨symbols, by rw [List.append_assoc, List.singleton_append]⟩
    | some v =>
      obtain ⟨hv, hpv⟩ := (hl.child_iff hu).mp hc
      obtain ⟨path', hl', hp', hlt', hpath, hwords⟩ := ih hl hp hv
      rw [hpv, List.append_assoc, List.singleton_append] at hpath hwords
      exact ⟨path', hl', hp', hlt', hpath, hwords⟩

theorem node_setPattern (hv : v < t.nodes.length) :
    (t.setPattern u).node v =
      if v = u then { t.node v with pattern := some t.nPatterns } else t.node v := by
  have hlt : v < (t.setPattern u).nodes.length := by
    rw [setPattern, List.length_modify]
    exact hv
  rw [node_of_lt hlt, node_of_lt hv]
  simp only [setPattern, List.getElem_modify, eq_comm (a := u)]

theorem length_setPattern (t : Trie) (u : ℕ) :
    (t.setPattern u).nodes.length = t.nodes.length := by
  rw [setPattern, List.length_modify]

theorem children_setPattern (hv : v < t.nodes.length) :
    ((t.setPattern u).node v).children = (t.node v).children := by
  rw [node_setPattern hv]
  split_ifs <;> rfl

theorem Labelled.setPattern (h : t.Labelled path) (u : ℕ) : (t.setPattern u).Labelled path := by
  constructor
  case root => exact h.root
  case pos => rw [length_setPattern]; exact h.pos
  case edge =>
    intro w hw d v hmem
    rw [length_setPattern] at hw ⊢
    rw [children_setPattern hw] at hmem
    exact h.edge w hw d v hmem
  case parent =>
    intro v hv hne
    rw [length_setPattern] at hv
    obtain ⟨w, hw, d, hmem⟩ := h.parent v hv hne
    refine ⟨w, hw, d, ?_⟩
    rw [children_setPattern (hw.trans hv)]
    exact hmem
  case inj => rw [length_setPattern]; exact h.inj
  case nodup =>
    intro w hw
    rw [length_setPattern] at hw
    rw [children_setPattern hw]
    exact h.nodup w hw

theorem Holds.setPattern (hp : t.Holds path pats) (hl : t.Labelled path) (hu : u < t.nodes.length)
    (hnone : (t.node u).pattern = none) : (t.setPattern u).Holds path (pats ++ [path u]) := by
  have hfresh : ∀ i, pats[i]? ≠ some (path u) := fun i hi => by
    rw [← hp.pattern u hu, hnone] at hi
    nomatch hi
  refine ⟨?_, fun v hv i => ?_, fun p hmem => ?_⟩
  · rw [Trie.setPattern, List.length_append, List.length_singleton, hp.count]
  · rw [length_setPattern] at hv
    rw [node_setPattern hv, List.getElem?_append]
    split_ifs with hvu hi hi
    · simp only [hvu, Option.some.injEq, hp.count, hfresh, iff_false]
      omega
    · rw [hvu, hp.count, Option.some.injEq, List.getElem?_singleton]
      split_ifs
      · exact ⟨fun _ => rfl, fun _ => by omega⟩
      · exact ⟨fun _ => by omega, fun h => (nomatch h)⟩
    · exact hp.pattern v hv i
    · rw [hp.pattern v hv, List.getElem?_singleton, List.getElem?_eq_none (not_lt.mp hi)]
      refine ⟨fun h => (nomatch h), fun h => ?_⟩
      split_ifs at h
      exact absurd (hl.inj u hu v hv (Option.some.inj h)).symm hvu
  · obtain hmem | rfl := List.mem_append.mp hmem |>.imp_right List.mem_singleton.mp
    · obtain ⟨v, hv, hpath⟩ := hp.mem p hmem
      exact ⟨v, by rwa [length_setPattern], hpath⟩
    · exact ⟨u, by rwa [length_setPattern], rfl⟩

/-- The patterns after one more insertion: a word inserted again keeps its number. -/
def addPattern (pats : List (List ℕ)) (w : List ℕ) : List (List ℕ) :=
  if w ∈ pats then pats else pats ++ [w]

theorem insert_spec (w : List ℕ) (hl : t.Labelled path) (hp : t.Holds path pats) :
    ∃ path', (t.insert w).1.Labelled path' ∧ (t.insert w).1.Holds path' (addPattern pats w) ∧
      (addPattern pats w)[(t.insert w).2]? = some w ∧
      ∀ x ∈ (t.insert w).1.words path', x ∈ t.words path ∨ x <+: w := by
  obtain ⟨path', hl', hp', hlt, hpath, hwords⟩ := descend_spec w hl hp hl.pos
  rw [hl.root, List.nil_append] at hpath hwords
  refine ⟨path', ?_⟩
  rw [insert]
  cases hpat : ((t.descend w 0).1.node (t.descend w 0).2).pattern with
  | none =>
    have hnew : w ∉ pats := by
      intro hmem
      obtain ⟨i, hi⟩ := List.getElem?_of_mem hmem
      rw [← hpath, ← hp'.pattern _ hlt, hpat] at hi
      nomatch hi
    simp only [addPattern, if_neg hnew, hp'.count, List.getElem?_concat_length, true_and]
    have hset := hp'.setPattern hl' hlt hpat
    rw [hpath] at hset
    refine ⟨hl'.setPattern _, hset, fun x hx => hwords x ?_⟩
    simpa only [words, length_setPattern] using hx
  | some p =>
    have hp := (hp'.pattern _ hlt p).mp hpat
    rw [hpath] at hp
    simp only [addPattern, if_pos (List.mem_of_getElem? hp)]
    exact ⟨hl', hp', hp, hwords⟩

theorem empty_labelled : empty.Labelled fun _ => [] := by
  constructor
  case root => rfl
  case pos => exact Nat.one_pos
  case edge =>
    rintro u hu c v hmem
    obtain rfl : u = 0 := Nat.lt_one_iff.mp hu
    exact absurd hmem List.not_mem_nil
  case parent =>
    intro v hv hne
    exact absurd (Nat.lt_one_iff.mp hv) hne
  case inj =>
    intro u hu v hv _
    exact (Nat.lt_one_iff.mp hu).trans (Nat.lt_one_iff.mp hv).symm
  case nodup =>
    intro u hu
    obtain rfl : u = 0 := Nat.lt_one_iff.mp hu
    exact List.nodup_nil

theorem empty_holds : empty.Holds (fun _ => []) [] := by
  refine ⟨rfl, fun u hu i => ?_, fun p hp => absurd hp List.not_mem_nil⟩
  obtain rfl : u = 0 := Nat.lt_one_iff.mp hu
  exact ⟨fun h => (nomatch h), fun h => (nomatch h)⟩

theorem insertAll_spec (ws : List (List ℕ)) (hl : t.Labelled path) (hp : t.Holds path pats) :
    ∃ path', (t.insertAll ws).Labelled path' ∧
      (t.insertAll ws).Holds path' (ws.foldl addPattern pats) ∧
      ∀ x ∈ (t.insertAll ws).words path', x ∈ t.words path ∨ ∃ w ∈ ws, x <+: w := by
  induction ws generalizing t path pats with
  | nil => exact ⟨path, hl, hp, fun x hx => Or.inl hx⟩
  | cons w ws ih =>
    obtain ⟨path₁, hl₁, hp₁, -, hwords₁⟩ := insert_spec w hl hp
    obtain ⟨path₂, hl₂, hp₂, hwords₂⟩ := ih hl₁ hp₁
    refine ⟨path₂, hl₂, hp₂, fun x hx => ?_⟩
    obtain hx | ⟨v, hv, hxv⟩ := hwords₂ x hx
    · exact (hwords₁ x hx).imp_right fun hxw => ⟨w, List.mem_cons_self, hxw⟩
    · exact Or.inr ⟨v, List.mem_cons_of_mem w hv, hxv⟩

theorem mem_addPattern {p w : List ℕ} : p ∈ addPattern pats w ↔ p ∈ pats ∨ p = w := by
  rw [addPattern]
  split_ifs with h
  · exact ⟨Or.inl, fun hp => hp.elim id fun hp => hp ▸ h⟩
  · rw [List.mem_append, List.mem_singleton]

theorem mem_foldl_addPattern {p : List ℕ} {ws : List (List ℕ)} :
    p ∈ ws.foldl addPattern pats ↔ p ∈ pats ∨ p ∈ ws := by
  induction ws generalizing pats with
  | nil => rw [List.foldl_nil, or_iff_left List.not_mem_nil]
  | cons w ws ih => rw [List.foldl_cons, ih, mem_addPattern, List.mem_cons, or_assoc]

/-! ## The words of a trie of patterns -/

/-- The node that the word leads to from node `u`. -/
def walk (t : Trie) : List ℕ → ℕ → Option ℕ
  | [], u => some u
  | c :: w, u => ((t.node u).child c).bind (t.walk w)

theorem Labelled.walk_iff (h : t.Labelled path) (w : List ℕ) (hu : u < t.nodes.length) :
    t.walk w u = some v ↔ v < t.nodes.length ∧ path v = path u ++ w := by
  induction w generalizing u with
  | nil =>
    rw [walk, Option.some_inj, List.append_nil]
    refine ⟨fun huv => huv ▸ ⟨hu, rfl⟩, fun hv => (h.inj v hv.1 u hu hv.2).symm⟩
  | cons c w ih =>
    rw [walk, Option.bind_eq_some_iff]
    constructor
    · rintro ⟨x, hx, hwalk⟩
      obtain ⟨hxlt, hxpath⟩ := (h.child_iff hu).mp hx
      rw [ih hxlt, hxpath, List.append_assoc, List.singleton_append] at hwalk
      exact hwalk
    · rintro ⟨hv, hpath⟩
      have hmid : path u ++ [c] ∈ t.words path := by
        refine h.prefixClosed.of_prefix (h.mem_words hv) ⟨w, ?_⟩
        rw [hpath, List.append_assoc, List.singleton_append]
      obtain ⟨x, hxlt, hxpath⟩ := hmid
      refine ⟨x, (h.child_iff hu).mpr ⟨hxlt, hxpath⟩, (ih hxlt).mpr ⟨hv, ?_⟩⟩
      rw [hxpath, hpath, List.append_assoc, List.singleton_append]

/-- The prefixes of some pattern; the root stands for the empty word even without a pattern. -/
def prefixesOf (patterns : List (List ℕ)) : Set (List ℕ) := {w | w = [] ∨ ∃ p ∈ patterns, w <+: p}

theorem words_insertAll {patterns : List (List ℕ)} (hl : (empty.insertAll patterns).Labelled path)
    (hp : (empty.insertAll patterns).Holds path (patterns.foldl addPattern []))
    (hwords : ∀ x ∈ (empty.insertAll patterns).words path,
      x ∈ empty.words (fun _ => []) ∨ ∃ w ∈ patterns, x <+: w) :
    (empty.insertAll patterns).words path = prefixesOf patterns := by
  ext x
  constructor
  · intro hx
    refine (hwords x hx).imp_left ?_
    rintro ⟨v, -, rfl⟩
    rfl
  · rintro (rfl | ⟨p, hpmem, hxp⟩)
    · exact hl.prefixClosed.nil_mem
    · refine hl.prefixClosed.of_prefix (hp.mem p ?_) hxp
      exact mem_foldl_addPattern.2 (Or.inr hpmem)

end Trie

end RocmFpx
