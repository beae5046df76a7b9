import RocmFpx.RecurrentPlacing

/-!
The last loops of `find_slot`: the cells of the sets are swapped into order, get their positions
and lists, and the sources of the cells in range are staged.
-/

namespace RocmFpx
namespace MemoryRecurrent

variable {p : RecurrentParams} {m m' m₂ : MemoryRecurrent p} {q a b lo hi : ℕ}

/-! ## Swapping cells -/

/-- Memory `m` is `m₂` with cell `σ c` moved to place `c`, and the tails follow. -/
structure Moved (m₂ : MemoryRecurrent p) (σ : Equiv.Perm ℕ) (m : MemoryRecurrent p) : Prop where
  ids_eq : ∀ c, m.ids c = m₂.ids (σ c)
  pos_eq : ∀ c, (m.cells c).pos = (m₂.cells (σ c)).pos
  src_eq : ∀ c, (m.cells c).src = (m₂.cells (σ c)).src
  tails_iff : ∀ (q c : ℕ), m.tails q = c ↔ m₂.tails q = (σ c : ℕ)
  no_tail : ∀ q, m₂.tails q = -1 → m.tails q = -1

theorem Moved.refl (m : MemoryRecurrent p) : Moved m 1 m where
  ids_eq _ := rfl
  pos_eq _ := rfl
  src_eq _ := rfl
  tails_iff _ _ := Iff.rfl
  no_tail _ h := h

theorem swapCells_tails (a b q : ℕ) : (m.swapCells a b).tails q = followSwap a b (m.tails q) := rfl

theorem Moved.swap {σ : Equiv.Perm ℕ} (h : Moved m₂ σ m) (a b : ℕ) :
    Moved m₂ ((Equiv.swap a b).trans σ) (m.swapCells a b) where
  ids_eq c := h.ids_eq (Equiv.swap a b c)
  pos_eq c := h.pos_eq (Equiv.swap a b c)
  src_eq c := h.src_eq (Equiv.swap a b c)
  tails_iff q c := by
    rw [swapCells_tails, followSwap_eq, h.tails_iff]
    rfl
  no_tail q hq := by
    rw [swapCells_tails, h.no_tail q hq, followSwap, if_neg (by omega), if_neg (by omega)]

theorem Moved.owners_eq {σ : Equiv.Perm ℕ} (h : Moved m₂ σ m) (c : ℕ) :
    owners p.size m.tails c = owners p.size m₂.tails (σ c) := by
  ext q
  rw [mem_owners, mem_owners, h.tails_iff]

/-- The cells outside the range stay. -/
def Fixes (lo hi : ℕ) (σ : Equiv.Perm ℕ) : Prop := ∀ c, c ∉ Finset.Icc lo hi → σ c = c

theorem Fixes.symm_mem {σ : Equiv.Perm ℕ} (h : Fixes lo hi σ) {c : ℕ}
    (hc : c ∈ Finset.Icc lo hi) : σ.symm c ∈ Finset.Icc lo hi := by
  by_contra hout
  have heq := h _ hout
  rw [Equiv.apply_symm_apply] at heq
  exact hout (heq ▸ hc)

theorem Fixes.mem {σ : Equiv.Perm ℕ} (h : Fixes lo hi σ) {c : ℕ} :
    σ c ∈ Finset.Icc lo hi ↔ c ∈ Finset.Icc lo hi := by
  constructor
  · intro hc
    have hmem := h.symm_mem hc
    rwa [Equiv.symm_apply_apply] at hmem
  · intro hc
    by_contra hout
    rw [σ.injective (h _ hout)] at hout
    exact hout hc

theorem Fixes.lt {σ : Equiv.Perm ℕ} (h : Fixes lo hi σ) {n c : ℕ} (hhi : hi < n) (hc : c < n) :
    σ c < n := by
  by_cases hmem : c ∈ Finset.Icc lo hi
  · have hmem' := Finset.mem_Icc.mp (h.mem.mpr hmem)
    omega
  · rwa [h c hmem]

theorem Fixes.swap {σ : Equiv.Perm ℕ} (h : Fixes lo hi σ) (ha : a ∈ Finset.Icc lo hi)
    (hb : b ∈ Finset.Icc lo hi) : Fixes lo hi ((Equiv.swap a b).trans σ) := fun c hc => by
  have hca : c ≠ a := fun heq => hc (heq ▸ ha)
  have hcb : c ≠ b := fun heq => hc (heq ▸ hb)
  rw [Equiv.trans_apply, Equiv.swap_apply_of_ne_of_ne hca hcb, h c hc]

/-- The cells of the sequences in `pre` stand in order from `lo` on. -/
structure Gathered (m₂ : MemoryRecurrent p) (lo hi : ℕ) (pre : List ℕ) (σ : Equiv.Perm ℕ)
    (m : MemoryRecurrent p) : Prop where
  moved : Moved m₂ σ m
  fixes : Fixes lo hi σ
  in_order : ∀ j q, pre[j]? = some q → m.tails q = (lo + j : ℕ)

theorem Gathered.step {pre : List ℕ} {σ : Equiv.Perm ℕ} (h : Gathered m₂ lo hi pre σ m) {c : ℕ}
    (htail : m₂.tails q = c) (hc : c ∈ Finset.Icc lo hi) (hlen : lo + pre.length ≤ hi)
    (hother : ∀ r ∈ pre, m₂.tails r ≠ c) :
    ∃ σ', Gathered m₂ lo hi (pre ++ [q]) σ' (gatherOne lo m (q, pre.length)) := by
  have htail' : m.tails q = (σ.symm c : ℕ) := by
    rw [h.moved.tails_iff, Equiv.apply_symm_apply]
    exact htail
  have hb := h.fixes.symm_mem hc
  have hcell : (m.cells q).tail = (σ.symm c : ℕ) := htail'
  have hlast : ∀ (m' : MemoryRecurrent p), (∀ j r, pre[j]? = some r → m'.tails r = (lo + j : ℕ)) →
      m'.tails q = (lo + pre.length : ℕ) →
      ∀ j r, (pre ++ [q])[j]? = some r → m'.tails r = (lo + j : ℕ) := by
    intro m' hpre hq j r hr
    rcases lt_trichotomy j pre.length with hj | rfl | hj
    · rw [List.getElem?_append_left hj] at hr
      exact hpre j r hr
    · rw [List.getElem?_append_right le_rfl, Nat.sub_self] at hr
      rw [← Option.some.inj hr]
      exact hq
    · rw [List.getElem?_eq_none (by simp only [List.length_append, List.length_singleton]; omega)]
        at hr
      exact absurd hr (by simp)
  rw [gatherOne]
  by_cases hplace : lo + pre.length = σ.symm c
  · rw [if_neg (by simp only [hcell, hplace]; exact not_not.mpr rfl)]
    exact ⟨σ, h.moved, h.fixes, hlast m h.in_order (by rw [htail', hplace])⟩
  · rw [if_pos (by simp only [hcell]; exact fun heq => hplace (Int.ofNat_inj.mp heq))]
    simp only [hcell, Int.toNat_natCast]
    refine ⟨_, h.moved.swap _ _, h.fixes.swap (Finset.mem_Icc.mpr ⟨by omega, hlen⟩) hb,
      hlast _ (fun j r hr => ?_) ?_⟩
    · have hj := (List.getElem?_eq_some_iff.mp hr).1
      have hr' := h.in_order j r hr
      have hne : lo + j ≠ σ.symm c := fun heq => by
        rw [heq, h.moved.tails_iff, Equiv.apply_symm_apply] at hr'
        exact hother r (List.mem_of_getElem? hr) hr'
      rw [swapCells_tails, hr', followSwap, if_neg (by omega), if_neg (by omega)]
    · rw [swapCells_tails, htail', followSwap, if_pos rfl]

theorem gather_gathered {rs : List ℕ} {pre : List ℕ} {σ : Equiv.Perm ℕ}
    (h : Gathered m₂ lo hi pre σ m)
    (hrs : ∀ q ∈ rs, ∃ c ∈ Finset.Icc lo hi, m₂.tails q = (c : ℕ))
    (hlen : lo + pre.length + rs.length ≤ hi + 1)
    (hnd : (pre ++ rs).Pairwise fun q r => m₂.tails q ≠ m₂.tails r) :
    ∃ σ', Gathered m₂ lo hi (pre ++ rs) σ' ((rs.zipIdx pre.length).foldl (gatherOne lo) m) := by
  induction rs generalizing pre σ m with
  | nil => exact ⟨σ, by simpa using h⟩
  | cons q rs ih =>
    obtain ⟨⟨c, hc, htail⟩, hrs⟩ := List.forall_mem_cons.mp hrs
    rw [List.length_cons] at hlen
    have hother : ∀ r ∈ pre, m₂.tails r ≠ c := fun r hr => by
      rw [← htail]
      exact (List.pairwise_append.mp hnd).2.2 r hr q List.mem_cons_self
    obtain ⟨σ', h'⟩ := h.step htail hc (by omega) hother
    rw [List.append_cons] at hnd ⊢
    have hpre : (pre ++ [q]).length = pre.length + 1 := by simp
    rw [List.zipIdx_cons, List.foldl_cons, ← hpre]
    exact ih h' hrs (by omega) hnd

/-! ## Lists and positions -/

def joinAll (m : MemoryRecurrent p) (t : ℕ) (qs : List ℕ) : MemoryRecurrent p :=
  qs.foldl (fun m q => m.join q t) m

theorem joinAll_ids (t : ℕ) (qs : List ℕ) (m : MemoryRecurrent p) (c : ℕ) :
    (m.joinAll t qs).ids c = if c = t then m.ids t ∪ qs.toFinset else m.ids c := by
  induction qs generalizing m with
  | nil =>
    split_ifs with hct
    · rw [hct, List.toFinset_nil, Finset.union_empty]
      rfl
    · rfl
  | cons q qs ih =>
    refine (ih (m.join q t)).trans ?_
    rw [join_ids, join_ids, if_pos rfl]
    split_ifs
    · rw [List.toFinset_cons, Finset.insert_union, Finset.union_insert]
    · rfl

theorem joinAll_tails (t : ℕ) (qs : List ℕ) (m : MemoryRecurrent p) (r : ℕ) :
    (m.joinAll t qs).tails r = if r ∈ qs then (t : ℤ) else m.tails r := by
  induction qs generalizing m with
  | nil => exact (if_neg List.not_mem_nil).symm
  | cons q qs ih =>
    refine (ih (m.join q t)).trans ?_
    rw [join_tails]
    simp only [List.mem_cons]
    split_ifs <;> simp_all

theorem joinAll_view {α : Type*} (view : MemCell → α)
    (hview : ∀ (m : MemoryRecurrent p) (q t c : ℕ),
      view ((m.join q t).cells c) = view (m.cells c))
    (t : ℕ) (qs : List ℕ) (m : MemoryRecurrent p) (c : ℕ) :
    view ((m.joinAll t qs).cells c) = view (m.cells c) := by
  induction qs generalizing m with
  | nil => rfl
  | cons q qs ih => exact (ih (m.join q t)).trans (hview m q t c)

/-- Cell `a` with a new position and no list. -/
def reset (m : MemoryRecurrent p) (a : ℕ) (pos : ℤ) : MemoryRecurrent p :=
  m.modify a fun c => { c with pos := pos, seqId := ∅ }

theorem updateOne_eq (lo : ℕ) (m : MemoryRecurrent p) (x : (List ℕ × ℤ) × ℕ) :
    updateOne lo m x = (m.reset (lo + x.2) x.1.2).joinAll (lo + x.2) x.1.1 := rfl

theorem updateOne_ids (lo : ℕ) (m : MemoryRecurrent p) (x : (List ℕ × ℤ) × ℕ) (c : ℕ) :
    (updateOne lo m x).ids c = if c = lo + x.2 then x.1.1.toFinset else m.ids c := by
  rw [updateOne_eq, joinAll_ids, reset, modify_ids, modify_ids, if_pos rfl]
  split_ifs
  · exact Finset.empty_union _
  · rfl

theorem updateOne_tails (lo : ℕ) (m : MemoryRecurrent p) (x : (List ℕ × ℤ) × ℕ) (r : ℕ) :
    (updateOne lo m x).tails r = if r ∈ x.1.1 then ((lo + x.2 : ℕ) : ℤ) else m.tails r := by
  rw [updateOne_eq, joinAll_tails]
  exact if_congr Iff.rfl rfl (modify_keeps MemCell.tail (lo + x.2) r fun _ => rfl)

theorem updateOne_pos (lo : ℕ) (m : MemoryRecurrent p) (x : (List ℕ × ℤ) × ℕ) (c : ℕ) :
    ((updateOne lo m x).cells c).pos = if c = lo + x.2 then x.1.2 else (m.cells c).pos := by
  rw [updateOne_eq, joinAll_view MemCell.pos fun m q t c => join_pos q t c, reset, modify_cells]
  split_ifs <;> rfl

theorem updateOne_src (lo : ℕ) (m : MemoryRecurrent p) (x : (List ℕ × ℤ) × ℕ) (c : ℕ) :
    ((updateOne lo m x).cells c).src = (m.cells c).src := by
  rw [updateOne_eq, joinAll_view MemCell.src fun m q t c => join_src q t c]
  exact modify_keeps MemCell.src (lo + x.2) c fun _ => rfl

/-- What the fourth loop makes of the cells from `a` on. -/
structure Updated (m : MemoryRecurrent p) (a : ℕ) (sets : List (List ℕ × ℤ))
    (m' : MemoryRecurrent p) : Prop where
  set_ids : ∀ j x, sets[j]? = some x → m'.ids (a + j) = x.1.toFinset
  set_pos : ∀ j x, sets[j]? = some x → (m'.cells (a + j)).pos = x.2
  set_tails : ∀ j x, sets[j]? = some x → ∀ q ∈ x.1, m'.tails q = (a + j : ℕ)
  other_ids : ∀ c, c < a ∨ a + sets.length ≤ c → m'.ids c = m.ids c
  other_pos : ∀ c, c < a ∨ a + sets.length ≤ c → (m'.cells c).pos = (m.cells c).pos
  other_tails : ∀ q, (∀ x ∈ sets, q ∉ x.1) → m'.tails q = m.tails q
  src_eq : ∀ c, (m'.cells c).src = (m.cells c).src

theorem updatePos_updated {sets : List (List ℕ × ℤ)}
    (hdisj : sets.Pairwise fun x y => x.1.Disjoint y.1) (lo k : ℕ) (m : MemoryRecurrent p) :
    Updated m (lo + k) sets ((sets.zipIdx k).foldl (updateOne lo) m) := by
  induction sets generalizing m k with
  | nil => exact ⟨by simp, by simp, by simp, fun _ _ => rfl, fun _ _ => rfl, fun _ _ => rfl,
      fun _ => rfl⟩
  | cons x sets ih =>
    obtain ⟨hx, hdisj⟩ := List.pairwise_cons.mp hdisj
    have h := ih hdisj (k + 1) (updateOne lo m (x, k))
    rw [List.zipIdx_cons, List.foldl_cons]
    have hshift : ∀ j, lo + k + (j + 1) = lo + (k + 1) + j := fun j => by omega
    exact
      { set_ids := fun j y hy => by
          cases j with
          | zero =>
            rw [h.other_ids _ (.inl (by omega)), updateOne_ids, ← Option.some.inj hy]
            exact if_pos rfl
          | succ j =>
            rw [hshift]
            exact h.set_ids j y hy
        set_pos := fun j y hy => by
          cases j with
          | zero =>
            rw [h.other_pos _ (.inl (by omega)), updateOne_pos, ← Option.some.inj hy]
            exact if_pos rfl
          | succ j =>
            rw [hshift]
            exact h.set_pos j y hy
        set_tails := fun j y hy q hq => by
          cases j with
          | zero =>
            rw [← Option.some.inj hy] at hq
            rw [h.other_tails q fun z hz => List.disjoint_left.mp (hx z hz) hq, updateOne_tails,
              if_pos hq]
            rfl
          | succ j =>
            rw [hshift]
            exact h.set_tails j y hy q hq
        other_ids := fun c hc => by
          rw [List.length_cons] at hc
          rw [h.other_ids c (by omega), updateOne_ids, if_neg (by simp only; omega)]
        other_pos := fun c hc => by
          rw [List.length_cons] at hc
          rw [h.other_pos c (by omega), updateOne_pos, if_neg (by simp only; omega)]
        other_tails := fun q hq => by
          rw [List.forall_mem_cons] at hq
          rw [h.other_tails q hq.2, updateOne_tails, if_neg hq.1]
        src_eq := fun c => by rw [h.src_eq, updateOne_src] }

/-! ## Staging the sources -/

theorem refcount_eq_zero (i : ℕ) :
    m.refcount i = 0 ↔ ∀ j < p.size, (m.cells j).src ≠ (i : ℤ) := by
  rw [refcount, List.countP_eq_zero]
  simp only [List.mem_range, decide_eq_true_eq]

theorem zeroCell_nonneg (hout : ∀ c < p.size, c ∉ Finset.Icc lo hi →
      (m.cells c).src = -1 ∨ (m.cells c).src = (c : ℤ)) {c : ℕ} (hc : c ∈ Finset.Icc lo hi)
    (hnone : (m.cells c).src < 0) : 0 ≤ m.zeroCell lo hi := by
  obtain ⟨i, hin, hfree⟩ := exists_unreferenced hout hc hnone
  rw [zeroCell]
  cases hfind : (List.range' lo (hi + 1 - lo)).find? fun i => decide (m.refcount i = 0) with
  | none =>
    rw [List.find?_eq_none] at hfind
    rw [Finset.mem_Icc] at hin
    have hmem : i ∈ List.range' lo (hi + 1 - lo) := by
      rw [List.mem_range'_1]
      omega
    exact absurd (decide_eq_true ((refcount_eq_zero i).mpr hfree)) (hfind i hmem)
  | some k => exact Int.natCast_nonneg k

/-- The memory with the sources of the cells in range staged. -/
def staged (m : MemoryRecurrent p) (lo hi : ℕ) : MemoryRecurrent p :=
  { m with
    rsZ := m.zeroCell lo hi
    cells := fun i => if lo ≤ i ∧ i ≤ hi then
      { m.cells i with
        src0 := if (m.cells i).src < 0 then m.zeroCell lo hi else (m.cells i).src
        src := i }
      else m.cells i }

theorem stage_eq (hout : ∀ c < p.size, c ∉ Finset.Icc lo hi →
      (m.cells c).src = -1 ∨ (m.cells c).src = (c : ℤ)) : m.stage lo hi = some (m.staged lo hi) := by
  refine if_neg ?_
  rintro ⟨hzero, hany⟩
  obtain ⟨c, hc, hnone⟩ := List.any_eq_true.mp hany
  rw [List.mem_range'_1] at hc
  have hmem : c ∈ Finset.Icc lo hi := Finset.mem_Icc.mpr ⟨hc.1, by omega⟩
  exact absurd (zeroCell_nonneg hout hmem (of_decide_eq_true hnone)) (not_le.mpr hzero)

theorem staged_view {α : Type*} (view : MemCell → α)
    (hview : ∀ c a b, view { c with src0 := a, src := b } = view c) (lo hi c : ℕ) :
    view ((m.staged lo hi).cells c) = view (m.cells c) := by
  by_cases hc : lo ≤ c ∧ c ≤ hi
  · simp only [staged, if_pos hc]
    exact hview _ _ _
  · simp only [staged, if_neg hc]

theorem staged_src (lo hi c : ℕ) : ((m.staged lo hi).cells c).src =
    if lo ≤ c ∧ c ≤ hi then (c : ℤ) else (m.cells c).src := by
  by_cases hc : lo ≤ c ∧ c ≤ hi
  · simp only [staged, if_pos hc]
  · simp only [staged, if_neg hc]

theorem staged_src0 {c : ℕ} (hc : lo ≤ c ∧ c ≤ hi) (hsrc : 0 ≤ (m.cells c).src) :
    ((m.staged lo hi).cells c).src0 = (m.cells c).src := by
  simp only [staged, if_pos hc, if_neg (not_lt.mpr hsrc)]

/-! ## The loops together -/

/-- The first id of every set. -/
def mainIds (sets : List (List ℕ × ℤ)) : List ℕ := sets.map fun x => x.1.headD 0

/-- Sequence sets as a ubatch has them, once their ids are known to be in range. -/
structure GroupedIds (p : RecurrentParams) (sets : List (List ℕ × ℤ)) : Prop where
  nonempty : sets ≠ []
  ids_nonempty : ∀ x ∈ sets, x.1 ≠ []
  disjoint : sets.Pairwise fun x y => x.1.Disjoint y.1
  lt : ∀ x ∈ sets, ∀ q ∈ x.1, q < p.size

namespace GroupedIds

variable {sets : List (List ℕ × ℤ)} {x : List ℕ × ℤ} {j k : ℕ}

theorem head_mem (h : GroupedIds p sets) (hx : x ∈ sets) : x.1.headD 0 ∈ x.1 := by
  have hne := h.ids_nonempty x hx
  cases hids : x.1 with
  | nil => exact absurd hids hne
  | cons q qs => exact List.mem_cons_self

theorem mem_tail (h : GroupedIds p sets) (hx : x ∈ sets) (hq : q ∈ x.1) (hne : q ≠ x.1.headD 0) :
    q ∈ x.1.tail := by
  have hcons := h.ids_nonempty x hx
  cases hids : x.1 with
  | nil => exact absurd hids hcons
  | cons r qs =>
    rw [hids] at hq hne
    exact (List.mem_cons.mp hq).resolve_left hne

theorem mainIds_nodup (h : GroupedIds p sets) : (mainIds sets).Nodup := by
  rw [mainIds, List.Nodup, List.pairwise_map]
  refine h.disjoint.imp_of_mem fun {x y} hx hy hdisj heq => ?_
  exact List.disjoint_left.mp hdisj (h.head_mem hx) (heq ▸ h.head_mem hy)

theorem mainIds_lt (h : GroupedIds p sets) (hq : q ∈ mainIds sets) : q < p.size := by
  obtain ⟨x, hx, rfl⟩ := List.mem_map.mp hq
  exact h.lt x hx _ (h.head_mem hx)

end GroupedIds

theorem mainIds_getElem? {sets : List (List ℕ × ℤ)} {k : ℕ} {x : List ℕ × ℤ}
    (hx : sets[k]? = some x) : (mainIds sets)[k]? = some (x.1.headD 0) := by
  rw [mainIds, List.getElem?_map, hx]
  rfl

theorem mem_mainIds {sets : List (List ℕ × ℤ)} :
    q ∈ mainIds sets ↔ ∃ (k : ℕ) (x : List ℕ × ℤ), sets[k]? = some x ∧ q = x.1.headD 0 := by
  rw [mainIds, List.mem_map]
  constructor
  · rintro ⟨x, hx, rfl⟩
    obtain ⟨k, hk⟩ := List.mem_iff_getElem?.mp hx
    exact ⟨k, x, hk, rfl⟩
  · rintro ⟨k, x, hx, rfl⟩
    exact ⟨x, List.mem_of_getElem? hx, rfl⟩

/-- The memory after each of the loops, from `m₁` where the later ids have no cell. -/
structure Arranged (m₁ : MemoryRecurrent p) (sets : List (List ℕ × ℤ)) (lo hi : ℕ)
    (m₂ : MemoryRecurrent p) (σ : Equiv.Perm ℕ) (m₃ m₄ : MemoryRecurrent p) : Prop where
  grouped : GroupedIds p sets
  later : ∀ x ∈ sets, ∀ q ∈ x.1.tail, m₁.tails q = -1
  placing : Placing m₁ (mainIds sets).toFinset m₂ lo hi
  gathered : Gathered m₂ lo hi (mainIds sets) σ m₃
  updated : Updated m₃ lo sets m₄
  len : lo + sets.length ≤ hi + 1

namespace Arranged

variable {m₁ m₃ m₄ : MemoryRecurrent p} {sets : List (List ℕ × ℤ)} {σ : Equiv.Perm ℕ}
  {x : List ℕ × ℤ} {k c : ℕ}

theorem hi_lt (h : Arranged m₁ sets lo hi m₂ σ m₃ m₄) : hi < p.size := by
  exact_mod_cast h.placing.hi_lt

theorem symm_lt (h : Arranged m₁ sets lo hi m₂ σ m₃ m₄) (hc : c < p.size) :
    σ.symm c < p.size := by
  by_cases hmem : c ∈ Finset.Icc lo hi
  · have hmem' := Finset.mem_Icc.mp (h.gathered.fixes.symm_mem hmem)
    have hhi := h.hi_lt
    omega
  · rwa [show σ.symm c = c from (Equiv.symm_apply_eq σ).mpr (h.gathered.fixes c hmem).symm]

theorem main_tail (h : Arranged m₁ sets lo hi m₂ σ m₃ m₄) (hx : sets[k]? = some x) :
    m₃.tails (x.1.headD 0) = (lo + k : ℕ) :=
  h.gathered.in_order k _ (mainIds_getElem? hx)

theorem owners_main (h : Arranged m₁ sets lo hi m₂ σ m₃ m₄) (hx : sets[k]? = some x) :
    owners p.size m₃.tails (lo + k) = {x.1.headD 0} := by
  have hq := mem_mainIds.2 ⟨k, x, hx, rfl⟩
  obtain ⟨c, -, howner, -, -⟩ := h.placing.placed _ (List.mem_toFinset.mpr hq)
  have hown : owners p.size m₃.tails (σ.symm c) = {x.1.headD 0} := by
    rw [h.gathered.moved.owners_eq, Equiv.apply_symm_apply, howner]
  have hmem : x.1.headD 0 ∈ owners p.size m₃.tails (σ.symm c) := by
    rw [hown]
    exact Finset.mem_singleton_self _
  have hcell := (mem_owners.1 hmem).2
  rw [h.main_tail hx] at hcell
  rw [Int.ofNat_inj.mp hcell, hown]

theorem ids_other (h : Arranged m₁ sets lo hi m₂ σ m₃ m₄) (hc : c < p.size)
    (hout : ∀ k < sets.length, c ≠ lo + k) : m₃.ids c = owners p.size m₃.tails c := by
  have hσ := h.gathered.fixes.lt h.hi_lt hc
  rw [h.gathered.moved.ids_eq, h.gathered.moved.owners_eq]
  rcases h.placing.listed (σ c) hσ with heq | ⟨-, q, hq, howner⟩
  · exact heq
  · obtain ⟨k, x, hx, rfl⟩ := mem_mainIds.1 (List.mem_toFinset.mp hq)
    have hmem : x.1.headD 0 ∈ owners p.size m₃.tails c := by
      rw [h.gathered.moved.owners_eq, howner]
      exact Finset.mem_singleton_self _
    have hcell := (mem_owners.1 hmem).2
    rw [h.main_tail hx] at hcell
    exact absurd (Int.ofNat_inj.mp hcell).symm (hout k (List.getElem?_eq_some_iff.mp hx).1)

theorem tail_of_mem (h : Arranged m₁ sets lo hi m₂ σ m₃ m₄) (hx : x ∈ sets) (hq : q ∈ x.1) :
    m₃.tails q = -1 ∨ ∃ k < sets.length, m₃.tails q = (lo + k : ℕ) := by
  by_cases hmain : q ∈ mainIds sets
  · obtain ⟨k, y, hy, rfl⟩ := mem_mainIds.1 hmain
    exact .inr ⟨k, (List.getElem?_eq_some_iff.mp hy).1, h.main_tail hy⟩
  · have hne : q ≠ x.1.headD 0 := fun heq => hmain (List.mem_map.mpr ⟨x, hx, heq.symm⟩)
    have hnone := h.later x hx q (h.grouped.mem_tail hx hq hne)
    rw [← h.placing.others q fun hmem => hmain (List.mem_toFinset.mp hmem)] at hnone
    exact .inl (h.gathered.moved.no_tail q hnone)

theorem owned (h : Arranged m₁ sets lo hi m₂ σ m₃ m₄) : Owned p.size m₄.ids m₄.tails where
  ids_eq c hc := by
    by_cases hin : ∃ k < sets.length, c = lo + k
    · obtain ⟨k, hk, rfl⟩ := hin
      have hx : sets[k]? = some sets[k] := List.getElem?_eq_getElem hk
      rw [h.updated.set_ids k _ hx]
      ext q
      rw [List.mem_toFinset, mem_owners]
      constructor
      · exact fun hq => ⟨h.grouped.lt _ (List.getElem_mem hk) q hq, h.updated.set_tails k _ hx q hq⟩
      · rintro ⟨hq, htail⟩
        by_cases hset : ∃ y ∈ sets, q ∈ y.1
        · obtain ⟨y, hy, hqy⟩ := hset
          obtain ⟨j, hj⟩ := List.mem_iff_getElem?.mp hy
          rw [h.updated.set_tails j y hj q hqy] at htail
          have hjk : j = k := by omega
          rw [hjk, hx] at hj
          rwa [Option.some.inj hj]
        · push Not at hset
          rw [h.updated.other_tails q hset] at htail
          have hmem := mem_owners.2 ⟨hq, htail⟩
          rw [h.owners_main hx, Finset.mem_singleton] at hmem
          rw [hmem]
          exact h.grouped.head_mem (List.getElem_mem hk)
    · push Not at hin
      have hout : c < lo ∨ lo + sets.length ≤ c := by
        by_contra hmid
        exact hin (c - lo) (by omega) (by omega)
      rw [h.updated.other_ids c hout, h.ids_other hc hin]
      ext q
      rw [mem_owners, mem_owners]
      refine and_congr_right fun hq => ?_
      by_cases hset : ∃ y ∈ sets, q ∈ y.1
      · obtain ⟨y, hy, hqy⟩ := hset
        obtain ⟨j, hj⟩ := List.mem_iff_getElem?.mp hy
        refine iff_of_false (fun htail => ?_) fun htail => ?_
        · rcases h.tail_of_mem hy hqy with hnone | ⟨k, hk, heq⟩
          · omega
          · exact hin k hk (Int.ofNat_inj.mp (htail.symm.trans heq))
        · rw [h.updated.set_tails j y hj q hqy] at htail
          exact hin j (List.getElem?_eq_some_iff.mp hj).1 (Int.ofNat_inj.mp htail).symm
      · push Not at hset
        rw [h.updated.other_tails q hset]
  tail_range q hq := by
    by_cases hset : ∃ y ∈ sets, q ∈ y.1
    · obtain ⟨y, hy, hqy⟩ := hset
      obtain ⟨j, hj⟩ := List.mem_iff_getElem?.mp hy
      have hlt := (List.getElem?_eq_some_iff.mp hj).1
      have hlen := h.len
      have hhi := h.hi_lt
      exact .inr ⟨lo + j, by omega, h.updated.set_tails j y hj q hqy⟩
    · push Not at hset
      rw [h.updated.other_tails q hset]
      rcases h.placing.tail_range q hq with hnone | ⟨c, hc, htail⟩
      · exact .inl (h.gathered.moved.no_tail q hnone)
      · refine .inr ⟨σ.symm c, h.symm_lt hc, ?_⟩
        rw [h.gathered.moved.tails_iff, Equiv.apply_symm_apply, htail]

theorem src_out (h : Arranged m₁ sets lo hi m₂ σ m₃ m₄) (hc : c < p.size)
    (hout : c ∉ Finset.Icc lo hi) : (m₄.cells c).src = -1 ∨ (m₄.cells c).src = (c : ℤ) := by
  rw [h.updated.src_eq, h.gathered.moved.src_eq, h.gathered.fixes c hout]
  rw [Finset.mem_Icc] at hout
  exact h.placing.src_out c hc (by omega)

theorem state (h : Arranged m₁ sets lo hi m₂ σ m₃ m₄) (hs : m₁.Sourced) (hq : q < p.size)
    (hlater : ∀ x ∈ sets, q ∉ x.1.tail) {t : ℕ} (htail : m₁.tails q = t) :
    ∃ c < p.size, m₄.tails q = c ∧ (m₄.cells c).src = t := by
  obtain ⟨c, hc, hcell, hsrc⟩ := h.placing.state hs q hq t htail
  have hcell₃ : m₃.tails q = (σ.symm c : ℕ) := by
    rw [h.gathered.moved.tails_iff, Equiv.apply_symm_apply, hcell]
  refine ⟨σ.symm c, h.symm_lt hc, ?_, ?_⟩
  · by_cases hset : ∃ y ∈ sets, q ∈ y.1
    · obtain ⟨y, hy, hqy⟩ := hset
      obtain ⟨j, hj⟩ := List.mem_iff_getElem?.mp hy
      have hhead : q = y.1.headD 0 := by
        by_contra hne
        exact hlater y hy (h.grouped.mem_tail hy hqy hne)
      rw [h.updated.set_tails j y hj q hqy, ← hcell₃, hhead, h.main_tail hj]
    · push Not at hset
      rw [h.updated.other_tails q hset, hcell₃]
  · rw [h.updated.src_eq, h.gathered.moved.src_eq, Equiv.apply_symm_apply, hsrc]

theorem together (h : Arranged m₁ sets lo hi m₂ σ m₃ m₄) (hset : ∀ x ∈ sets, q ∉ x.1)
    (htail : m₄.tails q = c) : m₁.tails q = (σ c : ℕ) := by
  have hmain : q ∉ (mainIds sets).toFinset := fun hmem => by
    obtain ⟨j, y, hy, rfl⟩ := mem_mainIds.1 (List.mem_toFinset.mp hmem)
    exact hset y (List.mem_of_getElem? hy) (h.grouped.head_mem (List.mem_of_getElem? hy))
  rw [h.updated.other_tails q hset, h.gathered.moved.tails_iff] at htail
  rw [← h.placing.others q hmain, htail]

theorem tail_out (h : Arranged m₁ sets lo hi m₂ σ m₃ m₄) (htail : m₄.tails q = c)
    (hout : c ∉ Finset.Icc lo hi) : m₁.tails q = c := by
  have hlen := h.len
  rw [Finset.mem_Icc] at hout
  have hset : ∀ y ∈ sets, q ∉ y.1 := fun y hy hqy => by
    obtain ⟨j, hj⟩ := List.mem_iff_getElem?.mp hy
    have hlt := (List.getElem?_eq_some_iff.mp hj).1
    rw [h.updated.set_tails j y hj q hqy] at htail
    omega
  rw [h.together hset htail, h.gathered.fixes c (by rwa [Finset.mem_Icc])]

theorem pos_iff (h : Arranged m₁ sets lo hi m₂ σ m₃ m₄) (hcount : m₁.Counted)
    (hpos : ∀ x ∈ sets, 0 ≤ x.2) (hc : c < p.size) :
    0 ≤ (m₄.cells c).pos ↔ (m₄.ids c).Nonempty := by
  by_cases hin : ∃ k < sets.length, c = lo + k
  · obtain ⟨k, hk, rfl⟩ := hin
    have hx : sets[k]? = some sets[k] := List.getElem?_eq_getElem hk
    rw [h.updated.set_pos k _ hx, h.updated.set_ids k _ hx]
    exact iff_of_true (hpos _ (List.getElem_mem hk))
      ⟨_, List.mem_toFinset.mpr (h.grouped.head_mem (List.getElem_mem hk))⟩
  · push Not at hin
    have hout : c < lo ∨ lo + sets.length ≤ c := by
      by_contra hmid
      exact hin (c - lo) (by omega) (by omega)
    rw [h.updated.other_pos c hout, h.updated.other_ids c hout, h.gathered.moved.pos_eq,
      h.gathered.moved.ids_eq]
    exact h.placing.pos_iff hcount (σ c) (h.gathered.fixes.lt h.hi_lt hc)

end Arranged

end MemoryRecurrent
end RocmFpx
