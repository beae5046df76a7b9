import RocmFpx.RecurrentGather

/-!
`find_slot` as a whole: no assertion fails, the sets of the ubatch get consecutive cells from the
head on, and the states of all sequences but the ids that join others are kept.
-/

namespace RocmFpx
namespace MemoryRecurrent

variable {p : RecurrentParams} {m m' m₁ m₂ m₃ m₄ : MemoryRecurrent p} {q lo hi : ℕ}
  {sets : List (List ℕ × ℤ)}

/-! ## After the clearing -/

/-- The rest of `find_slot`. -/
def placeSets (m : MemoryRecurrent p) (sets : List (List ℕ × ℤ)) :
    Option (MemoryRecurrent p × Bool) :=
  (m.findCells (m.seekFrom p.size m.head) (p.size - 1) 0 (mainIds sets)).bind fun (m, lo, hi) =>
    (((m.gather lo.toNat (mainIds sets)).updatePos lo.toNat sets).stage lo.toNat hi.toNat).map
      fun m => ({ m with
        head := lo.toNat
        n := (hi - lo + 1).toNat
        used := m.occupied.card }, decide ((sets.length : ℤ) ≤ hi - lo + 1))

/-- The memory that knows its range of cells. -/
def located (m : MemoryRecurrent p) (lo hi : ℕ) : MemoryRecurrent p :=
  { m with head := lo, n := hi - lo + 1, used := m.occupied.card }

theorem placeSets_arranged (h : m₁.Settled) (hg : GroupedIds p sets)
    (hlater : ∀ x ∈ sets, ∀ q ∈ x.1.tail, m₁.tails q = -1) :
    ∃ lo hi m₂ σ m₃ m₄, Arranged m₁ sets lo hi m₂ σ m₃ m₄ ∧
      m₁.placeSets sets = (m₄.stage lo hi).map fun m => (m.located lo hi, true) := by
  obtain ⟨m₂, lo, hi, hfind, hplacing⟩ := findCells_placing h.head_lt (Placing.start h)
    (Seeking.start h) hg.mainIds_nodup fun q hq => ⟨hg.mainIds_lt hq, Finset.notMem_empty q⟩
  rw [Finset.empty_union] at hplacing
  have hcells : ∀ q ∈ mainIds sets, ∃ c : ℕ, lo ≤ c ∧ c ≤ hi ∧ m₂.tails q = (c : ℤ) ∧
      owners p.size m₂.tails c = {q} := fun q hq => by
    obtain ⟨c, -, howner, hlo, hhi⟩ := hplacing.placed q (List.mem_toFinset.mpr hq)
    have hmem : q ∈ owners p.size m₂.tails c := by
      rw [howner]
      exact Finset.mem_singleton_self q
    exact ⟨c, hlo, hhi, (mem_owners.1 hmem).2, howner⟩
  have hhi : 0 ≤ hi := by
    obtain ⟨x, hx⟩ := List.exists_mem_of_ne_nil _ hg.nonempty
    obtain ⟨c, -, hc, -⟩ := hcells _ (List.mem_map.mpr ⟨x, hx, rfl⟩)
    omega
  obtain ⟨l, rfl⟩ := Int.eq_ofNat_of_zero_le hplacing.lo_nonneg
  obtain ⟨r, rfl⟩ := Int.eq_ofNat_of_zero_le hhi
  have hmains : ∀ q ∈ mainIds sets, ∃ c ∈ Finset.Icc l r, m₂.tails q = (c : ℕ) := fun q hq => by
    obtain ⟨c, hlo, hhi, htail, -⟩ := hcells q hq
    exact ⟨c, Finset.mem_Icc.mpr ⟨by omega, by omega⟩, htail⟩
  have hpair : (mainIds sets).Pairwise fun q r => m₂.tails q ≠ m₂.tails r := by
    refine hg.mainIds_nodup.imp_of_mem fun {a b} ha hb hne heq => hne ?_
    obtain ⟨c, -, -, htail, howner⟩ := hcells a ha
    have hmem := mem_owners.2 ⟨hg.mainIds_lt hb, heq.symm.trans htail⟩
    rw [howner, Finset.mem_singleton] at hmem
    exact hmem.symm
  -- distinct cells of the range: it has room for all sets
  have hlen : l + sets.length ≤ r + 1 := by
    have hnd : ((mainIds sets).map m₂.tails).Nodup := List.pairwise_map.mpr hpair
    have hsub : ((mainIds sets).map m₂.tails).toFinset ⊆ Finset.Icc (l : ℤ) r := fun t ht => by
      obtain ⟨q, hq, rfl⟩ := List.mem_map.mp (List.mem_toFinset.mp ht)
      obtain ⟨c, hlo, hhi, htail, -⟩ := hcells q hq
      rw [htail]
      exact Finset.mem_Icc.mpr ⟨hlo, hhi⟩
    have hcard := Finset.card_le_card hsub
    rw [List.toFinset_card_of_nodup hnd, List.length_map, mainIds, List.length_map, Int.card_Icc]
      at hcard
    obtain ⟨x, hx⟩ := List.exists_mem_of_ne_nil _ hg.nonempty
    have hpos := List.length_pos_of_mem hx
    omega
  have hnone : Gathered m₂ l r [] 1 m₂ := ⟨Moved.refl m₂, fun _ _ => rfl, by simp⟩
  obtain ⟨σ, hgathered⟩ := gather_gathered hnone hmains
    (by rw [mainIds, List.length_map, List.length_nil]; omega) (by rwa [List.nil_append])
  have hupdated := updatePos_updated hg.disjoint l 0 (m₂.gather l (mainIds sets))
  refine ⟨l, r, m₂, σ, _, _, ⟨hg, hlater, hplacing, hgathered, hupdated, hlen⟩, ?_⟩
  have hn : (↑r - ↑l + 1 : ℤ).toNat = r - l + 1 := by
    obtain ⟨x, hx⟩ := List.exists_mem_of_ne_nil _ hg.nonempty
    have hpos := List.length_pos_of_mem hx
    omega
  have hfits : decide ((sets.length : ℤ) ≤ r - l + 1) = true := decide_eq_true (by omega)
  rw [placeSets, hfind, Option.bind_some]
  simp only [Int.toNat_natCast, hn, hfits]
  rfl

/-- The memory at the end of `find_slot`. -/
def settle (m : MemoryRecurrent p) (lo hi : ℕ) : MemoryRecurrent p := (m.staged lo hi).located lo hi

theorem settle_ids (c : ℕ) : (m.settle lo hi).ids c = m.ids c :=
  staged_view MemCell.seqId (fun _ _ _ => rfl) lo hi c

theorem settle_tails (q : ℕ) : (m.settle lo hi).tails q = m.tails q :=
  staged_view MemCell.tail (fun _ _ _ => rfl) lo hi q

theorem settle_pos (c : ℕ) : ((m.settle lo hi).cells c).pos = (m.cells c).pos :=
  staged_view MemCell.pos (fun _ _ _ => rfl) lo hi c

theorem settle_src (c : ℕ) : ((m.settle lo hi).cells c).src =
    if lo ≤ c ∧ c ≤ hi then (c : ℤ) else (m.cells c).src :=
  staged_src lo hi c

/-- Where the state of each sequence is after `find_slot`, but for those in `later`: in the range
it is copied from its old cell, elsewhere it has not moved. -/
def StateKept (m m' : MemoryRecurrent p) (later : List ℕ) : Prop :=
  ∀ q < p.size, q ∉ later → ∀ t : ℕ, m.tails q = t →
    ∃ c < p.size, m'.tails q = c ∧ (m'.cells c).src = c ∧
      if m'.head ≤ c ∧ c < m'.head + m'.n then (m'.cells c).src0 = t else c = t

/-- What the rest of `find_slot` makes of a memory where the later ids have no cell. -/
structure Placed (m : MemoryRecurrent p) (sets : List (List ℕ × ℤ)) (m' : MemoryRecurrent p) :
    Prop where
  settled : m'.Settled
  in_order : ∀ k x, sets[k]? = some x → ∀ q ∈ x.1, m'.tails q = (m'.head + k : ℕ)
  lists : ∀ k x, sets[k]? = some x → m'.ids (m'.head + k) = x.1.toFinset
  together : ∀ c : ℕ, ∃ d : ℕ, ∀ q, (∀ x ∈ sets, q ∉ x.1) → m'.tails q = c → m.tails q = d
  kept : m.Sourced → StateKept m m' (sets.flatMap fun x => x.1.tail)
  sourced : m.Sourced → m'.Sourced
  counted : m.Counted → (∀ x ∈ sets, 0 ≤ x.2) → m'.Counted

theorem Arranged.settled {σ : Equiv.Perm ℕ} (h : Arranged m₁ sets lo hi m₂ σ m₃ m₄) :
    (m₄.settle lo hi).Settled where
  owned := h.owned.congr (fun c _ => settle_ids c) fun q _ => settle_tails q
  src_self c hc := by
    rw [settle_src]
    split_ifs with hin
    · exact .inr rfl
    · exact h.src_out hc fun hmem => hin (Finset.mem_Icc.mp hmem)
  head_lt := by
    have hlen := h.len
    have hhi := h.hi_lt
    have hpos := List.length_pos_of_ne_nil h.grouped.nonempty
    change lo < p.size
    omega

theorem Arranged.kept {σ : Equiv.Perm ℕ} (h : Arranged m₁ sets lo hi m₂ σ m₃ m₄)
    (hs : m₁.Sourced) : StateKept m₁ (m₄.settle lo hi) (sets.flatMap fun x => x.1.tail) := by
  intro q hq hlater t htail
  have hlater' : ∀ x ∈ sets, q ∉ x.1.tail := fun x hx hmem =>
    hlater (List.mem_flatMap.mpr ⟨x, hx, hmem⟩)
  obtain ⟨c, hc, hcell, hsrc⟩ := h.state hs hq hlater' htail
  have hlen := h.len
  have hpos := List.length_pos_of_ne_nil h.grouped.nonempty
  have hrange : (m₄.settle lo hi).head ≤ c ∧ c < (m₄.settle lo hi).head + (m₄.settle lo hi).n ↔
      lo ≤ c ∧ c ≤ hi := by
    change lo ≤ c ∧ c < lo + (hi - lo + 1) ↔ _
    omega
  by_cases hin : lo ≤ c ∧ c ≤ hi
  · refine ⟨c, hc, by rw [settle_tails, hcell], by rw [settle_src, if_pos hin], ?_⟩
    rw [if_pos (hrange.mpr hin), ← hsrc]
    exact staged_src0 hin (by omega)
  · have hout : c ∉ Finset.Icc lo hi := fun hmem => hin (Finset.mem_Icc.mp hmem)
    have hsame : c = t := Int.ofNat_inj.mp ((h.tail_out hcell hout).symm.trans htail)
    refine ⟨c, hc, by rw [settle_tails, hcell], ?_, ?_⟩
    · rw [settle_src, if_neg hin, hsrc, hsame]
    · rwa [if_neg fun h => hin (hrange.mp h)]

theorem Arranged.sourced {σ : Equiv.Perm ℕ} (h : Arranged m₁ sets lo hi m₂ σ m₃ m₄)
    (hs : m₁.Sourced) : (m₄.settle lo hi).Sourced := by
  intro c hc ⟨q, hq⟩
  rw [settle_src]
  split_ifs with hin
  · rfl
  · rw [settle_ids, h.owned.mem_iff hc] at hq
    have hout : c ∉ Finset.Icc lo hi := fun hmem => hin (Finset.mem_Icc.mp hmem)
    have hmem : q ∉ sets.flatMap fun x => x.1.tail := fun hlater => by
      obtain ⟨x, hx, hqx⟩ := List.mem_flatMap.mp hlater
      have hbefore := h.later x hx q hqx
      rw [h.tail_out hq.2 hout] at hbefore
      omega
    obtain ⟨d, -, hd, hsrc, -⟩ := h.kept hs q hq.1 hmem c (h.tail_out hq.2 hout)
    rw [settle_tails, hq.2] at hd
    rw [← Int.ofNat_inj.mp hd, settle_src, if_neg hin] at hsrc
    exact hsrc

theorem Arranged.counted {σ : Equiv.Perm ℕ} (h : Arranged m₁ sets lo hi m₂ σ m₃ m₄)
    (hc : m₁.Counted) (hpos : ∀ x ∈ sets, 0 ≤ x.2) : (m₄.settle lo hi).Counted where
  used_eq := rfl
  pos_iff c hc' := by
    rw [settle_pos, settle_ids]
    exact h.pos_iff hc hpos hc'

theorem placeSets_placed (h : m₁.Settled) (hg : GroupedIds p sets)
    (hlater : ∀ x ∈ sets, ∀ q ∈ x.1.tail, m₁.tails q = -1) :
    ∃ m', m₁.placeSets sets = some (m', true) ∧ Placed m₁ sets m' := by
  obtain ⟨lo, hi, m₂, σ, m₃, m₄, harr, heq⟩ := placeSets_arranged h hg hlater
  rw [stage_eq fun c hc hout => harr.src_out hc hout] at heq
  refine ⟨m₄.settle lo hi, heq, harr.settled, fun k x hx q hq => ?_, fun k x hx => ?_,
    fun c => ⟨σ c, fun q hset htail => ?_⟩, harr.kept, harr.sourced, harr.counted⟩
  · rw [settle_tails, harr.updated.set_tails k x hx q hq]
    rfl
  · rw [settle_ids]
    exact harr.updated.set_ids k x hx
  · rw [settle_tails] at htail
    exact harr.together hset htail

/-! ## The whole of `find_slot` -/

/-- What the splitter guarantees of the sequence sets of a ubatch: there is one, none is empty, and
no two of them overlap. -/
structure Grouped (sets : List (List ℤ × ℤ)) : Prop where
  nonempty : sets ≠ []
  ids_nonempty : ∀ x ∈ sets, x.1 ≠ []
  disjoint : sets.Pairwise fun x y => ∀ id ∈ x.1, id ∉ y.1

/-- The ids of a ubatch as indices of cells. -/
def cellIds (sets : List (List ℤ × ℤ)) : List (List ℕ × ℤ) :=
  sets.map fun x => (x.1.map Int.toNat, x.2)

theorem Grouped.ids {sets : List (List ℤ × ℤ)} (h : Grouped sets)
    (hin : ∀ ids ∈ sets.map Prod.fst, ∀ id ∈ ids, InRange p id) :
    GroupedIds p (cellIds sets) where
  nonempty heq := h.nonempty (List.map_eq_nil_iff.mp heq)
  ids_nonempty x hx := by
    obtain ⟨y, hy, rfl⟩ := List.mem_map.mp hx
    exact fun heq => h.ids_nonempty y hy (List.map_eq_nil_iff.mp heq)
  disjoint := by
    rw [cellIds, List.pairwise_map]
    refine h.disjoint.imp_of_mem fun {x y} hx hy hdisj => List.disjoint_left.mpr fun q hqx hqy => ?_
    obtain ⟨a, ha, rfl⟩ := List.mem_map.mp hqx
    obtain ⟨b, hb, hab⟩ := List.mem_map.mp hqy
    have ha0 := (hin _ (List.mem_map_of_mem hx) a ha).1
    have hb0 := (hin _ (List.mem_map_of_mem hy) b hb).1
    have heq : a = b := by omega
    exact hdisj a ha (heq ▸ hb)
  lt x hx q hq := by
    obtain ⟨y, hy, rfl⟩ := List.mem_map.mp hx
    obtain ⟨a, ha, rfl⟩ := List.mem_map.mp hq
    exact (hin _ (List.mem_map_of_mem hy) a ha).toNat_lt

theorem laterIds_eq (sets : List (List ℤ × ℤ)) :
    laterIds (sets.map Prod.fst) = (cellIds sets).flatMap fun x => x.1.tail := by
  rw [laterIds, cellIds, List.flatMap_map, List.flatMap_map]
  exact List.flatMap_congr fun x _ => List.map_tail

/-- The head that `find_slot` searches from. -/
def rehead (m : MemoryRecurrent p) (nSeqs : ℕ) : MemoryRecurrent p :=
  if (m.used + 2 * nSeqs) % 2 ^ 32 < m.head then { m with head := 0 } else m

theorem rehead_cells (m : MemoryRecurrent p) (n : ℕ) :
    (m.rehead n).cells = m.cells ∧ (m.rehead n).used = m.used ∧ (m.rehead n).head ≤ m.head := by
  unfold rehead
  split_ifs
  · exact ⟨rfl, rfl, Nat.zero_le _⟩
  · exact ⟨rfl, rfl, le_rfl⟩

theorem findSlot_eq (m : MemoryRecurrent p) (sets : List (List ℤ × ℤ)) :
    m.findSlot true sets =
      if ((m.rehead sets.length).clearShared (sets.map Prod.fst)).2 = true then
        ((m.rehead sets.length).clearShared (sets.map Prod.fst)).1.placeSets (cellIds sets)
      else some ((m.rehead sets.length).clearShared (sets.map Prod.fst)) := rfl

/-- What `find_slot` guarantees of a ubatch. -/
structure SlotFound (m : MemoryRecurrent p) (sets : List (List ℤ × ℤ)) (m' : MemoryRecurrent p)
    (ok : Bool) : Prop where
  settled : m'.Settled
  ok_iff : ok = true ↔ ∀ x ∈ sets, ∀ id ∈ x.1, InRange p id
  in_order : ok = true → ∀ k x, sets[k]? = some x → ∀ id ∈ x.1,
    m'.tails id.toNat = (m'.head + k : ℕ)
  lists : ok = true → ∀ k x, sets[k]? = some x →
    m'.ids (m'.head + k) = (x.1.map Int.toNat).toFinset
  together : ok = true → ∀ c : ℕ, ∃ d : ℕ, ∀ q, (∀ x ∈ sets, q ∉ x.1.map Int.toNat) →
    m'.tails q = c → m.tails q = d
  kept : ok = true → m.Sourced → StateKept m m' (laterIds (sets.map Prod.fst))
  sourced : m.Sourced → m'.Sourced
  counted : m.Counted → (∀ x ∈ sets, 0 ≤ x.2) → m'.Counted

theorem findSlot_found {sets : List (List ℤ × ℤ)} (h : m.Settled) (hg : Grouped sets) :
    ∃ m' ok, m.findSlot true sets = some (m', ok) ∧ SlotFound m sets m' ok := by
  obtain ⟨hcells, hused, hhead⟩ := rehead_cells m sets.length
  have h₀ : (m.rehead sets.length).Settled := h.of_cells hcells (lt_of_le_of_lt hhead h.head_lt)
  have hs₀ : m.Sourced → (m.rehead sets.length).Sourced := fun hs => by
    intro c hc hne
    rw [ids, hcells] at hne
    rw [hcells]
    exact hs c hc hne
  have hc₀ : m.Counted → (m.rehead sets.length).Counted := fun hc => hc.of_cells hcells hused
  have hin : (∀ ids ∈ sets.map Prod.fst, ∀ id ∈ ids, InRange p id) ↔
      ∀ x ∈ sets, ∀ id ∈ x.1, InRange p id := List.forall_mem_map
  have hsettled := clearShared_rule (P := Settled) (fun m q hq h => release_settled h hq) h₀
    (sets.map Prod.fst)
  have hsourced : m.Sourced → ((m.rehead sets.length).clearShared (sets.map Prod.fst)).1.Sourced :=
    fun hs => (clearShared_rule (P := fun m => m.Settled ∧ m.Sourced)
      (fun m q hq h => ⟨release_settled h.1 hq, release_sourced h.1 h.2 hq⟩) ⟨h₀, hs₀ hs⟩ _).2
  have hcounted : m.Counted → ((m.rehead sets.length).clearShared (sets.map Prod.fst)).1.Counted :=
    fun hc => (clearShared_rule (P := fun m => m.Settled ∧ m.Counted)
      (fun m q hq h => ⟨release_settled h.1 hq, release_counted h.1 h.2 hq⟩) ⟨h₀, hc₀ hc⟩ _).2
  have hok := clearShared_ok (m.rehead sets.length) (sets.map Prod.fst)
  rw [findSlot_eq]
  by_cases hall : ((m.rehead sets.length).clearShared (sets.map Prod.fst)).2 = true
  · have hrange := hok.mp hall
    have hlt : ∀ q ∈ laterIds (sets.map Prod.fst), q < p.size := fun q hq => by
      obtain ⟨ids, hids, hq⟩ := List.mem_flatMap.mp hq
      obtain ⟨id, hid, rfl⟩ := List.mem_map.mp hq
      exact (hrange ids hids id (List.mem_of_mem_tail hid)).toNat_lt
    have htails := releaseAll_tails h₀ hlt
    rw [← clearShared_eq hrange] at htails
    have hlater : ∀ x ∈ cellIds sets, ∀ q ∈ x.1.tail,
        ((m.rehead sets.length).clearShared (sets.map Prod.fst)).1.tails q = -1 :=
      fun x hx q hq => by
        rw [htails, if_pos]
        rw [laterIds_eq]
        exact List.mem_flatMap.mpr ⟨x, hx, hq⟩
    obtain ⟨m', heq, hplaced⟩ := placeSets_placed hsettled (hg.ids hrange) hlater
    rw [if_pos hall, heq]
    have hget : ∀ (k : ℕ) (x : List ℤ × ℤ), sets[k]? = some x →
        (cellIds sets)[k]? = some (x.1.map Int.toNat, x.2) := fun k x hx => by
      rw [cellIds, List.getElem?_map, hx]
      rfl
    refine ⟨m', true, rfl, hplaced.settled, iff_of_true rfl (hin.mp hrange), ?_,
      fun _ k x hx => hplaced.lists k _ (hget k x hx), ?_, ?_,
      fun hs => hplaced.sourced (hsourced hs), fun hc hpos => ?_⟩
    · intro _ k x hx id hid
      exact hplaced.in_order k _ (hget k x hx) _ (List.mem_map_of_mem hid)
    · intro _ c
      obtain ⟨d, hd⟩ := hplaced.together c
      refine ⟨d, fun q hset htail => ?_⟩
      have hnot : q ∉ laterIds (sets.map Prod.fst) := fun hq => by
        rw [laterIds_eq] at hq
        obtain ⟨x, hx, hqx⟩ := List.mem_flatMap.mp hq
        obtain ⟨y, hy, rfl⟩ := List.mem_map.mp hx
        exact hset y hy (List.mem_of_mem_tail hqx)
      have hbefore := hd q (fun x hx => by
        obtain ⟨y, hy, rfl⟩ := List.mem_map.mp hx
        exact hset y hy) htail
      rw [htails, if_neg hnot, tails, hcells] at hbefore
      exact hbefore
    · intro _ hs q hq hnot t htail
      have hkept := hplaced.kept (hsourced hs)
      rw [← laterIds_eq] at hkept
      refine hkept q hq hnot t ?_
      rw [htails, if_neg hnot, tails, hcells]
      exact htail
    · refine hplaced.counted (hcounted hc) fun x hx => ?_
      obtain ⟨y, hy, rfl⟩ := List.mem_map.mp hx
      exact hpos y hy
  · have hfalse := Bool.eq_false_iff.mpr hall
    rw [if_neg hall]
    refine ⟨_, _, rfl, hsettled, ?_, fun h => absurd h hall, fun h => absurd h hall,
      fun h => absurd h hall, fun h => absurd h hall, hsourced, fun hc _ => hcounted hc⟩
    exact hok.trans hin

theorem findSlot_slotFound {sets : List (List ℤ × ℤ)} {ok : Bool} (h : m.Settled)
    (hg : Grouped sets) (heq : m.findSlot true sets = some (m', ok)) : SlotFound m sets m' ok := by
  obtain ⟨m'', ok', hfound, hslot⟩ := findSlot_found h hg
  rw [heq] at hfound
  cases hfound
  exact hslot

end MemoryRecurrent
end RocmFpx
