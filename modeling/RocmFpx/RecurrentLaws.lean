import RocmFpx.Recurrent
import RocmFpx.CellOwners
import RocmFpx.PointwiseLoop

/-!
What removing, copying, keeping and clearing sequences does to the recurrent memory: the tails
stay in step with the cells, and the count of used cells with the cells in use.
-/

namespace RocmFpx
namespace MemoryRecurrent

open PointwiseLoop

variable {p : RecurrentParams} (m : MemoryRecurrent p)

/-- The sequences of each cell. -/
def ids (c : ℕ) : Finset ℕ := (m.cells c).seqId

/-- The tail of each sequence. -/
def tails (q : ℕ) : ℤ := (m.cells q).tail

/-- The part of the invariant that no operation breaks. -/
structure Settled : Prop where
  owned : Owned p.size m.ids m.tails
  src_self : ∀ c < p.size, (m.cells c).src = -1 ∨ (m.cells c).src = c
  head_lt : m.head < p.size

/-- The state of a cell in use is in the cell itself. -/
def Sourced : Prop := ∀ c < p.size, (m.ids c).Nonempty → (m.cells c).src = c

/-- The cells in use are counted, and they are those with a position. -/
structure Counted : Prop where
  used_eq : m.used = m.occupied.card
  pos_iff : ∀ c < p.size, 0 ≤ (m.cells c).pos ↔ (m.ids c).Nonempty

variable {m} {m' : MemoryRecurrent p} {q i : ℕ} {p0 p1 : ℤ}

theorem size_pos (p : RecurrentParams) : 0 < p.size := lt_of_lt_of_le Nat.one_pos (le_max_left ..)

theorem mem_occupied : i ∈ m.occupied ↔ i < p.size ∧ (m.ids i).Nonempty := by
  rw [occupied, Finset.mem_filter, Finset.mem_range]
  rfl

theorem init_settled (p : RecurrentParams) : (init p).Settled where
  owned :=
    { ids_eq := fun c _ => (Finset.filter_eq_empty_iff.mpr fun _ _ =>
        ((by omega : ((c : ℤ)) ≠ -1)).symm).symm
      tail_range := fun _ _ => .inl rfl }
  src_self _ _ := .inl rfl
  head_lt := size_pos p

/-! ## Counting -/

theorem Counted.congr (h : m.Counted) (hused : m'.used = m.used)
    (hids : ∀ c < p.size, (m'.ids c).Nonempty ↔ (m.ids c).Nonempty)
    (hpos : ∀ c < p.size, 0 ≤ (m'.cells c).pos ↔ 0 ≤ (m.cells c).pos) : m'.Counted where
  used_eq := by
    rw [hused, h.used_eq]
    congr 1
    ext c
    rw [mem_occupied, mem_occupied]
    exact and_congr_right fun hc => (hids c hc).symm
  pos_iff c hc := by rw [hpos c hc, h.pos_iff c hc, hids c hc]

/-- One cell is emptied and the count follows. -/
theorem Counted.vacate (h : m.Counted) (hi : i < p.size)
    (hused : m'.used = if (m.ids i).Nonempty then decr m.used else m.used)
    (hids : ∀ c < p.size, m'.ids c = if c = i then ∅ else m.ids c)
    (hpos : ∀ c < p.size, (m'.cells c).pos = if c = i then -1 else (m.cells c).pos) :
    m'.Counted where
  used_eq := by
    have hocc : m'.occupied = m.occupied.erase i := by
      ext c
      rw [Finset.mem_erase, mem_occupied, mem_occupied]
      by_cases hci : c = i
      · simp [hci, hids i hi]
      · constructor
        · rintro ⟨hc, hne⟩
          rw [hids c hc, if_neg hci] at hne
          exact ⟨hci, hc, hne⟩
        · rintro ⟨-, hc, hne⟩
          rw [hids c hc, if_neg hci]
          exact ⟨hc, hne⟩
    rw [hused, hocc, h.used_eq]
    split_ifs with hne
    · have hmem := mem_occupied.2 ⟨hi, hne⟩
      have hpositive := Finset.card_pos.mpr ⟨i, hmem⟩
      rw [Finset.card_erase_of_mem hmem, decr, if_neg (by omega)]
    · rw [Finset.erase_eq_of_notMem fun hmem => hne (mem_occupied.1 hmem).2]
  pos_iff c hc := by
    rw [hpos c hc, hids c hc]
    split_ifs
    · simp
    · exact h.pos_iff c hc

/-! ## Searching from a freed cell -/

section
variable (r : MemoryRecurrent p × Option ℕ)

@[simp] theorem lowerHead_cells : (lowerHead r).cells = r.1.cells := by
  unfold lowerHead
  split
  · rfl
  · split_ifs <;> rfl

@[simp] theorem lowerHead_used : (lowerHead r).used = r.1.used := by
  unfold lowerHead
  split
  · rfl
  · split_ifs <;> rfl

@[simp] theorem lowerHead_rsIdx : (lowerHead r).rsIdx = r.1.rsIdx := by
  unfold lowerHead
  split
  · rfl
  · split_ifs <;> rfl

theorem lowerHead_le : (lowerHead r).head ≤ r.1.head := by
  unfold lowerHead
  split
  · exact le_rfl
  · split_ifs with hlt
    · exact hlt.le
    · exact le_rfl

end

/-- A memory with other bookkeeping but the same cells. -/
theorem Settled.of_cells (h : m.Settled) (hcells : m'.cells = m.cells) (hhead : m'.head < p.size) :
    m'.Settled where
  owned := h.owned.congr (fun c _ => by simp only [ids, hcells]) fun r _ => by
    simp only [tails, hcells]
  src_self := by
    rw [hcells]
    exact h.src_self
  head_lt := hhead

theorem Counted.of_cells (h : m.Counted) (hcells : m'.cells = m.cells) (hused : m'.used = m.used) :
    m'.Counted :=
  h.congr hused (fun c _ => by simp only [ids, hcells]) fun c _ => by rw [hcells]

/-! ## Removing -/

/-- What `seq_rm` does to a cell. -/
def rmEffect (q : ℕ) (p0 p1 : ℤ) (c : MemCell) : MemCell :=
  if p0 ≤ c.pos ∧ c.pos < p1 ∧ q ∈ c.seqId then
    if c.seqId.erase q = ∅ then { c with seqId := ∅, pos := -1, src := -1 }
    else { c with seqId := c.seqId.erase q }
  else c

theorem rmCell_pointwise :
    Pointwise (fun r : MemoryRecurrent p × Option ℕ => r.1.cells) (rmCell q p0 p1) id
      fun _ => rmEffect q p0 p1 := by
  intro r i
  by_cases hin : p0 ≤ (r.1.cells i).pos ∧ (r.1.cells i).pos < p1 ∧ q ∈ (r.1.cells i).seqId
  · by_cases hlast : (r.1.cells i).seqId.erase q = ∅
    · simp only [rmCell, rmEffect, id, if_pos hin, if_pos hlast]
      rfl
    · simp only [rmCell, rmEffect, id, if_pos hin, if_neg hlast]
      rfl
  · simp only [rmCell, rmEffect, id, if_neg hin]
    exact (Function.update_eq_self i _).symm

def rmLoop (m : MemoryRecurrent p) (q : ℕ) (p0 p1 : ℤ) : MemoryRecurrent p × Option ℕ :=
  (List.range p.size).foldl (rmCell q p0 p1) (m, none)

theorem rmLoop_cells (hi : i < p.size) :
    (m.rmLoop q p0 p1).1.cells i = rmEffect q p0 p1 (m.cells i) :=
  (rmCell_pointwise.foldl_range p.size (m, none) i).trans (if_pos hi)

theorem rmLoop_frame (m : MemoryRecurrent p) (q : ℕ) (p0 p1 : ℤ) :
    (m.rmLoop q p0 p1).1.head = m.head ∧ (m.rmLoop q p0 p1).1.rsIdx = m.rsIdx := by
  have hall : ∀ (is : List ℕ) (r : MemoryRecurrent p × Option ℕ),
      (is.foldl (rmCell q p0 p1) r).1.head = r.1.head ∧
        (is.foldl (rmCell q p0 p1) r).1.rsIdx = r.1.rsIdx := by
    intro is
    induction is with
    | nil => exact fun r => ⟨rfl, rfl⟩
    | cons i is ih =>
      intro r
      have hturn : (rmCell q p0 p1 r i).1.head = r.1.head ∧
          (rmCell q p0 p1 r i).1.rsIdx = r.1.rsIdx := by
        simp only [rmCell]
        split_ifs <;> exact ⟨rfl, rfl⟩
      exact ⟨(ih _).1.trans hturn.1, (ih _).2.trans hturn.2⟩
  exact hall _ _

theorem rmEffect_tail (c : MemCell) : (rmEffect q p0 p1 c).tail = c.tail := by
  unfold rmEffect
  split_ifs <;> rfl

theorem rmEffect_seqId (c : MemCell) :
    (rmEffect q p0 p1 c).seqId = if p0 ≤ c.pos ∧ c.pos < p1 then c.seqId.erase q else c.seqId := by
  unfold rmEffect
  by_cases hin : p0 ≤ c.pos ∧ c.pos < p1
  · by_cases hq : q ∈ c.seqId
    · rw [if_pos ⟨hin.1, hin.2, hq⟩, if_pos hin]
      split_ifs with hlast
      · exact hlast.symm
      · rfl
    · rw [if_neg fun h => hq h.2.2, if_pos hin, Finset.erase_eq_of_notMem hq]
  · rw [if_neg fun h => hin ⟨h.1, h.2.1⟩, if_neg hin]

theorem rmEffect_src (c : MemCell) :
    (rmEffect q p0 p1 c).src = c.src ∨
      (rmEffect q p0 p1 c).src = -1 ∧ (rmEffect q p0 p1 c).seqId = ∅ := by
  unfold rmEffect
  split_ifs
  · exact .inr ⟨rfl, rfl⟩
  · exact .inl rfl
  · exact .inl rfl

theorem rmCell_counted {r : MemoryRecurrent p × Option ℕ} (h : r.1.Counted) (hi : i < p.size) :
    (rmCell q p0 p1 r i).1.Counted := by
  have hpos := h.pos_iff i hi
  by_cases hin : p0 ≤ (r.1.cells i).pos ∧ (r.1.cells i).pos < p1 ∧ q ∈ (r.1.cells i).seqId
  · have hne : (r.1.ids i).Nonempty := ⟨q, hin.2.2⟩
    by_cases hlast : (r.1.cells i).seqId.erase q = ∅
    · simp only [rmCell, if_pos hin, if_pos hlast]
      refine h.vacate hi ?_ ?_ ?_
      · rw [if_pos hne]
        exact if_pos (hpos.mpr hne)
      · intro c _
        simp only [ids, modify_cells]
        split_ifs <;> rfl
      · intro c _
        simp only [modify_cells]
        split_ifs <;> rfl
    · simp only [rmCell, if_pos hin, if_neg hlast]
      refine h.congr rfl (fun c _ => ?_) fun c _ => ?_
      · simp only [ids, modify_cells]
        split_ifs with hci
        · subst hci
          exact iff_of_true (Finset.nonempty_iff_ne_empty.mpr hlast) hne
        · exact Iff.rfl
      · simp only [modify_cells]
        split_ifs with hci
        · rw [hci]
        · exact Iff.rfl
  · simp only [rmCell, if_neg hin]
    exact h

theorem rmLoop_counted (h : m.Counted) : (m.rmLoop q p0 p1).1.Counted := by
  have hall : ∀ (is : List ℕ) (r : MemoryRecurrent p × Option ℕ), (∀ i ∈ is, i < p.size) →
      r.1.Counted → (is.foldl (rmCell q p0 p1) r).1.Counted := by
    intro is
    induction is with
    | nil => exact fun r _ hr => hr
    | cons i is ih =>
      intro r his hr
      rw [List.forall_mem_cons] at his
      exact ih _ his.2 (rmCell_counted hr his.1)
  exact hall _ _ (fun i hi => List.mem_range.mp hi) h

/-- A view of the cells that a change does not touch. -/
theorem modify_keeps {α : Type*} (view : MemCell → α) {f : MemCell → MemCell} (i c : ℕ)
    (hf : ∀ c, view (f c) = view c) :
    view ((m.modify i f).cells c) = view (m.cells c) := by
  rw [modify_cells]
  split_ifs with h
  · rw [h, hf]
  · rfl

theorem modify_ids (i : ℕ) (f : MemCell → MemCell) (c : ℕ) :
    (m.modify i f).ids c = if c = i then (f (m.cells i)).seqId else m.ids c := by
  simp only [ids, modify_cells]
  split_ifs <;> rfl

@[simp] theorem setTail_ids (q : ℕ) (t : ℤ) (c : ℕ) : (m.setTail q t).ids c = m.ids c :=
  modify_keeps MemCell.seqId q c fun _ => rfl

@[simp] theorem setTail_tails (q : ℕ) (t : ℤ) (r : ℕ) :
    (m.setTail q t).tails r = if r = q then t else m.tails r := by
  simp only [tails, setTail, modify_cells]
  split_ifs <;> rfl

@[simp] theorem setTail_pos (q : ℕ) (t : ℤ) (c : ℕ) :
    ((m.setTail q t).cells c).pos = (m.cells c).pos :=
  modify_keeps MemCell.pos q c fun _ => rfl

@[simp] theorem setTail_src (q : ℕ) (t : ℤ) (c : ℕ) :
    ((m.setTail q t).cells c).src = (m.cells c).src :=
  modify_keeps MemCell.src q c fun _ => rfl

theorem setTail_counted (h : m.Counted) (q : ℕ) (t : ℤ) : (m.setTail q t).Counted :=
  h.congr rfl (fun c _ => by rw [setTail_ids]) fun c _ => by rw [setTail_pos]

/-- The cell of a sequence. -/
theorem Settled.tail_lt (h : m.Settled) (hq : q < p.size) (htail : 0 ≤ m.tails q) :
    (m.tails q).toNat < p.size ∧ q ∈ m.ids (m.tails q).toNat := by
  rcases h.owned.tail_range q hq with hnone | ⟨c, hc, heq⟩
  · omega
  · rw [heq, Int.toNat_natCast]
    exact ⟨hc, (h.owned.mem_iff hc).mpr ⟨hq, heq⟩⟩

/-- The tail of `q` in the table, dropped when its cell is in range. -/
def untail (m : MemoryRecurrent p) (q : ℕ) (p0 p1 : ℤ) : MemoryRecurrent p :=
  if 0 ≤ m.tails q ∧ p0 ≤ (m.cells (m.tails q).toNat).pos ∧ (m.cells (m.tails q).toNat).pos < p1
  then m.setTail q (-1) else m

/-- `seq_rm` when the sequence is not rolled back. -/
def rmWhole (m : MemoryRecurrent p) (q : ℕ) (p0 p1 : ℤ) : MemoryRecurrent p :=
  lowerHead ((m.untail q p0 p1).rmLoop q p0 p1)

theorem untail_cell (m : MemoryRecurrent p) (q : ℕ) (p0 p1 : ℤ) (c : ℕ) :
    (m.untail q p0 p1).ids c = m.ids c ∧ ((m.untail q p0 p1).cells c).pos = (m.cells c).pos ∧
      ((m.untail q p0 p1).cells c).src = (m.cells c).src := by
  unfold untail
  split_ifs
  · exact ⟨setTail_ids .., setTail_pos .., setTail_src ..⟩
  · exact ⟨rfl, rfl, rfl⟩

theorem rmWhole_ids (hi : i < p.size) :
    (m.rmWhole q p0 p1).ids i =
      if p0 ≤ (m.cells i).pos ∧ (m.cells i).pos < p1 then (m.ids i).erase q else m.ids i := by
  obtain ⟨hids, hpos, -⟩ := untail_cell m q p0 p1 i
  simp only [rmWhole, ids, lowerHead_cells]
  rw [rmLoop_cells hi, rmEffect_seqId, hpos]
  simp only [ids] at hids
  rw [hids]

theorem rmWhole_ids_subset (hi : i < p.size) : (m.rmWhole q p0 p1).ids i ⊆ m.ids i := by
  rw [rmWhole_ids hi]
  split_ifs
  · exact Finset.erase_subset q _
  · exact subset_rfl

theorem rmWhole_tails (hi : i < p.size) :
    (m.rmWhole q p0 p1).tails i = (m.untail q p0 p1).tails i := by
  simp only [rmWhole, tails, lowerHead_cells]
  rw [rmLoop_cells hi, rmEffect_tail]

theorem rmWhole_src (m : MemoryRecurrent p) (q : ℕ) (p0 p1 : ℤ) (hi : i < p.size) :
    ((m.rmWhole q p0 p1).cells i).src = (m.cells i).src ∨
      ((m.rmWhole q p0 p1).cells i).src = -1 ∧ (m.rmWhole q p0 p1).ids i = ∅ := by
  obtain ⟨-, -, hsrc⟩ := untail_cell m q p0 p1 i
  simp only [rmWhole, ids, lowerHead_cells]
  rw [rmLoop_cells hi, ← hsrc]
  exact rmEffect_src _

theorem rmWhole_rsIdx (m : MemoryRecurrent p) (q : ℕ) (p0 p1 : ℤ) :
    (m.rmWhole q p0 p1).rsIdx = m.rsIdx := by
  have huntail : (m.untail q p0 p1).rsIdx = m.rsIdx := by
    unfold untail
    split_ifs <;> rfl
  rw [rmWhole, lowerHead_rsIdx, (rmLoop_frame _ q p0 p1).2, huntail]

theorem rmWhole_settled (h : m.Settled) (hq : q < p.size) : (m.rmWhole q p0 p1).Settled where
  owned := by
    by_cases htail : 0 ≤ m.tails q ∧ p0 ≤ (m.cells (m.tails q).toNat).pos ∧
        (m.cells (m.tails q).toNat).pos < p1
    · obtain ⟨ht, hmem⟩ := h.tail_lt hq htail.1
      refine h.owned.detach (q := q) (fun c hc => ?_) fun r hr => ?_
      · rw [rmWhole_ids hc]
        split_ifs with hin
        · rfl
        · refine (Finset.erase_eq_of_notMem fun hqc => hin ?_).symm
          have heq := ((h.owned.mem_iff hc).mp hqc).2
          rw [heq, Int.toNat_natCast] at htail
          exact htail.2
      · rw [rmWhole_tails hr, untail, if_pos htail, setTail_tails]
    · refine h.owned.congr (fun c hc => ?_) fun r hr => ?_
      · rw [rmWhole_ids hc]
        split_ifs with hin
        · refine Finset.erase_eq_of_notMem fun hqc => htail ?_
          have heq := ((h.owned.mem_iff hc).mp hqc).2
          rw [heq, Int.toNat_natCast]
          exact ⟨by omega, hin⟩
        · rfl
      · rw [rmWhole_tails hr, untail, if_neg htail]
  src_self c hc := by
    rcases rmWhole_src m q p0 p1 hc with heq | ⟨heq, -⟩
    · rw [heq]
      exact h.src_self c hc
    · exact .inl heq
  head_lt := by
    have hframe := rmLoop_frame (m.untail q p0 p1) q p0 p1
    have hle := lowerHead_le ((m.untail q p0 p1).rmLoop q p0 p1)
    have hhead : (m.untail q p0 p1).head = m.head := by
      unfold untail
      split_ifs <;> rfl
    have hlt := h.head_lt
    rw [rmWhole]
    omega

theorem rmWhole_sourced (h : m.Sourced) : (m.rmWhole q p0 p1).Sourced := by
  intro c hc hne
  have hbefore : (m.ids c).Nonempty := by
    exact hne.mono (rmWhole_ids_subset hc)
  rcases rmWhole_src m q p0 p1 hc with heq | ⟨-, hempty⟩
  · rw [heq]
    exact h c hc hbefore
  · rw [hempty] at hne
    exact absurd hne Finset.not_nonempty_empty

theorem rmWhole_counted (h : m.Counted) : (m.rmWhole q p0 p1).Counted := by
  have huntail : (m.untail q p0 p1).Counted := by
    unfold untail
    split_ifs
    · exact setTail_counted h q (-1)
    · exact h
  exact (rmLoop_counted huntail).of_cells (lowerHead_cells _) (lowerHead_used _)

/-- The memory with other rollback indices. -/
def withRsIdx (m : MemoryRecurrent p) (rs : ℕ → ℕ) : MemoryRecurrent p := { m with rsIdx := rs }

def rollTo (m : MemoryRecurrent p) (q : ℕ) (pos : ℤ) : MemoryRecurrent p :=
  m.modify (m.tails q).toNat fun c => { c with pos := pos }

/-- The indices when a removal of everything forgets a pending rollback. -/
def rsAfter (m : MemoryRecurrent p) (q : ℕ) (p0 p1 : ℤ) : ℕ → ℕ :=
  if p0 = 0 ∧ p1 = posMax then Function.update m.rsIdx q 0 else m.rsIdx

theorem rmSeq_cases (m : MemoryRecurrent p) (hq : q < p.size) (p0 p1 : ℤ) :
    0 < p0 ∧ (m.cells (m.tails q).toNat).pos < p1 ∧ m.rmSeq q p0 p1 = (m, false) ∨
    (0 ≤ m.tails q ∧ 0 < p0 ∧ p0 ≤ (m.cells (m.tails q).toNat).pos ∧
      (m.cells (m.tails q).toNat).pos < p1 ∧ (m.ids (m.tails q).toNat).card ≤ 1 ∧
      ∃ rs, m.rmSeq q p0 p1 = ((m.rollTo q (p0 - 1)).withRsIdx rs, true) ∧
        (rs = m.rsIdx ∨ ∃ k, rs = Function.update m.rsIdx q k)) ∨
      m.rmSeq q p0 p1 = ((m.withRsIdx (m.rsAfter q p0 p1)).rmWhole q p0 p1, true) := by
  have hall : (if p0 = 0 ∧ p1 = posMax then
      { m with rsIdx := Function.update m.rsIdx q 0 } else m) = m.withRsIdx (m.rsAfter q p0 p1) := by
    unfold rsAfter
    split_ifs <;> rfl
  rw [rmSeq, hall, if_neg (not_le.mpr hq)]
  by_cases hback : 0 ≤ m.tails q ∧ 0 < p0 ∧ p0 ≤ (m.cells (m.tails q).toNat).pos ∧
      (m.cells (m.tails q).toNat).pos < p1
  · have hrs : m.rsAfter q p0 p1 = m.rsIdx := if_neg fun h => by omega
    rw [hrs]
    by_cases hshared : 1 < (m.ids (m.tails q).toNat).card
    · exact .inl ⟨hback.2.1, hback.2.2.2, (if_pos hback).trans (if_pos hshared)⟩
    · refine (or_assoc.mp (.inl ?_))
      by_cases hlayers : p.noLayers = true
      · exact .inr ⟨hback.1, hback.2.1, hback.2.2.1, hback.2.2.2, not_lt.mp hshared, m.rsIdx,
          (if_pos hback).trans ((if_neg hshared).trans (if_pos hlayers)), .inl rfl⟩
      · by_cases hsnap : m.rsIdx q = 0 ∧
            1 ≤ (m.cells (m.tails q).toNat).pos - (p0 - 1) ∧
            (m.cells (m.tails q).toNat).pos - (p0 - 1) ≤ p.nRsSeq
        · exact .inr ⟨hback.1, hback.2.1, hback.2.2.1, hback.2.2.2, not_lt.mp hshared, _,
            (if_pos hback).trans ((if_neg hshared).trans ((if_neg hlayers).trans
              (if_pos hsnap))), .inr ⟨_, rfl⟩⟩
        · exact .inl ⟨hback.2.1, hback.2.2.2, (if_pos hback).trans ((if_neg hshared).trans
            ((if_neg hlayers).trans (if_neg hsnap)))⟩
  · exact .inr (.inr (if_neg hback))

theorem rollTo_ids (q : ℕ) (pos : ℤ) (c : ℕ) : (m.rollTo q pos).ids c = m.ids c :=
  modify_keeps MemCell.seqId _ c fun _ => rfl

theorem rollTo_tails (q : ℕ) (pos : ℤ) (r : ℕ) : (m.rollTo q pos).tails r = m.tails r :=
  modify_keeps MemCell.tail _ r fun _ => rfl

theorem rollTo_src (q : ℕ) (pos : ℤ) (c : ℕ) :
    ((m.rollTo q pos).cells c).src = (m.cells c).src :=
  modify_keeps MemCell.src _ c fun _ => rfl

theorem rollTo_settled (h : m.Settled) (q : ℕ) (pos : ℤ) : (m.rollTo q pos).Settled where
  owned := h.owned.congr (fun c _ => rollTo_ids q pos c) fun r _ => rollTo_tails q pos r
  src_self c hc := by
    rw [rollTo_src]
    exact h.src_self c hc
  head_lt := h.head_lt

theorem rollTo_sourced (h : m.Sourced) (q : ℕ) (pos : ℤ) : (m.rollTo q pos).Sourced := by
  intro c hc hne
  rw [rollTo_ids] at hne
  rw [rollTo_src]
  exact h c hc hne

theorem rollTo_counted (h : m.Counted) (q : ℕ) {pos : ℤ} (hpos : 0 ≤ pos)
    (hbefore : 0 ≤ (m.cells (m.tails q).toNat).pos) : (m.rollTo q pos).Counted := by
  refine h.congr rfl (fun c _ => by rw [rollTo_ids]) fun c _ => ?_
  simp only [rollTo, modify_cells]
  split_ifs with hc
  · exact iff_of_true hpos (hc ▸ hbefore)
  · exact Iff.rfl

/-- What the three outcomes of `seq_rm` keep, `seq_rm` keeps. -/
theorem seqRm_rule {P : MemoryRecurrent p → Prop} (hm : P m)
    (hrs : ∀ rs, P m → P (m.withRsIdx rs))
    (hroll : ∀ q pos rs, 0 ≤ pos → 0 ≤ (m.cells (m.tails q).toNat).pos → P m →
      P ((m.rollTo q pos).withRsIdx rs))
    (hwhole : ∀ (m : MemoryRecurrent p) q p0 p1, q < p.size → P m → P (m.rmWhole q p0 p1))
    (seqId p0 p1 : ℤ) : P (m.seqRm seqId p0 p1).1 := by
  rw [seqRm]
  by_cases hout : seqId < 0 ∨ (p.nSeqMax : ℤ) ≤ seqId
  · rw [if_pos hout]
    exact hm
  · have hsize := p.size_eq
    have hq : seqId.toNat < p.size := by omega
    rw [if_neg hout]
    rcases rmSeq_cases m hq (if p0 < 0 then 0 else p0) (if p1 < 0 then posMax else p1) with
      ⟨-, -, heq⟩ | ⟨-, hp0, hpos, -, -, rs, heq, -⟩ | heq
    · rw [heq]
      exact hm
    · rw [heq]
      exact hroll _ _ _ (by omega) (by omega) hm
    · rw [heq]
      exact hwhole _ _ _ _ hq (hrs _ hm)

theorem withRsIdx_settled (h : m.Settled) (rs : ℕ → ℕ) : (m.withRsIdx rs).Settled :=
  h.of_cells rfl h.head_lt

theorem seqRm_settled (h : m.Settled) (seqId p0 p1 : ℤ) : (m.seqRm seqId p0 p1).1.Settled :=
  seqRm_rule h (fun rs h => withRsIdx_settled h rs)
    (fun q pos rs _ _ h => withRsIdx_settled (rollTo_settled h q pos) rs)
    (fun _ _ _ _ hq h => rmWhole_settled h hq) seqId p0 p1

theorem seqRm_sourced (h : m.Sourced) (seqId p0 p1 : ℤ) : (m.seqRm seqId p0 p1).1.Sourced :=
  seqRm_rule h (fun _ h => h) (fun q pos _ _ _ h => rollTo_sourced h q pos)
    (fun _ _ _ _ _ h => rmWhole_sourced h) seqId p0 p1

theorem seqRm_counted (h : m.Counted) (seqId p0 p1 : ℤ) : (m.seqRm seqId p0 p1).1.Counted :=
  seqRm_rule h (fun _ h => h.of_cells rfl rfl)
    (fun q _ _ hpos hbefore h => (rollTo_counted h q hpos hbefore).of_cells rfl rfl)
    (fun _ _ _ _ _ h => rmWhole_counted h) seqId p0 p1

/-! ## Releasing and copying -/

/-- Sequence `q` out of the list of cell `t`. -/
def leave (m : MemoryRecurrent p) (q t : ℕ) : MemoryRecurrent p :=
  (m.modify t fun c => { c with seqId := c.seqId.erase q }).setTail q (-1)

/-- Cell `t` without a position or a source. -/
def blank (m : MemoryRecurrent p) (t : ℕ) : MemoryRecurrent p :=
  { m.modify t fun c => { c with pos := -1, src := -1 } with used := decr m.used }

theorem leave_ids (q t c : ℕ) :
    (m.leave q t).ids c = if c = t then (m.ids t).erase q else m.ids c := by
  rw [leave, setTail_ids, modify_ids]
  rfl

theorem leave_tails (q t r : ℕ) :
    (m.leave q t).tails r = if r = q then -1 else m.tails r := by
  rw [leave, setTail_tails]
  exact if_congr Iff.rfl rfl (modify_keeps MemCell.tail t r fun _ => rfl)

theorem leave_pos (q t c : ℕ) : ((m.leave q t).cells c).pos = (m.cells c).pos := by
  rw [leave, setTail_pos]
  exact modify_keeps MemCell.pos t c fun _ => rfl

theorem leave_src (q t c : ℕ) : ((m.leave q t).cells c).src = (m.cells c).src := by
  rw [leave, setTail_src]
  exact modify_keeps MemCell.src t c fun _ => rfl

theorem blank_cells (t : ℕ) :
    (m.blank t).cells = (m.modify t fun c => { c with pos := -1, src := -1 }).cells := rfl

theorem blank_ids (t c : ℕ) : (m.blank t).ids c = m.ids c := by
  rw [ids, blank_cells]
  exact modify_keeps MemCell.seqId t c fun _ => rfl

theorem blank_tails (t r : ℕ) : (m.blank t).tails r = m.tails r := by
  rw [tails, blank_cells]
  exact modify_keeps MemCell.tail t r fun _ => rfl

theorem blank_pos (t c : ℕ) :
    ((m.blank t).cells c).pos = if c = t then -1 else (m.cells c).pos := by
  rw [blank_cells, modify_cells]
  split_ifs <;> rfl

theorem blank_src (t c : ℕ) :
    ((m.blank t).cells c).src = if c = t then -1 else (m.cells c).src := by
  rw [blank_cells, modify_cells]
  split_ifs <;> rfl

theorem release_eq {t : ℕ} (htail : m.tails q = t) :
    m.release q = if (m.ids t).erase q = ∅ then (m.leave q t).blank t else m.leave q t := by
  have hcell : (m.cells q).tail = t := htail
  have hids : ((m.leave q t).cells t).seqId = (m.ids t).erase q :=
    (leave_ids q t t).trans (if_pos rfl)
  rw [release, if_pos (by omega)]
  simp only [hcell, Int.toNat_natCast]
  rw [← hids]
  rfl

/-- What `release` does, when the tails are in step. -/
theorem release_cases (h : m.Settled) (hq : q < p.size) :
    m.tails q = -1 ∧ m.release q = m ∨ ∃ t < p.size, m.tails q = t ∧ q ∈ m.ids t ∧
      (∀ c, (m.release q).ids c = if c = t then (m.ids t).erase q else m.ids c) ∧
      (∀ r, (m.release q).tails r = if r = q then -1 else m.tails r) ∧
      (∀ c, ((m.release q).cells c).pos =
        if c = t ∧ (m.ids t).erase q = ∅ then -1 else (m.cells c).pos) ∧
      (∀ c, ((m.release q).cells c).src =
        if c = t ∧ (m.ids t).erase q = ∅ then -1 else (m.cells c).src) ∧
      (m.release q).used = (if (m.ids t).erase q = ∅ then decr m.used else m.used) ∧
      (m.release q).head = m.head ∧ (m.release q).rsIdx = m.rsIdx := by
  rcases h.owned.tail_range q hq with hnone | ⟨t, ht, htail⟩
  · refine .inl ⟨hnone, if_neg ?_⟩
    change ¬ 0 ≤ m.tails q
    omega
  · refine .inr ⟨t, ht, htail, (h.owned.mem_iff ht).mpr ⟨hq, htail⟩, ?_⟩
    rw [release_eq htail]
    by_cases hlast : (m.ids t).erase q = ∅
    · rw [if_pos hlast]
      refine ⟨fun c => ?_, fun r => ?_, fun c => ?_, fun c => ?_, (if_pos hlast).symm, rfl, rfl⟩
      · rw [blank_ids, leave_ids]
      · rw [blank_tails, leave_tails]
      · rw [blank_pos, leave_pos]
        exact if_congr (and_iff_left hlast).symm rfl rfl
      · rw [blank_src, leave_src]
        exact if_congr (and_iff_left hlast).symm rfl rfl
    · rw [if_neg hlast]
      refine ⟨fun c => leave_ids q t c, fun r => leave_tails q t r, fun c => ?_, fun c => ?_,
        (if_neg hlast).symm, rfl, rfl⟩
      · rw [leave_pos, if_neg fun h => hlast h.2]
      · rw [leave_src, if_neg fun h => hlast h.2]

theorem release_settled (h : m.Settled) (hq : q < p.size) : (m.release q).Settled := by
  rcases release_cases h hq with ⟨-, heq⟩ | ⟨t, ht, htail, hmem, hids, htails, -, hsrc, -, hhead, -⟩
  · rwa [heq]
  · refine ⟨h.owned.detach (q := q) (fun c hc => ?_) (fun r _ => htails r), fun c hc => ?_, ?_⟩
    · rw [hids]
      split_ifs with hct
      · rw [hct]
      · refine (Finset.erase_eq_of_notMem fun hqc => hct ?_).symm
        have heq := ((h.owned.mem_iff hc).mp hqc).2
        exact Int.ofNat_inj.mp (heq.symm.trans htail)
    · rw [hsrc]
      split_ifs
      · exact .inl rfl
      · exact h.src_self c hc
    · rw [hhead]
      exact h.head_lt

theorem release_tail (h : m.Settled) (hq : q < p.size) : (m.release q).tails q = -1 := by
  rcases release_cases h hq with ⟨hnone, heq⟩ | ⟨t, -, -, -, -, htails, -⟩
  · rwa [heq]
  · rw [htails, if_pos rfl]

theorem release_tails_of_ne (h : m.Settled) (hq : q < p.size) {r : ℕ} (hr : r ≠ q) :
    (m.release q).tails r = m.tails r := by
  rcases release_cases h hq with ⟨-, heq⟩ | ⟨t, -, -, -, -, htails, -⟩
  · rw [heq]
  · rw [htails, if_neg hr]

theorem release_sourced (h : m.Settled) (hs : m.Sourced) (hq : q < p.size) :
    (m.release q).Sourced := by
  rcases release_cases h hq with ⟨-, heq⟩ | ⟨t, -, -, -, hids, -, -, hsrc, -⟩
  · rwa [heq]
  · intro c hc hne
    rw [hids] at hne
    rw [hsrc]
    by_cases hct : c = t
    · subst hct
      rw [if_pos rfl] at hne
      rw [if_neg fun h => hne.ne_empty h.2]
      exact hs c hc (hne.mono (Finset.erase_subset q _))
    · rw [if_neg hct] at hne
      rw [if_neg fun h => hct h.1]
      exact hs c hc hne

theorem release_counted (h : m.Settled) (hc : m.Counted) (hq : q < p.size) :
    (m.release q).Counted := by
  rcases release_cases h hq with ⟨-, heq⟩ | ⟨t, ht, -, hmem, hids, -, hpos, -, hused, -, -⟩
  · rwa [heq]
  · by_cases hlast : (m.ids t).erase q = ∅
    · refine hc.vacate ht ?_ (fun c _ => ?_) fun c _ => ?_
      · rw [hused, if_pos hlast, if_pos ⟨q, hmem⟩]
      · rw [hids]
        split_ifs
        · exact hlast
        · rfl
      · rw [hpos]
        exact if_congr (and_iff_left hlast) rfl rfl
    · refine hc.congr ?_ (fun c _ => ?_) fun c _ => ?_
      · rw [hused, if_neg hlast]
      · rw [hids]
        split_ifs with hct
        · subst hct
          exact iff_of_true (Finset.nonempty_iff_ne_empty.mpr hlast) ⟨q, hmem⟩
        · exact Iff.rfl
      · rw [hpos, if_neg fun h => hlast h.2]

/-- Sequence `q` in the list of cell `t`. -/
def join (m : MemoryRecurrent p) (q t : ℕ) : MemoryRecurrent p :=
  (m.modify t fun c => { c with seqId := insert q c.seqId }).setTail q t

theorem join_ids (q t c : ℕ) :
    (m.join q t).ids c = if c = t then insert q (m.ids t) else m.ids c := by
  rw [join, setTail_ids, modify_ids]
  rfl

theorem join_tails (q t r : ℕ) : (m.join q t).tails r = if r = q then (t : ℤ) else m.tails r := by
  rw [join, setTail_tails]
  exact if_congr Iff.rfl rfl (modify_keeps MemCell.tail t r fun _ => rfl)

theorem join_pos (q t c : ℕ) : ((m.join q t).cells c).pos = (m.cells c).pos := by
  rw [join, setTail_pos]
  exact modify_keeps MemCell.pos t c fun _ => rfl

theorem join_src (q t c : ℕ) : ((m.join q t).cells c).src = (m.cells c).src := by
  rw [join, setTail_src]
  exact modify_keeps MemCell.src t c fun _ => rfl

theorem join_settled (h : m.Settled) (hq : q < p.size) {t : ℕ} (ht : t < p.size)
    (hfree : m.tails q = -1) : (m.join q t).Settled where
  owned := h.owned.attach hq ht hfree
    (fun c _ => by
      rw [join_ids]
      split_ifs with hct
      · rw [hct]
      · rfl)
    fun r _ => join_tails q t r
  src_self c hc := by
    rw [join_src]
    exact h.src_self c hc
  head_lt := h.head_lt

theorem join_nonempty (h : m.Settled) {t r : ℕ} (hr : r < p.size) (htail : m.tails r = t) (c : ℕ) :
    ((m.join q t).ids c).Nonempty ↔ (m.ids c).Nonempty := by
  rw [join_ids]
  split_ifs with hct
  · have ht := h.tail_lt hr (by omega)
    rw [htail, Int.toNat_natCast] at ht
    exact iff_of_true (Finset.insert_nonempty q _) ⟨r, hct ▸ ht.2⟩
  · exact Iff.rfl

theorem join_sourced (h : m.Settled) (hs : m.Sourced) {t r : ℕ} (hr : r < p.size)
    (htail : m.tails r = t) : (m.join q t).Sourced := by
  intro c hc hne
  rw [join_src]
  exact hs c hc ((join_nonempty h hr htail c).mp hne)

theorem join_counted (h : m.Settled) (hc : m.Counted) {t r : ℕ} (hr : r < p.size)
    (htail : m.tails r = t) : (m.join q t).Counted :=
  hc.congr rfl (fun c _ => join_nonempty h hr htail c) fun c _ => by rw [join_pos]

/-- The three things that `seq_cp` does. -/
theorem seqCp_cases (h : m.Settled) (src dst : ℤ) :
    (m.seqCp src dst = m ∧
        (src = dst ∨ ¬ (0 ≤ dst ∧ dst < p.size ∧ 0 ≤ src ∧ src < p.size))) ∨ ∃ q < p.size, ∃ r < p.size, q ≠ r ∧ dst = q ∧ src = r ∧
      (m.tails r = -1 ∧ m.seqCp src dst = m.release q ∨
        ∃ t < p.size, m.tails r = t ∧ m.seqCp src dst = (m.release q).join q t) := by
  unfold seqCp
  split_ifs with heq hin
  · exact .inl ⟨rfl, .inl heq⟩
  · obtain ⟨q, rfl⟩ := Int.eq_ofNat_of_zero_le hin.1
    obtain ⟨r, rfl⟩ := Int.eq_ofNat_of_zero_le hin.2.2.1
    have hq : q < p.size := by omega
    have hr : r < p.size := by omega
    have hne : q ≠ r := fun h => heq (by rw [h])
    refine .inr ⟨q, hq, r, hr, hne, rfl, rfl, ?_⟩
    have hkept := release_tails_of_ne h hq hne.symm
    rw [tails] at hkept
    simp only [Int.toNat_natCast, hkept]
    rcases h.owned.tail_range r hr with hnone | ⟨t, ht, htail⟩
    · exact .inl ⟨hnone, if_neg (by omega)⟩
    · refine .inr ⟨t, ht, htail, ?_⟩
      rw [htail, if_pos (by omega)]
      rfl
  · exact .inl ⟨rfl, .inr hin⟩

theorem seqCp_settled (h : m.Settled) (src dst : ℤ) : (m.seqCp src dst).Settled := by
  rcases seqCp_cases h src dst with
    ⟨heq, -⟩ | ⟨q, hq, r, -, -, -, -, ⟨-, heq⟩ | ⟨t, ht, -, heq⟩⟩
  · rwa [heq]
  · rw [heq]
    exact release_settled h hq
  · rw [heq]
    exact join_settled (release_settled h hq) hq ht (release_tail h hq)

theorem seqCp_sourced (h : m.Settled) (hs : m.Sourced) (src dst : ℤ) :
    (m.seqCp src dst).Sourced := by
  rcases seqCp_cases h src dst with
    ⟨heq, -⟩ | ⟨q, hq, r, hr, hne, -, -, ⟨-, heq⟩ | ⟨t, -, htail, heq⟩⟩
  · rwa [heq]
  · rw [heq]
    exact release_sourced h hs hq
  · rw [heq]
    refine join_sourced (release_settled h hq) (release_sourced h hs hq) hr ?_
    rw [release_tails_of_ne h hq hne.symm, htail]

theorem seqCp_counted (h : m.Settled) (hc : m.Counted) (src dst : ℤ) :
    (m.seqCp src dst).Counted := by
  rcases seqCp_cases h src dst with
    ⟨heq, -⟩ | ⟨q, hq, r, hr, hne, -, -, ⟨-, heq⟩ | ⟨t, -, htail, heq⟩⟩
  · rwa [heq]
  · rw [heq]
    exact release_counted h hc hq
  · rw [heq]
    refine join_counted (release_settled h hq) (release_counted h hc hq) hr ?_
    rw [release_tails_of_ne h hq hne.symm, htail]

/-! ## Keeping one sequence -/

/-- The table when the other sequences lose their tails. -/
def dropTail (m : MemoryRecurrent p) (seqId : ℤ) (i : ℕ) : MemoryRecurrent p :=
  if (i : ℤ) ≠ seqId then m.setTail i (-1) else m

/-- What `seq_keep` does to a cell. -/
def keepEffect (seqId : ℤ) (i : ℕ) (c : MemCell) : MemCell :=
  if hasSeqId c seqId then
    { c with tail := if (i : ℤ) ≠ seqId then -1 else c.tail, seqId := {seqId.toNat} }
  else
    { c with tail := if (i : ℤ) ≠ seqId then -1 else c.tail, pos := -1, src := -1, seqId := ∅ }

variable {seqId : ℤ}

theorem dropTail_cells (i : ℕ) : (m.dropTail seqId i).cells = Function.update m.cells i
    { m.cells i with tail := if (i : ℤ) ≠ seqId then -1 else (m.cells i).tail } := by
  unfold dropTail
  split_ifs
  · rfl
  · exact (Function.update_eq_self i m.cells).symm

theorem dropTail_cell (i : ℕ) : (m.dropTail seqId i).cells i =
    { m.cells i with tail := if (i : ℤ) ≠ seqId then -1 else (m.cells i).tail } := by
  rw [dropTail_cells, Function.update_self]

theorem dropTail_frame (m : MemoryRecurrent p) (seqId : ℤ) (i : ℕ) : (m.dropTail seqId i).used = m.used ∧
    (m.dropTail seqId i).head = m.head ∧ (m.dropTail seqId i).rsIdx = m.rsIdx := by
  unfold dropTail
  split_ifs <;> exact ⟨rfl, rfl, rfl⟩

theorem dropTail_counted (h : m.Counted) (seqId : ℤ) (i : ℕ) : (m.dropTail seqId i).Counted := by
  unfold dropTail
  split_ifs
  · exact setTail_counted h i (-1)
  · exact h

theorem keepCell_of_mem {r : MemoryRecurrent p × Option ℕ} (h : hasSeqId (r.1.cells i) seqId) :
    keepCell seqId r i =
      ((r.1.dropTail seqId i).modify i fun c => { c with seqId := {seqId.toNat} }, r.2) := by
  have hcell : hasSeqId ((r.1.dropTail seqId i).cells i) seqId := by
    rw [dropTail_cell]
    exact h
  exact if_pos hcell

theorem keepCell_of_notMem {r : MemoryRecurrent p × Option ℕ}
    (h : ¬ hasSeqId (r.1.cells i) seqId) : keepCell seqId r i =
      ({ (r.1.dropTail seqId i).modify i fun c => { c with pos := -1, src := -1, seqId := ∅ } with
        used := if 0 ≤ (r.1.cells i).pos then decr r.1.used else r.1.used }, r.2.or (some i)) := by
  have hcell : ¬ hasSeqId ((r.1.dropTail seqId i).cells i) seqId := by
    rw [dropTail_cell]
    exact h
  have hpos : ((r.1.dropTail seqId i).cells i).pos = (r.1.cells i).pos := by rw [dropTail_cell]
  rw [← hpos, ← (dropTail_frame r.1 seqId i).1]
  exact if_neg hcell

theorem keepCell_pointwise (seqId : ℤ) :
    Pointwise (fun r : MemoryRecurrent p × Option ℕ => r.1.cells) (keepCell seqId) id
      (keepEffect seqId) := by
  intro r i
  change (keepCell seqId r i).1.cells =
    Function.update r.1.cells i (keepEffect seqId i (r.1.cells i))
  by_cases hin : hasSeqId (r.1.cells i) seqId
  · rw [keepCell_of_mem hin, keepEffect, if_pos hin]
    simp only [modify, dropTail_cells, Function.update_self, Function.update_idem]
  · rw [keepCell_of_notMem hin, keepEffect, if_neg hin]
    simp only [modify, dropTail_cells, Function.update_self, Function.update_idem]

def keepLoop (m : MemoryRecurrent p) (seqId : ℤ) : MemoryRecurrent p × Option ℕ :=
  (List.range p.size).foldl (keepCell seqId) (m, none)

theorem seqKeep_cell (hi : i < p.size) :
    (m.seqKeep seqId).cells i = keepEffect seqId i (m.cells i) := by
  rw [seqKeep, lowerHead_cells]
  exact ((keepCell_pointwise seqId).foldl_range p.size (m, none) i).trans (if_pos hi)

theorem keepCell_frame (seqId : ℤ) (r : MemoryRecurrent p × Option ℕ) (i : ℕ) :
    (keepCell seqId r i).1.head = r.1.head ∧ (keepCell seqId r i).1.rsIdx = r.1.rsIdx := by
  obtain ⟨-, hhead, hrs⟩ := dropTail_frame r.1 seqId i
  by_cases hin : hasSeqId (r.1.cells i) seqId
  · rw [keepCell_of_mem hin]
    exact ⟨hhead, hrs⟩
  · rw [keepCell_of_notMem hin]
    exact ⟨hhead, hrs⟩

theorem keepCell_counted {r : MemoryRecurrent p × Option ℕ} (h : r.1.Counted) (hi : i < p.size) :
    (keepCell seqId r i).1.Counted := by
  have hpos := h.pos_iff i hi
  have hdrop := dropTail_counted h seqId i
  have hids : ∀ c, (r.1.dropTail seqId i).ids c = r.1.ids c := fun c => by
    unfold dropTail
    split_ifs
    · exact setTail_ids i (-1) c
    · rfl
  by_cases hin : hasSeqId (r.1.cells i) seqId
  · rw [keepCell_of_mem hin]
    refine hdrop.congr rfl (fun c _ => ?_) fun c _ => ?_
    · rw [modify_ids]
      split_ifs with hci
      · rw [hci, hids]
        exact iff_of_true (Finset.singleton_nonempty _) ⟨_, hin.2⟩
      · exact Iff.rfl
    · rw [modify_keeps MemCell.pos i c]
      exact fun _ => rfl
  · rw [keepCell_of_notMem hin]
    refine hdrop.vacate hi ?_ (fun c _ => ?_) fun c _ => ?_
    · rw [hids, (dropTail_frame r.1 seqId i).1]
      exact if_congr hpos rfl rfl
    · exact modify_ids (m := r.1.dropTail seqId i) i
        (fun c => { c with pos := -1, src := -1, seqId := ∅ }) c
    · change (((r.1.dropTail seqId i).modify i fun c =>
        { c with pos := -1, src := -1, seqId := ∅ }).cells c).pos = _
      rw [modify_cells]
      split_ifs <;> rfl

theorem keepLoop_counted (h : m.Counted) : (m.keepLoop seqId).1.Counted := by
  have hall : ∀ (is : List ℕ) (r : MemoryRecurrent p × Option ℕ), (∀ i ∈ is, i < p.size) →
      r.1.Counted → (is.foldl (keepCell seqId) r).1.Counted := by
    intro is
    induction is with
    | nil => exact fun r _ hr => hr
    | cons i is ih =>
      intro r his hr
      rw [List.forall_mem_cons] at his
      exact ih _ his.2 (keepCell_counted hr his.1)
  exact hall _ _ (fun i hi => List.mem_range.mp hi) h

theorem keepLoop_frame : (m.keepLoop seqId).1.head = m.head ∧ (m.keepLoop seqId).1.rsIdx = m.rsIdx := by
  have hall : ∀ (is : List ℕ) (r : MemoryRecurrent p × Option ℕ),
      (is.foldl (keepCell seqId) r).1.head = r.1.head ∧
        (is.foldl (keepCell seqId) r).1.rsIdx = r.1.rsIdx := by
    intro is
    induction is with
    | nil => exact fun r => ⟨rfl, rfl⟩
    | cons i is ih =>
      intro r
      obtain ⟨hhead, hrs⟩ := keepCell_frame seqId r i
      exact ⟨(ih _).1.trans hhead, (ih _).2.trans hrs⟩
  exact hall _ _

theorem seqKeep_ids (hi : i < p.size) :
    (m.seqKeep seqId).ids i = (m.ids i).filter fun q : ℕ => (q : ℤ) = seqId := by
  rw [ids, seqKeep_cell hi]
  by_cases hin : hasSeqId (m.cells i) seqId
  · rw [keepEffect, if_pos hin]
    ext q
    rw [Finset.mem_filter, Finset.mem_singleton]
    constructor
    · rintro rfl
      exact ⟨hin.2, Int.toNat_of_nonneg hin.1⟩
    · rintro ⟨-, heq⟩
      rw [← heq, Int.toNat_natCast]
  · rw [keepEffect, if_neg hin]
    refine (Finset.filter_eq_empty_iff.mpr fun q hq heq => hin ?_).symm
    rw [← heq, hasSeqId, Int.toNat_natCast]
    exact ⟨by omega, hq⟩

theorem seqKeep_tails (hi : i < p.size) :
    (m.seqKeep seqId).tails i = if (i : ℤ) = seqId then m.tails i else -1 := by
  rw [tails, seqKeep_cell hi, keepEffect]
  split_ifs <;> first | rfl | contradiction

theorem seqKeep_src (m : MemoryRecurrent p) (seqId : ℤ) (hi : i < p.size) : ((m.seqKeep seqId).cells i).src = (m.cells i).src ∨
    ((m.seqKeep seqId).cells i).src = -1 ∧ (m.seqKeep seqId).ids i = ∅ := by
  rw [ids, seqKeep_cell hi]
  by_cases hin : hasSeqId (m.cells i) seqId
  · rw [keepEffect, if_pos hin]
    exact .inl rfl
  · rw [keepEffect, if_neg hin]
    exact .inr ⟨rfl, rfl⟩

theorem seqKeep_settled (h : m.Settled) (seqId : ℤ) : (m.seqKeep seqId).Settled where
  owned := h.owned.restrict (fun q : ℕ => (q : ℤ) = seqId) (fun _ hc => seqKeep_ids hc)
    fun _ hr => seqKeep_tails hr
  src_self c hc := by
    rcases seqKeep_src m seqId hc with heq | ⟨heq, -⟩
    · rw [heq]
      exact h.src_self c hc
    · exact .inl heq
  head_lt := lt_of_le_of_lt ((lowerHead_le _).trans keepLoop_frame.1.le) h.head_lt

theorem seqKeep_sourced (h : m.Sourced) (seqId : ℤ) : (m.seqKeep seqId).Sourced := by
  intro c hc hne
  rcases seqKeep_src m seqId hc with heq | ⟨-, hempty⟩
  · rw [seqKeep_ids hc] at hne
    rw [heq]
    exact h c hc (hne.mono (Finset.filter_subset _ _))
  · rw [hempty] at hne
    exact absurd hne Finset.not_nonempty_empty

theorem seqKeep_counted (h : m.Counted) (seqId : ℤ) : (m.seqKeep seqId).Counted :=
  (keepLoop_counted h).of_cells (lowerHead_cells _) (lowerHead_used _)

theorem seqKeep_rsIdx : (m.seqKeep seqId).rsIdx = m.rsIdx :=
  (lowerHead_rsIdx _).trans keepLoop_frame.2

/-! ## Clearing -/

theorem clear_cell (hi : i < p.size) :
    m.clear.cells i = { m.cells i with pos := -1, seqId := ∅, src := -1, tail := -1 } :=
  if_pos hi

theorem clear_ids (hi : i < p.size) : m.clear.ids i = ∅ := by
  rw [ids, clear_cell hi]

theorem clear_settled (m : MemoryRecurrent p) : m.clear.Settled where
  owned := (init_settled p).owned.congr (fun c hc => clear_ids hc) fun r hr => by
    rw [tails, clear_cell hr]
    rfl
  src_self c hc := by
    rw [clear_cell hc]
    exact .inl rfl
  head_lt := size_pos p

theorem clear_sourced (m : MemoryRecurrent p) : m.clear.Sourced := by
  intro c hc hne
  rw [clear_ids hc] at hne
  exact absurd hne Finset.not_nonempty_empty

theorem clear_counted (m : MemoryRecurrent p) : m.clear.Counted where
  used_eq := by
    refine (Finset.card_eq_zero.mpr (Finset.filter_eq_empty_iff.mpr fun c hc hne => ?_)).symm
    exact hne.ne_empty (clear_ids (m := m) (Finset.mem_range.mp hc))
  pos_iff c hc := by
    rw [clear_cell hc, clear_ids hc]
    simp

end MemoryRecurrent
end RocmFpx
