import RocmFpx.RecurrentRuns
import RocmFpx.Fallible
import Mathlib.Data.Finset.Sort

/-!
The rollback indices of the recurrent memory: they are kept for each sequence, while the state is
that of a cell, so the sequences of a cell must agree on them.
-/

namespace RocmFpx
namespace MemoryRecurrent

open GuardedRuns

variable {E : Type*} {p : RecurrentParams} {m m' : MemoryRecurrent p} {q : ℕ}

/-! ## The readers of the indices -/

/-- The sequences of a cell in the order of a `std::set`. -/
def seqIds (m : MemoryRecurrent p) (i : ℕ) : List ℕ := (m.ids i).sort (· ≤ ·)

/-- `s_copy`: the row that cell `i` of the range is copied from, and the index of the cell's first
sequence reset. -/
def sCopy (m : MemoryRecurrent p) (i : ℕ) : ℤ × MemoryRecurrent p :=
  let c := m.cells (i + m.head)
  if p.nRsSeq = 0 then (c.src0, m)
  else match m.seqIds (i + m.head) with
    | [] => (c.src0, m)
    | q :: _ =>
      if q < p.nSeqMax then
        ((m.rsIdx q * p.size : ℕ) + c.src0, { m with rsIdx := Function.update m.rsIdx q 0 })
      else (c.src0, m)

/-- The loop of `state_write` over the sequences of a cell; `none` for an abort. -/
def scanRsIdx (m : MemoryRecurrent p) : Option ℕ → List ℕ → Option (Option ℕ)
  | cur, [] => some cur
  | cur, q :: qs =>
    if p.nSeqMax ≤ q then none
    else match cur with
      | none => scanRsIdx m (some (m.rsIdx q)) qs
      | some r => if r ≠ m.rsIdx q then none else scanRsIdx m (some r) qs

/-- `rs_idx_cur` of `state_write` for cell `i`. -/
def rsIdxCur (m : MemoryRecurrent p) (seqId : ℤ) (i : ℕ) : Option ℕ :=
  if p.nRsSeq = 0 then some 0
  else if seqId ≠ -1 then
    if 0 ≤ seqId ∧ seqId < p.nSeqMax then some (m.rsIdx seqId.toNat) else none
  else (m.scanRsIdx none (m.seqIds i)).map fun r => r.getD 0

/-- The row that `state_write` writes for cell `i`. -/
def writtenRow (m : MemoryRecurrent p) (seqId : ℤ) (i : ℕ) : Option ℤ :=
  (m.rsIdxCur seqId i).map fun r =>
    (r * p.size : ℕ) + if 0 ≤ (m.cells i).src then (m.cells i).src else i

/-- The rows of the cells that `state_write` writes. -/
def stateWrite (m : MemoryRecurrent p) (seqId : ℤ) : Option (List ℤ) :=
  ((List.range p.size).filter fun i =>
    decide (seqId = -1 ∧ m.ids i ≠ ∅ ∨ hasSeqId (m.cells i) seqId)).mapM (m.writtenRow seqId)

/-! ## Sequences that agree -/

/-- The sequences of a cell have the same rollback index. -/
def Aligned (m : MemoryRecurrent p) : Prop :=
  ∀ c < p.size, ∀ q ∈ m.ids c, ∀ r ∈ m.ids c, m.rsIdx q = m.rsIdx r

/-- Any sequence of a cell names the row that is copied, and a whole cache can be written. -/
structure RowsDefined (m : MemoryRecurrent p) : Prop where
  copied : p.nRsSeq ≠ 0 → ∀ i, i + m.head < p.size → ∀ q ∈ m.ids (i + m.head),
    (m.sCopy i).1 = (m.rsIdx q * p.size : ℕ) + (m.cells (i + m.head)).src0
  written : (m.stateWrite (-1)).isSome = true

theorem mem_seqIds {i : ℕ} : q ∈ m.seqIds i ↔ q ∈ m.ids i := Finset.mem_sort _

theorem scanRsIdx_some_iff {r : ℕ} {qs : List ℕ} :
    (m.scanRsIdx (some r) qs).isSome = true ↔ ∀ q ∈ qs, q < p.nSeqMax ∧ m.rsIdx q = r := by
  induction qs with
  | nil => exact iff_of_true rfl fun _ hq => absurd hq List.not_mem_nil
  | cons q qs ih =>
    rw [List.forall_mem_cons, ← ih, scanRsIdx]
    by_cases hq : p.nSeqMax ≤ q
    · rw [if_pos hq]
      exact iff_of_false Bool.false_ne_true fun h => not_lt_of_ge hq h.1.1
    · by_cases hr : m.rsIdx q = r
      · simp [hq, hr, not_le.mp hq]
      · simp [hq, hr, Ne.symm hr]

theorem scanRsIdx_none_iff {qs : List ℕ} : (m.scanRsIdx none qs).isSome = true ↔
    ∀ q ∈ qs, ∀ r ∈ qs, q < p.nSeqMax ∧ m.rsIdx q = m.rsIdx r := by
  cases qs with
  | nil => exact iff_of_true rfl fun _ hq => absurd hq List.not_mem_nil
  | cons q qs =>
    rw [scanRsIdx]
    by_cases hq : p.nSeqMax ≤ q
    · rw [if_pos hq]
      exact iff_of_false Bool.false_ne_true fun h =>
        not_lt_of_ge hq (h q List.mem_cons_self q List.mem_cons_self).1
    · rw [if_neg hq]
      refine scanRsIdx_some_iff.trans ⟨fun h => ?_, fun h r hr => ?_⟩
      · have hall : ∀ r ∈ q :: qs, r < p.nSeqMax ∧ m.rsIdx r = m.rsIdx q :=
          List.forall_mem_cons.mpr ⟨⟨not_le.mp hq, rfl⟩, h⟩
        exact fun r hr s hs => ⟨(hall r hr).1, (hall r hr).2.trans (hall s hs).2.symm⟩
      · exact h r (List.mem_cons_of_mem q hr) q List.mem_cons_self

theorem stateWrite_iff (h : m.Settled) (hn : p.nRsSeq ≠ 0) :
    (m.stateWrite (-1)).isSome = true ↔ m.Aligned := by
  have hrow : ∀ i, (m.writtenRow (-1) i).isSome = true ↔
      ∀ q ∈ m.ids i, ∀ r ∈ m.ids i, q < p.nSeqMax ∧ m.rsIdx q = m.rsIdx r := fun i => by
    rw [writtenRow, Option.isSome_map, rsIdxCur, if_neg hn, if_neg (not_not.mpr rfl),
      Option.isSome_map, scanRsIdx_none_iff]
    simp only [mem_seqIds]
  rw [stateWrite, Fallible.isSome_mapM]
  simp only [List.mem_filter, List.mem_range, hrow, true_and, decide_eq_true_eq]
  constructor
  · intro hall c hc q hq r hr
    exact (hall c ⟨hc, .inl (Finset.ne_empty_of_mem hq)⟩ q hq r hr).2
  · rintro ha c ⟨hc, -⟩ q hq r hr
    have hlt := ((h.owned.mem_iff hc).mp hq).1
    rw [p.size_eq] at hlt
    exact ⟨hlt, ha c hc q hq r hr⟩

theorem stateWrite_of_noSnapshots (hn : p.nRsSeq = 0) : (m.stateWrite (-1)).isSome = true :=
  Fallible.isSome_mapM.2 fun i _ => by
    rw [writtenRow, Option.isSome_map, rsIdxCur, if_pos hn]
    rfl

theorem Aligned.rowsDefined (h : m.Settled) (ha : m.Aligned) : m.RowsDefined where
  copied hn i hi q hq := by
    rw [sCopy, if_neg hn]
    cases hids : m.seqIds (i + m.head) with
    | nil =>
      rw [← mem_seqIds, hids] at hq
      exact absurd hq List.not_mem_nil
    | cons r rs =>
      have hr : r ∈ m.ids (i + m.head) := by
        rw [← mem_seqIds, hids]
        exact List.mem_cons_self
      have hlt := ((h.owned.mem_iff hi).mp hr).1
      rw [p.size_eq] at hlt
      simp only [if_pos hlt]
      rw [ha _ hi r hr q hq]
  written := by
    by_cases hn : p.nRsSeq = 0
    · exact stateWrite_of_noSnapshots hn
    · exact (stateWrite_iff h hn).mpr ha

/-! ## One call -/

theorem Aligned.mono (h : m.Aligned) (hids : ∀ c < p.size, m'.ids c ⊆ m.ids c)
    (hrs : m'.rsIdx = m.rsIdx) : m'.Aligned := by
  intro c hc q hq r hr
  rw [hrs]
  exact h c hc q (hids c hc hq) r (hids c hc hr)

/-- `seq_rm` of a whole sequence, which resets its index. -/
def ForgetsAll (p0 p1 : ℤ) : Prop := p0 ≤ 0 ∧ (p1 < 0 ∨ p1 = posMax)

/-- What a call must find for the sequences of a cell to agree afterwards. -/
def RollbackSafe (m : MemoryRecurrent p) : RecurrentCall E → Prop
  | .findSlot ub => (∀ x ∈ ubatchSets ub, ∀ id ∈ x.1, InRange p id) → ∀ x ∈ ubatchSets ub,
      ∀ a ∈ x.1, ∀ b ∈ x.1, m.rsIdx a.toNat = m.rsIdx b.toNat
  | .seqCp src dst => InRange p src → InRange p dst → 0 ≤ m.tails src.toNat →
      m.rsIdx dst.toNat = m.rsIdx src.toNat
  | .seqRm seqId p0 p1 => InRange p seqId → ForgetsAll p0 p1 → 0 ≤ m.tails seqId.toNat →
      (0 ≤ (m.cells (m.tails seqId.toNat).toNat).pos ∧
        (m.cells (m.tails seqId.toNat).toNat).pos < posMax) ∨
      (m.ids (m.tails seqId.toNat).toNat).card ≤ 1 ∨ m.rsIdx seqId.toNat = 0
  | _ => True

theorem release_rsIdx (m : MemoryRecurrent p) (q : ℕ) : (m.release q).rsIdx = m.rsIdx := by
  simp only [release]
  split_ifs <;> rfl

theorem release_ids_subset (h : m.Settled) (hq : q < p.size) (c : ℕ) :
    (m.release q).ids c ⊆ m.ids c := by
  rcases release_cases h hq with ⟨-, heq⟩ | ⟨t, -, -, -, hids, -⟩
  · rw [heq]
  · rw [hids]
    split_ifs with hct
    · rw [hct]
      exact Finset.erase_subset q _
    · rfl

theorem release_aligned (h : m.Settled) (ha : m.Aligned) (hq : q < p.size) :
    (m.release q).Aligned :=
  ha.mono (fun c _ => release_ids_subset h hq c) (release_rsIdx m q)

theorem seqCp_aligned_iff (h : m.Settled) (ha : m.Aligned) (src dst : ℤ) :
    (m.seqCp src dst).Aligned ↔ m.RollbackSafe (.seqCp src dst : RecurrentCall E) := by
  rcases seqCp_cases h src dst with ⟨heq, hnothing⟩ | ⟨q, hq, r, hr, hne, rfl, rfl, hcases⟩
  · rw [heq]
    refine iff_of_true ha fun hs hd _ => ?_
    rcases hnothing with rfl | hout
    · rfl
    · exact absurd ⟨hd.1, hd.2, hs.1, hs.2⟩ hout
  · rcases hcases with ⟨hnone, heq⟩ | ⟨t, ht, htail, heq⟩
    · rw [heq]
      refine iff_of_true (release_aligned h ha hq) fun _ _ hpos => ?_
      rw [Int.toNat_natCast] at hpos
      omega
    · have hrs : ((m.release q).join q t).rsIdx = m.rsIdx := release_rsIdx m q
      have hrt : r ∈ (m.release q).ids t := by
        rw [(release_settled h hq).owned.mem_iff ht, release_tails_of_ne h hq hne.symm]
        exact ⟨hr, htail⟩
      have hrm := release_ids_subset h hq t hrt
      rw [heq]
      constructor
      · intro hal _ _ _
        have hlist : ((m.release q).join q t).ids t = insert q ((m.release q).ids t) := by
          rw [join_ids, if_pos rfl]
        have hagree := hal t ht q (by rw [hlist]; exact Finset.mem_insert_self ..) r
          (by rw [hlist]; exact Finset.mem_insert_of_mem hrt)
        rwa [hrs] at hagree
      · intro hsafe
        have hqr : m.rsIdx q = m.rsIdx r := by
          have hagree := hsafe ⟨by omega, by omega⟩ ⟨by omega, by omega⟩
          simp only [Int.toNat_natCast] at hagree
          exact hagree (by omega)
        intro c hc a hac b hbc
        rw [hrs]
        rw [join_ids] at hac hbc
        by_cases hct : c = t
        · -- whoever is in the cell has the index of `r`
          have hcell : ∀ x, x ∈ insert q ((m.release q).ids t) → m.rsIdx x = m.rsIdx r := by
            intro x hx
            rcases Finset.mem_insert.mp hx with rfl | hx
            · exact hqr
            · exact ha t ht x (release_ids_subset h hq t hx) r hrm
          rw [if_pos hct] at hac hbc
          rw [hcell a hac, hcell b hbc]
        · rw [if_neg hct] at hac hbc
          exact ha c hc a (release_ids_subset h hq c hac) b (release_ids_subset h hq c hbc)

theorem rmAll_aligned_iff (h : m.Settled) (ha : m.Aligned) (hq : q < p.size) :
    ((m.withRsIdx (Function.update m.rsIdx q 0)).rmWhole q 0 posMax).Aligned ↔
      (0 ≤ m.tails q → (0 ≤ (m.cells (m.tails q).toNat).pos ∧
        (m.cells (m.tails q).toNat).pos < posMax) ∨
      (m.ids (m.tails q).toNat).card ≤ 1 ∨ m.rsIdx q = 0) := by
  have hrs : ((m.withRsIdx (Function.update m.rsIdx q 0)).rmWhole q 0 posMax).rsIdx =
      Function.update m.rsIdx q 0 := rmWhole_rsIdx _ _ _ _
  have hids : ∀ c < p.size, ((m.withRsIdx (Function.update m.rsIdx q 0)).rmWhole q 0 posMax).ids c =
      if 0 ≤ (m.cells c).pos ∧ (m.cells c).pos < posMax then (m.ids c).erase q else m.ids c :=
    fun c hc => rmWhole_ids hc
  constructor
  · intro hal htail
    obtain ⟨ht, hmem⟩ := h.tail_lt hq htail
    by_contra hbad
    push Not at hbad
    obtain ⟨hpos, hcard, hidx⟩ := hbad
    obtain ⟨r, hr, hne⟩ := Finset.exists_mem_ne hcard q
    have hstay : ∀ x ∈ m.ids (m.tails q).toNat,
        x ∈ ((m.withRsIdx (Function.update m.rsIdx q 0)).rmWhole q 0 posMax).ids
          (m.tails q).toNat := fun x hx => by
      rw [hids _ ht, if_neg fun hin => not_lt_of_ge (hpos hin.1) hin.2]
      exact hx
    have hagree := hal _ ht q (hstay q hmem) r (hstay r hr)
    rw [hrs, Function.update_self, Function.update_of_ne hne] at hagree
    exact hidx ((ha _ ht q hmem r hr).trans hagree.symm)
  · intro hsafe
    have hsub : ∀ c < p.size, ∀ x, x ∈ ((m.withRsIdx (Function.update m.rsIdx q 0)).rmWhole
        q 0 posMax).ids c → x ∈ m.ids c := fun c hc x hx => by
      rw [hids c hc] at hx
      split_ifs at hx
      · exact Finset.mem_of_mem_erase hx
      · exact hx
    intro c hc a hac b hbc
    have hagree := ha c hc a (hsub c hc a hac) b (hsub c hc b hbc)
    rw [hrs]
    by_cases hin : q ∈ ((m.withRsIdx (Function.update m.rsIdx q 0)).rmWhole q 0 posMax).ids c
    · -- the sequence has stayed: it was alone or not rolled back
      have htail := ((h.owned.mem_iff hc).mp (hsub c hc q hin)).2
      have hout : ¬ (0 ≤ (m.cells c).pos ∧ (m.cells c).pos < posMax) := fun hpos => by
        rw [hids c hc, if_pos hpos] at hin
        exact Finset.notMem_erase q _ hin
      rw [htail, Int.toNat_natCast] at hsafe
      rcases (hsafe (by omega)).resolve_left hout with hcard | hzero
      · rw [Finset.card_le_one.mp hcard a (hsub c hc a hac) b (hsub c hc b hbc)]
      · rwa [Function.update_eq_self_iff.mpr hzero.symm]
    · have hne : ∀ x ∈ ((m.withRsIdx (Function.update m.rsIdx q 0)).rmWhole q 0 posMax).ids c,
          x ≠ q := fun x hx heq => hin (heq ▸ hx)
      rw [Function.update_of_ne (hne a hac), Function.update_of_ne (hne b hbc), hagree]

theorem rollTo_aligned (h : m.Settled) (ha : m.Aligned)
    (hcard : (m.ids (m.tails q).toNat).card ≤ 1) {rs : ℕ → ℕ}
    (hrs : rs = m.rsIdx ∨ ∃ k, rs = Function.update m.rsIdx q k) (pos : ℤ) :
    ((m.rollTo q pos).withRsIdx rs).Aligned := by
  have hids : ∀ c, ((m.rollTo q pos).withRsIdx rs).ids c = m.ids c := rollTo_ids q pos
  intro c hc a hac b hbc
  rw [hids] at hac hbc
  change rs a = rs b
  by_cases hin : q ∈ m.ids c
  · have hcell := ((h.owned.mem_iff hc).mp hin).2
    rw [hcell, Int.toNat_natCast] at hcard
    rw [Finset.card_le_one.mp hcard a hac b hbc]
  · have hsame : ∀ x ∈ m.ids c, rs x = m.rsIdx x := fun x hx => by
      rcases hrs with rfl | ⟨k, rfl⟩
      · rfl
      · exact Function.update_of_ne (fun heq : x = q => hin (heq ▸ hx)) _ _
    rw [hsame a hac, hsame b hbc, ha c hc a hac b hbc]

theorem rmSeq_aligned_iff (h : m.Settled) (ha : m.Aligned) (hq : q < p.size) (p0 p1 : ℤ) :
    (m.rmSeq q p0 p1).1.Aligned ↔ (p0 = 0 ∧ p1 = posMax → 0 ≤ m.tails q →
      (0 ≤ (m.cells (m.tails q).toNat).pos ∧ (m.cells (m.tails q).toNat).pos < posMax) ∨
      (m.ids (m.tails q).toNat).card ≤ 1 ∨ m.rsIdx q = 0) := by
  rcases rmSeq_cases m hq p0 p1 with
    ⟨hp0, -, heq⟩ | ⟨-, hp0, -, -, hcard, rs, heq, hrs⟩ | heq
  · rw [heq]
    exact iff_of_true ha fun hall => by omega
  · rw [heq]
    exact iff_of_true (rollTo_aligned h ha hcard hrs _) fun hall => by omega
  · rw [heq]
    by_cases hall : p0 = 0 ∧ p1 = posMax
    · obtain ⟨rfl, rfl⟩ := hall
      rw [rsAfter, if_pos ⟨rfl, rfl⟩, rmAll_aligned_iff h ha hq]
      exact ⟨fun hsafe _ => hsafe, fun hsafe => hsafe ⟨rfl, rfl⟩⟩
    · rw [rsAfter, if_neg hall]
      exact iff_of_true (ha.mono (fun c hc => rmWhole_ids_subset hc) (rmWhole_rsIdx _ _ _ _))
        fun h => absurd h hall

theorem seqRm_aligned_iff (h : m.Settled) (ha : m.Aligned) (seqId p0 p1 : ℤ) :
    (m.seqRm seqId p0 p1).1.Aligned ↔
      m.RollbackSafe (.seqRm seqId p0 p1 : RecurrentCall E) := by
  have hsize := p.size_eq
  rw [seqRm]
  by_cases hout : seqId < 0 ∨ (p.nSeqMax : ℤ) ≤ seqId
  · rw [if_pos hout]
    refine iff_of_true ha fun hin _ _ => ?_
    obtain ⟨h0, h1⟩ := hin
    omega
  · have hin : InRange p seqId := ⟨by omega, by omega⟩
    have hall : (if p0 < 0 then 0 else p0) = 0 ∧ (if p1 < 0 then posMax else p1) = posMax ↔
        ForgetsAll p0 p1 := by
      rw [ForgetsAll]
      split_ifs <;> omega
    rw [if_neg hout, rmSeq_aligned_iff h ha hin.toNat_lt, hall]
    exact ⟨fun hsafe _ => hsafe, fun hsafe => hsafe hin⟩

/-! ## Placing -/

theorem claim_rsIdx {e : ℕ} (heq : m.claim q e = some m') : m'.rsIdx = m.rsIdx := by
  simp only [claim] at heq
  split_ifs at heq <;> cases heq <;> rfl

theorem findCells_rsIdx {qs : List ℕ} {e : ℕ} {lo hi lo' hi' : ℤ}
    (heq : findCells m e lo hi qs = some (m', lo', hi')) : m'.rsIdx = m.rsIdx := by
  induction qs generalizing m e lo hi with
  | nil =>
    cases heq
    rfl
  | cons q qs ih =>
    rw [findCells] at heq
    by_cases hlost : 0 ≤ (m.cells q).tail ∧ q ∉ (m.cells (m.cells q).tail.toNat).seqId
    · rw [if_pos hlost] at heq
      cases heq
    · rw [if_neg hlost] at heq
      by_cases howns : m.owns q
      · rw [if_pos howns] at heq
        exact ih heq
      · rw [if_neg howns] at heq
        obtain ⟨m'', hclaim, heq⟩ := Option.bind_eq_some_iff.mp heq
        rw [ih heq, claim_rsIdx hclaim]

theorem foldl_rsIdx {α : Type*} {f : MemoryRecurrent p → α → MemoryRecurrent p}
    (h : ∀ m a, (f m a).rsIdx = m.rsIdx) (l : List α) (m : MemoryRecurrent p) :
    (l.foldl f m).rsIdx = m.rsIdx := by
  induction l generalizing m with
  | nil => rfl
  | cons a l ih => rw [List.foldl_cons, ih, h]

theorem updateOne_rsIdx (lo : ℕ) (m : MemoryRecurrent p) (x : (List ℕ × ℤ) × ℕ) :
    (updateOne lo m x).rsIdx = m.rsIdx := by
  rw [updateOne_eq, joinAll]
  exact foldl_rsIdx (f := fun m q => m.join q (lo + x.2)) (fun _ _ => rfl) _ _

theorem placeSets_rsIdx {sets : List (List ℕ × ℤ)} {ok : Bool}
    (heq : m.placeSets sets = some (m', ok)) : m'.rsIdx = m.rsIdx := by
  rw [placeSets] at heq
  obtain ⟨⟨m₂, lo, hi⟩, hfind, heq⟩ := Option.bind_eq_some_iff.mp heq
  obtain ⟨m₄, hstage, heq⟩ := Option.map_eq_some_iff.mp heq
  cases heq
  have hgather : ∀ m : MemoryRecurrent p, (m.gather lo.toNat (mainIds sets)).rsIdx = m.rsIdx :=
    foldl_rsIdx (fun m x => by
      rw [gatherOne]
      split_ifs <;> rfl) _
  have hupdate : ∀ m : MemoryRecurrent p, (m.updatePos lo.toNat sets).rsIdx = m.rsIdx :=
    foldl_rsIdx (updateOne_rsIdx lo.toNat) _
  have hstaged : m₄.rsIdx = ((m₂.gather lo.toNat (mainIds sets)).updatePos lo.toNat sets).rsIdx := by
    rw [stage] at hstage
    split_ifs at hstage
    cases hstage
    rfl
  calc m₄.rsIdx = _ := hstaged
    _ = (m₂.gather lo.toNat (mainIds sets)).rsIdx := hupdate _
    _ = m₂.rsIdx := hgather m₂
    _ = m.rsIdx := findCells_rsIdx hfind

theorem rehead_rsIdx (m : MemoryRecurrent p) (n : ℕ) : (m.rehead n).rsIdx = m.rsIdx := by
  unfold rehead
  split_ifs <;> rfl

theorem findSlot_rsIdx {sets : List (List ℤ × ℤ)} {ok : Bool}
    (heq : m.findSlot true sets = some (m', ok)) : m'.rsIdx = m.rsIdx := by
  have hclear : ((m.rehead sets.length).clearShared (sets.map Prod.fst)).1.rsIdx = m.rsIdx :=
    clearShared_rule (P := fun m' => m'.rsIdx = m.rsIdx)
      (fun m' q _ h => (release_rsIdx m' q).trans h) (rehead_rsIdx m _) _
  rw [findSlot_eq] at heq
  split_ifs at heq
  · rw [placeSets_rsIdx heq, hclear]
  · rw [← hclear, Option.some.inj heq]

theorem findSlot_aligned_iff {ub : Ubatch E} {ok : Bool} (h : m.Settled) (ha : m.Aligned)
    (hub : Formed ub) (heq : m.findSlot true (ubatchSets ub) = some (m', ok)) :
    m'.Aligned ↔ m.RollbackSafe (.findSlot ub) := by
  have hslot := findSlot_slotFound h hub.grouped heq
  have hrs := findSlot_rsIdx heq
  cases ok with
  | false =>
    have hout : ¬ ∀ x ∈ ubatchSets ub, ∀ id ∈ x.1, InRange p id := fun hall =>
      Bool.false_ne_true (hslot.ok_iff.mpr hall)
    refine iff_of_true ?_ fun hall => absurd hall hout
    rw [findSlot_eq] at heq
    split_ifs at heq with hok
    · have hclear := (clearShared_ok _ _).mp hok
      exact absurd (List.forall_mem_map.mp hclear) hout
    · have hm : _ = m' := congrArg Prod.fst (Option.some.inj heq)
      rw [← hm]
      refine (clearShared_rule (P := fun m => m.Settled ∧ m.Aligned)
        (fun m q hq h => ⟨release_settled h.1 hq, release_aligned h.1 h.2 hq⟩) ⟨?_, ?_⟩ _).2
      · exact h.of_cells (rehead_cells m _).1 (lt_of_le_of_lt (rehead_cells m _).2.2 h.head_lt)
      · exact ha.mono (fun c _ => by rw [ids, (rehead_cells m _).1, ids]) (rehead_rsIdx m _)
  | true =>
    have hall := hslot.ok_iff.mp rfl
    have hcell : ∀ k x, (ubatchSets ub)[k]? = some x → ∀ id ∈ x.1,
        id.toNat ∈ m'.ids (m'.head + k) := fun k x hx id hid => by
      rw [hslot.lists rfl k x hx, List.mem_toFinset]
      exact List.mem_map_of_mem hid
    have hlt : ∀ k x, (ubatchSets ub)[k]? = some x → x.1 ≠ [] → m'.head + k < p.size :=
      fun k x hx hne => by
        obtain ⟨id, hid⟩ := List.exists_mem_of_ne_nil _ hne
        have htail := hslot.in_order rfl k x hx id hid
        have hq := (hall x (List.mem_of_getElem? hx) id hid).toNat_lt
        obtain ⟨c, hc, hcell⟩ := (hslot.settled.owned.tail_range _ hq).resolve_left (by omega)
        omega
    constructor
    · intro hal _ x hx a hac b hbc
      obtain ⟨k, hk⟩ := List.mem_iff_getElem?.mp hx
      have hagree := hal _ (hlt k x hk (hub.grouped.ids_nonempty x hx)) _ (hcell k x hk a hac) _
        (hcell k x hk b hbc)
      rwa [hrs] at hagree
    · intro hsafe c hc a hac b hbc
      rw [hrs]
      have htail : ∀ x ∈ m'.ids c, x < p.size ∧ m'.tails x = c := fun x hx =>
        (hslot.settled.owned.mem_iff hc).mp hx
      by_cases hset : ∃ x ∈ ubatchSets ub, ∃ y ∈ m'.ids c, y ∈ x.1.map Int.toNat
      · -- the cell of a set lists that set
        obtain ⟨x, hx, y, hy, hyx⟩ := hset
        obtain ⟨k, hk⟩ := List.mem_iff_getElem?.mp hx
        obtain ⟨id, hid, rfl⟩ := List.mem_map.mp hyx
        have hck : c = m'.head + k := by
          have := (htail _ hy).2.symm.trans (hslot.in_order rfl k x hk id hid)
          omega
        rw [hck, hslot.lists rfl k x hk, List.mem_toFinset] at hac hbc
        obtain ⟨a', ha', rfl⟩ := List.mem_map.mp hac
        obtain ⟨b', hb', rfl⟩ := List.mem_map.mp hbc
        exact hsafe hall x hx a' ha' b' hb'
      · push Not at hset
        obtain ⟨d, hd⟩ := hslot.together rfl c
        have hbefore : ∀ x ∈ m'.ids c, m.tails x = d := fun x hx =>
          hd x (fun y hy => hset y hy x hx) (htail x hx).2
        obtain ⟨d', hd', hdd⟩ := (h.owned.tail_range a (htail a hac).1).resolve_left
          (by have := hbefore a hac; omega)
        have hd : d < p.size := by have := hbefore a hac; omega
        exact ha d hd a ((h.owned.mem_iff hd).mpr ⟨(htail a hac).1, hbefore a hac⟩) b
          ((h.owned.mem_iff hd).mpr ⟨(htail b hbc).1, hbefore b hbc⟩)

/-! ## Runs -/

/-- The calls that edit sequences and place ubatches. -/
def RecurrentCall.Edits : RecurrentCall E → Prop
  | .findSlot ub => MemoryRecurrent.Formed ub
  | .stateRead _ _ => False
  | _ => True

theorem RecurrentCall.Edits.formed {c : RecurrentCall E} (h : c.Edits) : c.Formed := by
  cases c with
  | findSlot ub => exact h
  | _ => trivial

theorem exec_aligned_iff {c : RecurrentCall E} (h : m.Settled) (ha : m.Aligned) (hc : c.Edits)
    (heq : m.exec c = some m') : m'.Aligned ↔ m.RollbackSafe c := by
  cases c with
  | findSlot ub =>
    obtain ⟨⟨m'', ok⟩, hfind, rfl⟩ := Option.map_eq_some_iff.mp heq
    rw [hc.equalSeqs] at hfind
    exact findSlot_aligned_iff h ha hc hfind
  | seqRm seqId p0 p1 =>
    cases heq
    exact seqRm_aligned_iff h ha seqId p0 p1
  | seqCp src dst =>
    cases heq
    exact seqCp_aligned_iff h ha src dst
  | seqKeep seqId =>
    cases heq
    refine iff_of_true (ha.mono (fun c hc => ?_) seqKeep_rsIdx) trivial
    rw [seqKeep_ids hc]
    exact Finset.filter_subset _ _
  | clear =>
    cases heq
    refine iff_of_true (fun c hc q hq => ?_) trivial
    rw [clear_ids hc] at hq
    exact absurd hq (Finset.notMem_empty q)
  | stateRead io seqId => exact hc.elim

theorem init_aligned (p : RecurrentParams) : (init p).Aligned :=
  fun _ _ _ hq => absurd hq (Finset.notMem_empty _)

/-- The rollback indices of the sequences of a cell agree all along a run exactly when every call
finds them so that it keeps them in agreement. -/
theorem aligned_along_iff (p : RecurrentParams) (calls : List (RecurrentCall E))
    (hcalls : ∀ c ∈ calls, c.Edits) :
    Along exec (fun m => m.Aligned ∧ m.RowsDefined) (init p) calls ↔
      Meets exec RollbackSafe (init p) calls := by
  have hrows : ∀ m : MemoryRecurrent p, m.Settled → (m.Aligned ∧ m.RowsDefined ↔ m.Aligned) :=
    fun m h => and_iff_left_of_imp fun ha => ha.rowsDefined h
  refine along_iff_meets_among (fun m c m' hc h heq => exec_settled h hc.formed heq)
    (fun m c m' hc h hm heq => ?_) hcalls (init_settled p)
    ((hrows _ (init_settled p)).mpr (init_aligned p))
  rw [hrows m' (exec_settled h hc.formed heq)]
  exact exec_aligned_iff h hm.1 hc heq

/-- Two sequences, and snapshots to roll back by four tokens. -/
def rollbackSeqs : RecurrentParams := ⟨2, 4, false, Nat.two_pos, RecurrentParams.two_le_max⟩

theorem aligned_along_copies :
    Along exec (fun m => m.Aligned ∧ m.RowsDefined) (init rollbackSeqs)
        [.findSlot (tokenUbatch [[0]] [4]), .seqCp 0 1, .seqKeep 1] ↔
      Meets exec RollbackSafe (init rollbackSeqs)
        [.findSlot (tokenUbatch [[0]] [4]), .seqCp 0 1, .seqKeep 1] :=
  aligned_along_iff rollbackSeqs _ fun c hc => by
    fin_cases hc
    exacts [⟨rfl, by decide, by decide, by decide⟩, trivial, trivial]

/-- A sequence that was rolled back by two tokens is copied: the copy shares its cell without
sharing its index. -/
theorem copy_misses_rollback : ¬ ∀ (p : RecurrentParams) (calls : List (RecurrentCall ℕ)),
    (∀ c ∈ calls, c.Edits) →
      Along exec (fun m => m.Aligned ∧ m.RowsDefined) (init p) calls := by
  intro h
  have hrun := h rollbackSeqs
    [.findSlot (tokenUbatch [[0]] [4]), .seqRm 0 3 (-1), .seqCp 0 1] (fun c hc => by
      fin_cases hc
      exacts [⟨rfl, by decide, by decide, by decide⟩, trivial, trivial])
  obtain ⟨m, hm, hfirst, hsecond, hdiffer⟩ : ∃ m : MemoryRecurrent rollbackSeqs,
      run exec (init rollbackSeqs) [.findSlot (tokenUbatch [[0]] [4]), .seqRm 0 3 (-1),
        .seqCp 0 1] = some m ∧ 0 ∈ m.ids 0 ∧ 1 ∈ m.ids 0 ∧ m.rsIdx 0 ≠ m.rsIdx 1 := by
    refine ⟨_, rfl, ?_, ?_, ?_⟩ <;> decide
  exact hdiffer ((hrun.final hm).1 0 (by decide) 0 hfirst 1 hsecond)

end MemoryRecurrent
end RocmFpx
