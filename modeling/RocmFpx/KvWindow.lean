import RocmFpx.KvRestore
import RocmFpx.KvPrepare

/-!
Reuse of cells in a sliding-window cache. For one sequence `apply_ubatch` cuts off all
positions up to the largest overwritten one and appends the positions of its own tokens;
the results on windows are read off this description.
-/

namespace RocmFpx
namespace KvCache

variable {E : Type*} (p : KvParams)

/-- The positions at which the cache holds a token of sequence `s`. -/
def heldAt (c : KvCache) (s : ℕ) : Set ℤ :=
  {q | ∃ i, s ∈ (c.cellsOf p s).seq i ∧ (c.cellsOf p s).pos i = q}

/-- Every position from `seq_pos_min` to `seq_pos_max` is present. -/
def Contiguous (c : KvCache) (s : ℕ) : Prop :=
  ∀ q, 0 ≤ q → c.seqPosMin p s ≤ q → q ≤ c.seqPosMax p s → q ∈ heldAt p c s

/-- The tokens of each sequence go on at `seq_pos_max + 1` and leave nothing out; a
position may have several tokens. -/
def Continues (c : KvCache) (ub : Ubatch E) : Prop :=
  ∀ i < ub.nTokens, ∀ s ∈ ub.seqIdAt i, c.seqPosMax p s < ub.posAt i ∧
    ∀ q, c.seqPosMax p s < q → q ≤ ub.posAt i → ∃ j < ub.nTokens, s ∈ ub.seqIdAt j ∧ ub.posAt j = q

inductive WindowStep (c : KvCache) (ub : Ubatch E) : KvCache → Prop
  | mk (sinfo : SlotInfo) (hfit : Fits p ub) (hnext : Continues p c ub)
      (hfind : findSlot p c ub = some (some sinfo)) : WindowStep c ub (applyUbatch p c sinfo ub)

inductive WindowRun : KvCache → List (Ubatch E) → KvCache → Prop
  | nil (c : KvCache) : WindowRun c [] c
  | cons {c c₁ c₂ : KvCache} {ub : Ubatch E} {ubs : List (Ubatch E)}
      (hstep : WindowStep p c ub c₁) (hrest : WindowRun c₁ ubs c₂) : WindowRun c (ub :: ubs) c₂

variable {p}

/-! ## The positions of one sequence -/

section

variable {c : KvCache} (h : CacheInv p c)
include h

theorem mem_heldAt_iff {s : ℕ} {q : ℤ} :
    q ∈ heldAt p c s ↔ ∃ x, s ∈ (c.cellAt x).seq ∧ (c.cellAt x).pos = q := by
  constructor
  · rintro ⟨i, hs, hpos⟩
    exact ⟨(p.seqToStream s, i), hs, hpos⟩
  · rintro ⟨⟨t, i⟩, hs, hpos⟩
    have ht : p.seqToStream s = t := ((h.cells t i).home s hs).2
    refine ⟨i, ?_, ?_⟩ <;> rw [cellsOf, ht]
    · exact hs
    · exact hpos

theorem heldAt_nonneg {s : ℕ} {q : ℤ} (hq : q ∈ heldAt p c s) : 0 ≤ q := by
  obtain ⟨i, hs, rfl⟩ := hq
  exact h.pos_nonneg ((h.coherent _).pos_of_seq hs)

theorem seqPosMin_le_held {s : ℕ} {q : ℤ} (hq : q ∈ heldAt p c s) : c.seqPosMin p s ≤ q := by
  obtain ⟨i, hs, rfl⟩ := hq
  exact (h.coherent _).seqPosMin_le hs

theorem held_le_seqPosMax {s : ℕ} {q : ℤ} (hq : q ∈ heldAt p c s) : q ≤ c.seqPosMax p s := by
  obtain ⟨i, hs, rfl⟩ := hq
  exact (h.coherent _).le_seqPosMax hs

/-- The bounds are attained, or the sequence has no cell. -/
theorem held_bounds (s : ℕ) : c.seqPosMax p s = -1 ∨
    c.seqPosMin p s ∈ heldAt p c s ∧ c.seqPosMax p s ∈ heldAt p c s := by
  by_cases hany : ∃ i, s ∈ (c.cellsOf p s).seq i
  · obtain ⟨i, hs⟩ := hany
    exact .inr ⟨(h.coherent _).seqPosMin_mem hs, (h.coherent _).seqPosMax_mem hs⟩
  · exact .inl ((h.coherent _).seqPosMax_of_absent fun i hs => hany ⟨i, hs⟩)

end

/-! ## One step -/

theorem SlotOk.token_placed {c : KvCache} {ub : Ubatch E} {sinfo : SlotInfo}
    (h : SlotOk (p := p) c ub sinfo) {i : ℕ} (hi : i < ub.nTokens) :
    ∃ t idx, (t, idx, i) ∈ sinfo.placements := by
  have hsize := h.size_pos
  have hs : i / sinfo.size < sinfo.slots.length := by
    rw [Nat.div_lt_iff_lt_mul hsize, h.total]
    exact hi
  have hslot := List.getElem?_eq_getElem hs
  have hii : i % sinfo.size < (sinfo.slots[i / sinfo.size]).2.length := by
    rw [h.length _ (List.getElem_mem hs)]
    exact Nat.mod_lt i hsize
  refine ⟨(sinfo.slots[i / sinfo.size]).1, (sinfo.slots[i / sinfo.size]).2[i % sinfo.size], ?_⟩
  rw [mem_placements]
  exact ⟨_, _, _, hslot, List.getElem?_eq_getElem hii, (Nat.div_add_mod' i sinfo.size).symm⟩

section

variable {c : KvCache} (h : CacheInv p c) {ub : Ubatch E} (hfit : Fits p ub) {sinfo : SlotInfo}
  (hok : SlotOk (p := p) c ub sinfo)
include h hok

theorem overwritten_cases {t idx i : ℕ} (hmem : (t, idx, i) ∈ sinfo.placements) {s : ℕ}
    (hs : s ∈ (c.cellAt (t, idx)).seq) :
    Overwrites c sinfo.placements s (c.cellAt (t, idx)).pos ∧
      isMaskedSwa p.nSwa p.swaType (c.cellAt (t, idx)).pos (c.seqPosMax p s + 1) = true := by
  have hpos : (c.cellAt (t, idx)).pos ≠ -1 := (h.coherent t).pos_of_seq hs
  rcases canUse_cases (hok.place hmem).usable with hempty | ⟨s', hseq, howner, hmask⟩
  · exact absurd hempty hpos
  · have hss : s = s' := by
      have : s ∈ (c.vCells t).seq idx := hs
      rwa [hseq, Finset.mem_singleton] at this
    subst hss
    have ht : p.seqToStream s = t := ((h.cells t idx).home s hs).2
    refine ⟨⟨_, hmem, hpos, howner, rfl⟩, ?_⟩
    rw [seqPosMax, cellsOf, ht]
    exact hmask

theorem masked_of_le_rm {s : ℕ} {q q' : ℤ} (hrm : (placeAll p c sinfo ub).seqPosMaxRm s ≠ -1)
    (hq : q ≤ (placeAll p c sinfo ub).seqPosMaxRm s) (hq' : c.seqPosMax p s < q') :
    isMaskedSwa p.nSwa p.swaType q q' = true := by
  rcases (placeAll_rm ub hok.keys_nodup ⟨c, fun _ => -1⟩ s).2.2 with heq | hover
  · exact absurd heq hrm
  · change Overwrites c sinfo.placements s ((placeAll p c sinfo ub).seqPosMaxRm s) at hover
    obtain ⟨⟨t, idx, i⟩, hmem, -, howner, hpos⟩ := hover
    have hs : s ∈ (c.cellAt (t, idx)).seq := KvCell.owner_mem howner
    have hmask := (overwritten_cases h hok hmem hs).2
    have hle := held_le_seqPosMax h ((mem_heldAt_iff h).mpr ⟨(t, idx), hs, rfl⟩)
    simp only [placeKey] at hpos
    rw [hpos] at hmask hle
    exact isMaskedSwa_mono hq (by omega) (Int.add_one_le_of_lt hq') hmask

omit h in
theorem le_rm_of_overwritten {s : ℕ} {q : ℤ} (hover : Overwrites c sinfo.placements s q) :
    q ≤ (placeAll p c sinfo ub).seqPosMaxRm s :=
  (placeAll_rm ub hok.keys_nodup ⟨c, fun _ => -1⟩ s).2.1 q hover

include hfit

theorem applyUbatch_keeps {x : ℕ × ℕ} {s : ℕ} (hs : s ∈ (c.cellAt x).seq)
    (hkeep : ¬((placeAll p c sinfo ub).seqPosMaxRm s ≠ -1 ∧
      (c.cellAt x).pos ≤ (placeAll p c sinfo ub).seqPosMaxRm s)) :
    s ∈ ((applyUbatch p c sinfo ub).cellAt x).seq ∧
      ((applyUbatch p c sinfo ub).cellAt x).pos = (c.cellAt x).pos := by
  have hpos : 0 ≤ (c.cellAt x).pos := h.pos_nonneg ((h.coherent x.1).pos_of_seq hs)
  have hx : x ∉ sinfo.placements.map placeKey := by
    intro hx
    obtain ⟨⟨t, idx, i⟩, hmem, rfl⟩ := List.mem_map.mp hx
    have hle := le_rm_of_overwritten hok (overwritten_cases h hok hmem hs).1
    change 0 ≤ (c.cellAt (t, idx)).pos at hpos
    exact hkeep ⟨by omega, hle⟩
  have hin : s ∈ ((c.cellAt x).dropSeqs
      (purged (placeAll p c sinfo ub).seqPosMaxRm (c.cellAt x).pos)).seq := by
    rw [KvCell.dropSeqs_seq, Finset.mem_sdiff]
    exact ⟨hs, fun hbad => hkeep (mem_purged.1 hbad).2⟩
  rw [applyUbatch_cell_of_notMem h hfit hok hx]
  exact ⟨hin, by rw [KvCell.dropSeqs_of_mem hin]⟩

theorem applyUbatch_origin {x : ℕ × ℕ} {s : ℕ} (hs : s ∈ ((applyUbatch p c sinfo ub).cellAt x).seq) :
    (s ∈ (c.cellAt x).seq ∧ ((applyUbatch p c sinfo ub).cellAt x).pos = (c.cellAt x).pos ∧
        ¬((placeAll p c sinfo ub).seqPosMaxRm s ≠ -1 ∧
          (c.cellAt x).pos ≤ (placeAll p c sinfo ub).seqPosMaxRm s)) ∨
      ∃ i < ub.nTokens, s ∈ ub.seqIdAt i ∧
        ((applyUbatch p c sinfo ub).cellAt x).pos = ub.posAt i := by
  rw [applyUbatch_cellAt h hfit hok] at hs ⊢
  rw [congrArg KvCell.pos (KvCell.dropSeqs_of_mem hs)]
  rw [KvCell.dropSeqs_seq, Finset.mem_sdiff] at hs
  obtain ⟨hs, hkept⟩ := hs
  by_cases hx : x ∈ sinfo.placements.map placeKey
  · right
    obtain ⟨⟨t, idx, i⟩, hmem, rfl⟩ := List.mem_map.mp hx
    change s ∈ ((placeAll p c sinfo ub).cache.cellAt (t, idx)).seq at hs
    change ∃ i < ub.nTokens, s ∈ ub.seqIdAt i ∧
      ((placeAll p c sinfo ub).cache.cellAt (t, idx)).pos = ub.posAt i
    rw [placeAll_cell_of_mem hok hmem] at hs ⊢
    refine ⟨i, (hok.place hmem).tok_lt, ?_, rfl⟩
    have hblank : (if (c.cellAt (t, idx)).pos = -1 then c.cellAt (t, idx) else .empty).seq = ∅ := by
      split_ifs with hpos
      · exact (h.coherent t).empty_seq idx hpos
      · rfl
    simpa [KvCell.place, KvCell.fill, hblank] using hs
  · left
    rw [placeAll_cell_of_notMem ub hx] at hs hkept ⊢
    refine ⟨hs, rfl, fun hbad => hkept (mem_purged.2 ⟨?_, hbad⟩)⟩
    have hlt := ((h.cells x.1 x.2).home s hs).1
    have := p.seqToStreamSize_le
    omega

theorem applyUbatch_holds_new (hnext : Continues p c ub) {i s : ℕ} (hi : i < ub.nTokens)
    (hs : s ∈ ub.seqIdAt i) : ub.posAt i ∈ heldAt p (applyUbatch p c sinfo ub) s := by
  obtain ⟨t, idx, hmem⟩ := hok.token_placed hi
  have hplaced := placeAll_cell_of_mem hok hmem
  refine (mem_heldAt_iff (applyUbatch_inv h hfit hok)).mpr ⟨(t, idx), ?_⟩
  have hin : s ∈ (((placeAll p c sinfo ub).cache.cellAt (t, idx)).dropSeqs (purged
      (placeAll p c sinfo ub).seqPosMaxRm ((placeAll p c sinfo ub).cache.cellAt (t, idx)).pos)).seq := by
    rw [hplaced, KvCell.dropSeqs_seq, Finset.mem_sdiff]
    refine ⟨Finset.mem_union_right _ (List.mem_toFinset.mpr hs), fun hbad => ?_⟩
    -- the purge stays at or below positions the sequence had before
    obtain ⟨-, hrm, hle⟩ := mem_purged.1 hbad
    rcases (placeAll_rm ub hok.keys_nodup ⟨c, fun _ => -1⟩ s).2.2 with heq | hover
    · exact hrm heq
    · obtain ⟨u, -, -, howner, hpos⟩ := hover
      have hmax := held_le_seqPosMax h
        ((mem_heldAt_iff h).mpr ⟨placeKey u, KvCell.owner_mem howner, hpos⟩)
      have := (hnext i hi s hs).1
      change ub.posAt i ≤ _ at hle
      change (placeAll p c sinfo ub).seqPosMaxRm s ≤ _ at hmax
      omega
  rw [applyUbatch_cellAt h hfit hok]
  exact ⟨hin, (congrArg KvCell.pos (KvCell.dropSeqs_of_mem hin)).trans (congrArg KvCell.pos hplaced)⟩

/-- One sequence after `apply_ubatch`: cut off from below, continued above. -/
theorem mem_heldAt_applyUbatch (hnext : Continues p c ub) (s : ℕ) (q : ℤ) :
    q ∈ heldAt p (applyUbatch p c sinfo ub) s ↔
      (q ∈ heldAt p c s ∧ ¬((placeAll p c sinfo ub).seqPosMaxRm s ≠ -1 ∧
        q ≤ (placeAll p c sinfo ub).seqPosMaxRm s)) ∨
      ∃ i < ub.nTokens, s ∈ ub.seqIdAt i ∧ ub.posAt i = q := by
  constructor
  · intro hq
    obtain ⟨x, hs, rfl⟩ := (mem_heldAt_iff (applyUbatch_inv h hfit hok)).mp hq
    rcases applyUbatch_origin h hfit hok hs with ⟨hs, hpos, hkept⟩ | ⟨i, hi, hs, hpos⟩
    · rw [hpos]
      exact .inl ⟨(mem_heldAt_iff h).mpr ⟨x, hs, rfl⟩, hkept⟩
    · exact .inr ⟨i, hi, hs, hpos.symm⟩
  · rintro (⟨hq, hkept⟩ | ⟨i, hi, hs, rfl⟩)
    · obtain ⟨x, hs, rfl⟩ := (mem_heldAt_iff h).mp hq
      exact (mem_heldAt_iff (applyUbatch_inv h hfit hok)).mpr
        ⟨x, applyUbatch_keeps h hfit hok hs hkept⟩
    · exact applyUbatch_holds_new h hfit hok hnext hi hs

theorem applyUbatch_contiguous (hnext : Continues p c ub) {s : ℕ} (hc : Contiguous p c s) :
    Contiguous p (applyUbatch p c sinfo ub) s := by
  have hinv := applyUbatch_inv h hfit hok
  intro q h0 hmin hmax
  rcases held_bounds hinv s with hnone | ⟨hlow, hhigh⟩
  · omega
  rw [mem_heldAt_applyUbatch h hfit hok hnext] at hlow hhigh ⊢
  by_cases hq : c.seqPosMax p s < q
  · right
    rcases hhigh with ⟨hold, -⟩ | ⟨i, hi, hs, hpos⟩
    · have := held_le_seqPosMax h hold
      omega
    · exact (hnext i hi s hs).2 q hq (by omega)
  · left
    rcases hlow with ⟨hold, hkept⟩ | ⟨i, hi, hs, hpos⟩
    · have := seqPosMin_le_held h hold
      exact ⟨hc q h0 (by omega) (by omega), fun hbad => hkept ⟨hbad.1, by omega⟩⟩
    · have := (hnext i hi s hs).1
      omega

end

/-! ## Runs -/

theorem WindowStep.inv {c c' : KvCache} {ub : Ubatch E} (h : CacheInv p c)
    (hstep : WindowStep p c ub c') : CacheInv p c' := by
  obtain ⟨sinfo, hfit, -, hfind⟩ := hstep
  exact applyUbatch_inv h hfit (findSlot_sound h hfit hfind)

theorem WindowRun.inv {c c' : KvCache} {ubs : List (Ubatch E)} (h : CacheInv p c)
    (hrun : WindowRun p c ubs c') : CacheInv p c' := by
  induction hrun with
  | nil => exact h
  | cons hstep _ ih => exact ih (hstep.inv h)

/-- A position not after the end of `s` is held, or nothing to come will see it. -/
def HeldOrMasked (p : KvParams) (c : KvCache) (s : ℕ) (q : ℤ) : Prop :=
  q ≤ c.seqPosMax p s → q ∈ heldAt p c s ∨
    ∀ q', c.seqPosMax p s < q' → isMaskedSwa p.nSwa p.swaType q q' = true

theorem WindowStep.held_or_masked {c c' : KvCache} {ub : Ubatch E} (h : CacheInv p c)
    (hstep : WindowStep p c ub c') {s : ℕ} {q : ℤ} (hq : q ∈ heldAt p c s) :
    q ∈ heldAt p c' s ∨ ∀ q', c.seqPosMax p s < q' → isMaskedSwa p.nSwa p.swaType q q' = true := by
  obtain ⟨sinfo, hfit, hnext, hfind⟩ := hstep
  have hok := findSlot_sound h hfit hfind
  by_cases hkept : (placeAll p c sinfo ub).seqPosMaxRm s ≠ -1 ∧
      q ≤ (placeAll p c sinfo ub).seqPosMaxRm s
  · exact .inr fun q' hq' => masked_of_le_rm h hok hkept.1 hkept.2 hq'
  · exact .inl ((mem_heldAt_applyUbatch h hfit hok hnext s q).mpr (.inl ⟨hq, hkept⟩))

theorem WindowStep.seqPosMax_le {c c' : KvCache} {ub : Ubatch E} (h : CacheInv p c)
    (hstep : WindowStep p c ub c') (s : ℕ) :
    c'.seqPosMax p s = -1 ∨ c.seqPosMax p s ≤ c'.seqPosMax p s := by
  have hinv := hstep.inv h
  obtain ⟨sinfo, hfit, hnext, hfind⟩ := hstep
  have hok := findSlot_sound h hfit hfind
  have hmem := mem_heldAt_applyUbatch h hfit hok hnext s
  rcases held_bounds hinv s with hnone | ⟨-, hhigh⟩
  · exact .inl hnone
  right
  rcases (hmem _).mp hhigh with ⟨hold, hkept⟩ | ⟨i, hi, hs, hpos⟩
  · rcases held_bounds h s with hnone | ⟨-, hmax⟩
    · have := heldAt_nonneg hinv hhigh
      omega
    · refine held_le_seqPosMax hinv ((hmem _).mpr (.inl ⟨hmax, fun hbad => hkept ⟨hbad.1, ?_⟩⟩))
      exact (held_le_seqPosMax h hold).trans hbad.2
  · have := (hnext i hi s hs).1
    omega

theorem WindowStep.heldOrMasked {c c' : KvCache} {ub : Ubatch E} (h : CacheInv p c)
    (hstep : WindowStep p c ub c') {s : ℕ} {q : ℤ} (h0 : 0 ≤ q) (hq : HeldOrMasked p c s q) :
    HeldOrMasked p c' s q := by
  have hinv := hstep.inv h
  intro hle
  have hback : c.seqPosMax p s ≤ c'.seqPosMax p s := by
    rcases hstep.seqPosMax_le h s with hnone | hback
    · omega
    · exact hback
  have hlater : (∀ q', c.seqPosMax p s < q' → isMaskedSwa p.nSwa p.swaType q q' = true) →
      ∀ q', c'.seqPosMax p s < q' → isMaskedSwa p.nSwa p.swaType q q' = true :=
    fun hmask q' hq' => hmask q' (by omega)
  by_cases hold : q ≤ c.seqPosMax p s
  · rcases hq hold with hheld | hmask
    · exact (hstep.held_or_masked h hheld).imp_right hlater
    · exact .inr (hlater hmask)
  · -- beyond the old end, so among the new tokens
    left
    obtain ⟨sinfo, hfit, hnext, hfind⟩ := hstep
    have hok := findSlot_sound h hfit hfind
    rcases held_bounds hinv s with hnone | ⟨-, hhigh⟩
    · omega
    rcases (mem_heldAt_applyUbatch h hfit hok hnext s _).mp hhigh with ⟨hheld, -⟩ | ⟨i, hi, hs, hpos⟩
    · have := held_le_seqPosMax h hheld
      omega
    · exact (mem_heldAt_applyUbatch h hfit hok hnext s q).mpr
        (.inr ((hnext i hi s hs).2 q (by omega) (by omega)))

theorem WindowRun.heldOrMasked {c c' : KvCache} {ubs : List (Ubatch E)} (h : CacheInv p c)
    (hrun : WindowRun p c ubs c') {s : ℕ} {q : ℤ} (h0 : 0 ≤ q) (hq : HeldOrMasked p c s q) :
    HeldOrMasked p c' s q := by
  induction hrun with
  | nil => exact hq
  | cons hstep _ ih => exact ih (hstep.inv h) (hstep.heldOrMasked h h0 hq)

theorem WindowStep.visible {c c' : KvCache} {ub : Ubatch E} (h : CacheInv p c)
    (hstep : WindowStep p c ub c') {s : ℕ} {q : ℤ} (hq : HeldOrMasked p c s q) {i : ℕ}
    (hi : i < ub.nTokens) (hs : s ∈ ub.seqIdAt i) (hle : q ≤ ub.posAt i) :
    q ∈ heldAt p c' s ∨ isMaskedSwa p.nSwa p.swaType q (ub.posAt i) = true := by
  have hnext : Continues p c ub := by
    obtain ⟨-, -, hnext, -⟩ := hstep
    exact hnext
  have hafter := (hnext i hi s hs).1
  by_cases hold : q ≤ c.seqPosMax p s
  · rcases hq hold with hheld | hmask
    · exact (hstep.held_or_masked h hheld).imp_right fun hmask => hmask _ hafter
    · exact .inr (hmask _ hafter)
  · left
    obtain ⟨sinfo, hfit, -, hfind⟩ := hstep
    exact (mem_heldAt_applyUbatch h hfit (findSlot_sound h hfit hfind) hnext s q).mpr
      (.inr ((hnext i hi s hs).2 q (by omega) hle))

/-- One ubatch removes only what no later token of the sequence sees and opens no gap;
over a run, whatever was held at some time is still there for every token placed later,
unless the window hides it from that token. -/
theorem window_keeps_visible {c : KvCache} (h : Reachable E p c) :
    (∀ (ub : Ubatch E) (c' : KvCache), WindowStep p c ub c' →
      (∀ x s, s ∈ (c.cellAt x).seq →
        (s ∈ (c'.cellAt x).seq ∧ (c'.cellAt x).pos = (c.cellAt x).pos) ∨
          ∀ q, c.seqPosMax p s < q →
            isMaskedSwa p.nSwa p.swaType (c.cellAt x).pos q = true) ∧
      ((∀ s, Contiguous p c s) → ∀ s, Contiguous p c' s)) ∧
    ∀ (us vs : List (Ubatch E)) (ub : Ubatch E) (c₁ c₂ c₃ : KvCache), WindowRun p c us c₁ →
      WindowRun p c₁ vs c₂ → WindowStep p c₂ ub c₃ → ∀ s q, q ∈ heldAt p c₁ s →
      ∀ i < ub.nTokens, s ∈ ub.seqIdAt i → q ≤ ub.posAt i →
        q ∈ heldAt p c₃ s ∨ isMaskedSwa p.nSwa p.swaType q (ub.posAt i) = true := by
  have hinv := h.inv
  constructor
  · rintro ub c' ⟨sinfo, hfit, hnext, hfind⟩
    have hok := findSlot_sound hinv hfit hfind
    refine ⟨fun x s hs => ?_, fun hc s => applyUbatch_contiguous hinv hfit hok hnext (hc s)⟩
    by_cases hkept : (placeAll p c sinfo ub).seqPosMaxRm s ≠ -1 ∧
        (c.cellAt x).pos ≤ (placeAll p c sinfo ub).seqPosMaxRm s
    · exact .inr fun q hq => masked_of_le_rm hinv hok hkept.1 hkept.2 hq
    · exact .inl (applyUbatch_keeps hinv hfit hok hs hkept)
  · intro us vs ub c₁ c₂ c₃ hus hvs hstep s q hq i hi hs hle
    have hinv₁ := hus.inv hinv
    have hq₂ := hvs.heldOrMasked hinv₁ (heldAt_nonneg hinv₁ hq) fun _ => .inl hq
    exact hstep.visible (hvs.inv hinv₁) hq₂ hi hs hle

/-! ## A window of one token in a cache of one cell -/

def oneCell : KvParams where
  nSeqMax := 1
  nStream := 1
  kvSize := 1
  nSwa := 1
  swaType := .standard
  nPosPerEmbd := 1
  pleNHeads := 0
  pleImageTokenId := 0
  pleEosTokenId := 0
  archStep35 := false
  hasRope := true
  stream_cases := KvParams.oneStream_cases
  seqMax_pos := Nat.one_pos
  seqMax_le := KvParams.one_le_llamaMaxSeq

/-- The cell holds the token at position 0. -/
def cellUsed : KvCache := applyUbatch oneCell (init oneCell) ⟨0, 0, [(0, [0])]⟩ (oneToken 0 0)

theorem cellUsed_reachable : Reachable Unit oneCell cellUsed := by
  have hfit : Fits oneCell (oneToken 0 0) := oneToken_fits (by decide) (by decide)
  have hfind : findSlot oneCell (init oneCell) (oneToken 0 0) =
      some (some ⟨0, 0, [(0, [0])]⟩) := by decide
  exact .apply .init _ hfit _ (findSlot_sound init_inv hfit hfind)

theorem cellUsed_step : WindowStep oneCell cellUsed (oneToken 0 1)
    (applyUbatch oneCell cellUsed ⟨0, 0, [(0, [0])]⟩ (oneToken 0 1)) := by
  refine .mk _ (oneToken_fits (by decide) (by decide)) (fun i hi s hs => ?_) (by decide +kernel)
  obtain rfl : i = 0 := Nat.lt_one_iff.mp hi
  obtain rfl : s = 0 := by simpa [Ubatch.seqIdAt, oneToken] using hs
  have hmax : cellUsed.seqPosMax oneCell 0 = 0 := by decide +kernel
  rw [hmax]
  refine ⟨by decide, fun q hq hle => ⟨0, one_pos, hs, ?_⟩⟩
  change q ≤ 1 at hle
  change (1 : ℤ) = q
  omega

/-- What the token at 1 finds of the position it overwrote, and of itself. -/
theorem window_keeps_visible_one :
    (∀ x s, s ∈ (cellUsed.cellAt x).seq →
      (s ∈ ((applyUbatch oneCell cellUsed ⟨0, 0, [(0, [0])]⟩ (oneToken 0 1)).cellAt x).seq ∧
        ((applyUbatch oneCell cellUsed ⟨0, 0, [(0, [0])]⟩ (oneToken 0 1)).cellAt x).pos =
          (cellUsed.cellAt x).pos) ∨
        ∀ q, cellUsed.seqPosMax oneCell s < q →
          isMaskedSwa 1 .standard (cellUsed.cellAt x).pos q = true) ∧
    ∀ q ∈ heldAt oneCell cellUsed 0, q ≤ 1 →
      q ∈ heldAt oneCell (applyUbatch oneCell cellUsed ⟨0, 0, [(0, [0])]⟩ (oneToken 0 1)) 0 ∨
        isMaskedSwa 1 .standard q 1 = true := by
  have hall := window_keeps_visible cellUsed_reachable
  refine ⟨(hall.1 _ _ cellUsed_step).1, fun q hq hle => ?_⟩
  exact hall.2 [] [] _ _ _ _ (.nil _) (.nil _) cellUsed_step 0 q hq 0 one_pos (by decide) hle

end KvCache
end RocmFpx
