import RocmFpx.RecurrentRollback

/-!
What `seq_rm` promises its callers: a removal that succeeds leaves nothing of what was to be
removed, one that is refused changes nothing, and removing every sequence at once cannot fail.
-/

namespace RocmFpx
namespace MemoryRecurrent

open GuardedRuns

variable {E : Type*} {p : RecurrentParams} {m : MemoryRecurrent p} {q c : ℕ}

/-- The positions that a call covers: a negative `p0` stands for 0, a negative `p1` for no end. -/
def Covers (p0 p1 pos : ℤ) : Prop := max p0 0 ≤ pos ∧ (p1 < 0 ∨ pos < p1)

/-- An entry of a sequence in a cell; a negative id matches any sequence. -/
def Holds (m : MemoryRecurrent p) (seqId : ℤ) (c : ℕ) : Prop :=
  if seqId < 0 then (m.ids c).Nonempty else seqId.toNat ∈ m.ids c

structure Removes (m : MemoryRecurrent p) (seqId p0 p1 : ℤ) : Prop where
  leaves_none : (m.seqRm seqId p0 p1).2 = true → ∀ c < p.size,
    (m.seqRm seqId p0 p1).1.Holds seqId c →
      ¬ Covers p0 p1 ((m.seqRm seqId p0 p1).1.cells c).pos
  unchanged : (m.seqRm seqId p0 p1).2 = false → (m.seqRm seqId p0 p1).1 = m
  empties : seqId = -1 → ForgetsAll p0 p1 →
    (m.seqRm seqId p0 p1).2 = true ∧ ∀ c < p.size, (m.seqRm seqId p0 p1).1.ids c = ∅

/-- A cell of the sequence at the last position, which is before no `p1`. -/
def AtLast (m : MemoryRecurrent p) (q : ℕ) (p0 : ℤ) : Prop :=
  ∃ c < p.size, q ∈ m.ids c ∧ posMax ≤ (m.cells c).pos ∧ p0 ≤ (m.cells c).pos

/-- One sequence is named and, when the range has no end, it is not at the last position. -/
def Removable (m : MemoryRecurrent p) (seqId p0 p1 : ℤ) : Prop :=
  ¬(seqId = -1 ∧ ForgetsAll p0 p1) ∧
    ¬(InRange p seqId ∧ p1 < 0 ∧ m.AtLast seqId.toNat p0)

/-! ## One call -/

theorem seqRm_refused {seqId : ℤ} (h : ¬ InRange p seqId) (p0 p1 : ℤ) :
    m.seqRm seqId p0 p1 = (m, false) := by
  have hsize := p.size_eq
  rw [InRange] at h
  exact if_pos (by omega)

theorem rmWhole_pos {p0 p1 : ℤ} (hc : c < p.size)
    (hout : ¬(p0 ≤ (m.cells c).pos ∧ (m.cells c).pos < p1)) :
    ((m.rmWhole q p0 p1).cells c).pos = (m.cells c).pos := by
  obtain ⟨-, hpos, -⟩ := untail_cell m q p0 p1 c
  rw [rmWhole, lowerHead_cells, rmLoop_cells hc, rmEffect, hpos,
    if_neg fun h => hout ⟨h.1, h.2.1⟩, hpos]

/-- After a removal the sequence is in the cells out of the range only. -/
theorem mem_rmWhole {p0 p1 : ℤ} (hc : c < p.size) :
    q ∈ (m.rmWhole q p0 p1).ids c ↔
      q ∈ m.ids c ∧ ¬(p0 ≤ (m.cells c).pos ∧ (m.cells c).pos < p1) := by
  rw [rmWhole_ids hc]
  split_ifs with hin
  · exact iff_of_false (Finset.notMem_erase q _) fun h => h.2 hin
  · exact (and_iff_left hin).symm

/-- A sequence is in one cell, that of its tail. -/
theorem Settled.tails_of_mem (h : m.Settled) (hc : c < p.size) (hmem : q ∈ m.ids c) :
    (m.tails q).toNat = c := by
  rw [((h.owned.mem_iff hc).mp hmem).2, Int.toNat_natCast]

theorem rmSeq_unchanged {p0 p1 : ℤ} (hq : q < p.size) (hfalse : (m.rmSeq q p0 p1).2 = false) :
    (m.rmSeq q p0 p1).1 = m := by
  rcases rmSeq_cases m hq p0 p1 with ⟨-, -, heq⟩ | ⟨-, -, -, -, -, rs, heq, -⟩ | heq
  · rw [heq]
  · rw [heq] at hfalse
    cases hfalse
  · rw [heq] at hfalse
    cases hfalse

section
variable {p0 p1 : ℤ} (h : m.Settled) (hq : q < p.size) (hc : c < p.size)
include h hq hc

/-- What a removal leaves of the sequence is before the range, or has not moved from behind it. -/
theorem rmSeq_left (htrue : (m.rmSeq q p0 p1).2 = true)
    (hmem : q ∈ (m.rmSeq q p0 p1).1.ids c) : q ∈ m.ids c ∧
      (((m.rmSeq q p0 p1).1.cells c).pos < p0 ∨
        ((m.rmSeq q p0 p1).1.cells c).pos = (m.cells c).pos ∧ p1 ≤ (m.cells c).pos) := by
  rcases rmSeq_cases m hq p0 p1 with ⟨-, -, heq⟩ | ⟨-, -, -, -, -, rs, heq, -⟩ | heq
  · rw [heq] at htrue
    cases htrue
  · rw [heq] at hmem ⊢
    have hbefore : q ∈ m.ids c := (rollTo_ids (m := m) q (p0 - 1) c) ▸ hmem
    have hpos : ((m.rollTo q (p0 - 1)).cells c).pos = p0 - 1 := by
      rw [rollTo, modify_cells, if_pos (h.tails_of_mem hc hbefore).symm]
    refine ⟨hbefore, .inl ?_⟩
    change ((m.rollTo q (p0 - 1)).cells c).pos < p0
    omega
  · rw [heq] at hmem ⊢
    obtain ⟨hbefore, hout⟩ := (mem_rmWhole hc).mp hmem
    have hpos := rmWhole_pos (m := m.withRsIdx (m.rsAfter q p0 p1)) (q := q) hc hout
    refine ⟨hbefore, ?_⟩
    rw [hpos]
    change (m.cells c).pos < p0 ∨ (m.cells c).pos = (m.cells c).pos ∧ p1 ≤ (m.cells c).pos
    change ¬(p0 ≤ (m.cells c).pos ∧ (m.cells c).pos < p1) at hout
    omega

variable (p0) in
/-- What is at the last position stays there. -/
theorem rmSeq_last (hmem : q ∈ m.ids c) (hlast : p1 ≤ (m.cells c).pos) :
    (m.rmSeq q p0 p1).2 = true ∧ q ∈ (m.rmSeq q p0 p1).1.ids c ∧
      ((m.rmSeq q p0 p1).1.cells c).pos = (m.cells c).pos := by
  have htail := h.tails_of_mem hc hmem
  have hout : ¬(p0 ≤ (m.cells c).pos ∧ (m.cells c).pos < p1) := fun hin => by omega
  rcases rmSeq_cases m hq p0 p1 with ⟨-, hlt, -⟩ | ⟨-, -, -, hlt, -, -, -, -⟩ | heq
  · rw [htail] at hlt
    omega
  · rw [htail] at hlt
    omega
  · rw [heq]
    exact ⟨rfl, (mem_rmWhole hc).mpr ⟨hmem, hout⟩, rmWhole_pos hc hout⟩

end

theorem removes_iff (h : m.Settled) (seqId p0 p1 : ℤ) :
    m.Removes seqId p0 p1 ↔ m.Removable seqId p0 p1 := by
  have hsize := p.size_eq
  by_cases hin : InRange p seqId
  · have hq := hin.toNat_lt
    obtain ⟨h0, h1⟩ := hin
    have hcall : m.seqRm seqId p0 p1 = m.rmSeq seqId.toNat (if p0 < 0 then 0 else p0)
        (if p1 < 0 then posMax else p1) := if_neg (by omega)
    have hholds : ∀ (m' : MemoryRecurrent p) c, m'.Holds seqId c ↔ seqId.toNat ∈ m'.ids c :=
      fun m' c => iff_of_eq (if_neg (by omega))
    constructor
    · refine fun hrem => ⟨fun hall => by omega, fun ⟨_, hend, c, hc, hmem, hlast, hfirst⟩ => ?_⟩
      have hmax : posMax = 2 ^ 31 - 1 := rfl
      have hbehind : (if p1 < 0 then posMax else p1) ≤ (m.cells c).pos := by omega
      obtain ⟨htrue, hstays, hpos⟩ := rmSeq_last (if p0 < 0 then 0 else p0) h hq hc hmem hbehind
      rw [← hcall] at htrue hstays hpos
      exact hrem.leaves_none htrue c hc ((hholds _ c).mpr hstays) ⟨by omega, .inl hend⟩
    · rintro ⟨-, hlast⟩
      refine ⟨fun htrue c hc hmem hcov => ?_, fun hfalse => ?_, fun hall => by omega⟩
      · rw [hholds, hcall] at hmem
        rw [hcall] at htrue hcov
        obtain ⟨hfrom, hto⟩ := hcov
        obtain ⟨hbefore, hleft⟩ := rmSeq_left h hq hc htrue hmem
        have hend : p1 < 0 ∧ posMax ≤ (m.cells c).pos ∧ p0 ≤ (m.cells c).pos := by omega
        exact hlast ⟨⟨h0, h1⟩, hend.1, c, hc, hbefore, hend.2⟩
      · rw [hcall] at hfalse ⊢
        exact rmSeq_unchanged hq hfalse
  · have hcall := seqRm_refused (m := m) hin p0 p1
    constructor
    · refine fun hrem => ⟨fun ⟨hid, hall⟩ => ?_, fun hlast => hin hlast.1⟩
      have htrue := (hrem.empties hid hall).1
      rw [hcall] at htrue
      cases htrue
    · refine fun hrem => ⟨fun htrue => ?_, fun _ => ?_, fun hid hall => ?_⟩
      · rw [hcall] at htrue
        cases htrue
      · rw [hcall]
      · exact absurd ⟨hid, hall⟩ hrem.1

/-! ## Runs -/

/-- In every state of a run a call keeps its promises exactly when it names one sequence. -/
theorem removes_along_iff (p : RecurrentParams) (calls : List (RecurrentCall E))
    (hcalls : ∀ c ∈ calls, c.Formed) :
    Along exec (fun m => ∀ seqId p0 p1, m.Removes seqId p0 p1 ↔ m.Removable seqId p0 p1)
      (init p) calls :=
  Along.mono (P := Settled) (fun _ h => removes_iff h)
    (along_of_meets (fun _ _ _ h hc heq => exec_settled h hc heq) (init_settled p)
      (meets_of_forall hcalls _))

theorem removes_along_split :
    Along exec (fun m => ∀ seqId p0 p1, m.Removes seqId p0 p1 ↔ m.Removable seqId p0 p1)
      (init twoSeqs) [.findSlot (tokenUbatch [[0], [1]] [0, 0]), .seqRm 0 0 (-1)] :=
  removes_along_iff twoSeqs _ fun c hc => by
    fin_cases hc
    exacts [⟨rfl, by decide, by decide, by decide⟩, trivial]

/-- Two sequences are placed; removing any sequence everywhere is refused. -/
theorem removes_any_refused : ¬ ∀ (p : RecurrentParams) (calls : List (RecurrentCall ℕ)),
    (∀ c ∈ calls, c.Formed) →
      Along exec (fun m => ∀ seqId p0 p1, m.Removes seqId p0 p1) (init p) calls := by
  intro h
  have hrun := h twoSeqs [.findSlot (tokenUbatch [[0], [1]] [0, 0])] (fun c hc => by
    fin_cases hc
    exact ⟨rfl, by decide, by decide, by decide⟩)
  obtain ⟨m, hm⟩ : ∃ m, exec (init twoSeqs) (.findSlot (tokenUbatch [[0], [1]] [0, 0])) = some m :=
    ⟨_, rfl⟩
  have hall := (hrun.2 m hm (-1) (-1) (-1)).empties rfl ⟨by decide, .inl (by decide)⟩
  rw [seqRm_refused fun hin => absurd hin.1 (by decide)] at hall
  exact Bool.false_ne_true hall.1

end MemoryRecurrent
end RocmFpx
