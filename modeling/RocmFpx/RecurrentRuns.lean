import RocmFpx.RecurrentRestore
import RocmFpx.GuardedRuns

/-!
Runs of the recurrent memory: what every order of placing ubatches, editing sequences and
restoring leaves of the tails, of the count of used cells and of the states of the sequences.
-/

namespace RocmFpx
namespace MemoryRecurrent

open GuardedRuns

variable {E : Type*} {p : RecurrentParams} {m m' : MemoryRecurrent p}

inductive RecurrentCall (E : Type*) where
  | findSlot (ub : Ubatch E)
  | seqRm (seqId p0 p1 : ℤ)
  | seqCp (src dst : ℤ)
  | seqKeep (seqId : ℤ)
  | clear
  | stateRead (io : RestoreStream) (seqId : ℤ)

/-- `none` stands for a failed assertion. -/
def exec (m : MemoryRecurrent p) : RecurrentCall E → Option (MemoryRecurrent p)
  | .findSlot ub => (m.findSlot ub.bEqualSeqs (ubatchSets ub)).map Prod.fst
  | .seqRm seqId p0 p1 => some (m.seqRm seqId p0 p1).1
  | .seqCp src dst => some (m.seqCp src dst)
  | .seqKeep seqId => some (m.seqKeep seqId)
  | .clear => some m.clear
  | .stateRead io seqId => (m.stateRead io seqId).map Prod.fst

/-- What the splitter promises of an ubatch. -/
structure Formed (ub : Ubatch E) : Prop where
  equalSeqs : ub.bEqualSeqs = true
  grouped : Grouped (ubatchSets ub)

def RecurrentCall.Formed : RecurrentCall E → Prop
  | .findSlot ub => MemoryRecurrent.Formed ub
  | _ => True

/-- The restores whose metadata do not break off. -/
def RestoresUnbroken (m : MemoryRecurrent p) : RecurrentCall E → Prop
  | .stateRead io seqId => m.Unbroken io seqId
  | _ => True

/-- Besides, no position is negative and no restored cell without a sequence. -/
def RestoresFilled (m : MemoryRecurrent p) : RecurrentCall E → Prop
  | .findSlot ub => ∀ x ∈ ubatchSets ub, 0 ≤ x.2
  | .stateRead io seqId => m.Unbroken io seqId ∧ m.Filled io seqId
  | _ => True

/-! ## One call -/

theorem exec_settled {c : RecurrentCall E} (h : m.Settled) (hc : c.Formed)
    (heq : m.exec c = some m') : m'.Settled := by
  cases c with
  | findSlot ub =>
    obtain ⟨⟨m'', ok⟩, hfind, rfl⟩ := Option.map_eq_some_iff.mp heq
    rw [hc.equalSeqs] at hfind
    exact (findSlot_slotFound h hc.grouped hfind).settled
  | seqRm seqId p0 p1 =>
    cases heq
    exact seqRm_settled h seqId p0 p1
  | seqCp src dst =>
    cases heq
    exact seqCp_settled h src dst
  | seqKeep seqId =>
    cases heq
    exact seqKeep_settled h seqId
  | clear =>
    cases heq
    exact clear_settled m
  | stateRead io seqId =>
    obtain ⟨⟨m'', ok⟩, hread, rfl⟩ := Option.map_eq_some_iff.mp heq
    exact stateRead_settled h hread

theorem exec_sourced {c : RecurrentCall E} (h : m.Settled) (hs : m.Sourced) (hc : c.Formed)
    (hunbroken : m.RestoresUnbroken c) (heq : m.exec c = some m') : m'.Sourced := by
  cases c with
  | findSlot ub =>
    obtain ⟨⟨m'', ok⟩, hfind, rfl⟩ := Option.map_eq_some_iff.mp heq
    rw [hc.equalSeqs] at hfind
    exact (findSlot_slotFound h hc.grouped hfind).sourced hs
  | seqRm seqId p0 p1 =>
    cases heq
    exact seqRm_sourced hs seqId p0 p1
  | seqCp src dst =>
    cases heq
    exact seqCp_sourced h hs src dst
  | seqKeep seqId =>
    cases heq
    exact seqKeep_sourced hs seqId
  | clear =>
    cases heq
    exact clear_sourced m
  | stateRead io seqId =>
    obtain ⟨⟨m'', ok⟩, hread, rfl⟩ := Option.map_eq_some_iff.mp heq
    exact stateRead_sourced h hs hunbroken hread

theorem exec_counted {c : RecurrentCall E} (h : m.Settled) (hcount : m.Counted) (hc : c.Formed)
    (hfilled : m.RestoresFilled c) (heq : m.exec c = some m') : m'.Counted := by
  cases c with
  | findSlot ub =>
    obtain ⟨⟨m'', ok⟩, hfind, rfl⟩ := Option.map_eq_some_iff.mp heq
    rw [hc.equalSeqs] at hfind
    exact (findSlot_slotFound h hc.grouped hfind).counted hcount hfilled
  | seqRm seqId p0 p1 =>
    cases heq
    exact seqRm_counted hcount seqId p0 p1
  | seqCp src dst =>
    cases heq
    exact seqCp_counted h hcount src dst
  | seqKeep seqId =>
    cases heq
    exact seqKeep_counted hcount seqId
  | clear =>
    cases heq
    exact clear_counted m
  | stateRead io seqId =>
    obtain ⟨⟨m'', ok⟩, hread, rfl⟩ := Option.map_eq_some_iff.mp heq
    exact stateRead_counted h hcount hfilled.1 hfilled.2 hread

/-! ## Runs -/

theorem init_sourced (p : RecurrentParams) : (init p).Sourced :=
  fun _ _ hne => absurd hne Finset.not_nonempty_empty

theorem init_counted (p : RecurrentParams) : (init p).Counted where
  used_eq := (Finset.card_eq_zero.mpr (Finset.filter_eq_empty_iff.mpr fun _ _ hne =>
    Finset.not_nonempty_empty hne)).symm
  pos_iff _ _ := iff_of_false (fun h => absurd h (by change ¬ (0 : ℤ) ≤ -1; decide))
    Finset.not_nonempty_empty

/-- Each sequence is in one cell at most, and its tail is that cell or `-1`. -/
structure TailsAgree (m : MemoryRecurrent p) : Prop where
  one_cell : ∀ c < p.size, ∀ d < p.size, ∀ q, q ∈ (m.cells c).seqId → q ∈ (m.cells d).seqId → c = d
  tail_eq : ∀ c < p.size, ∀ q ∈ (m.cells c).seqId, (m.cells q).tail = c
  tail_none : ∀ q < p.size, (∀ c < p.size, q ∉ (m.cells c).seqId) → (m.cells q).tail = -1

theorem Settled.tailsAgree (h : m.Settled) : m.TailsAgree where
  one_cell c hc d hd q hqc hqd := Int.ofNat_inj.mp
    (((h.owned.mem_iff hc).mp hqc).2.symm.trans ((h.owned.mem_iff hd).mp hqd).2)
  tail_eq c hc q hq := ((h.owned.mem_iff hc).mp hq).2
  tail_none q hq hnone := by
    rcases h.owned.tail_range q hq with heq | ⟨c, hc, heq⟩
    · exact heq
    · exact absurd ((h.owned.mem_iff hc).mpr ⟨hq, heq⟩) (hnone c hc)

/-- The sets of an ubatch are in consecutive cells from the head on. -/
def InOrder (m : MemoryRecurrent p) (ub : Ubatch E) : Prop :=
  ∀ k x, (ubatchSets ub)[k]? = some x → ∀ id ∈ x.1, (m.cells id.toNat).tail = (m.head + k : ℕ)

/-- `find_slot` ends without a failed assertion, fails only for ids out of range, and otherwise
puts the sets in order. -/
def FindsSlot (m : MemoryRecurrent p) (ub : Ubatch E) : Prop :=
  ∃ m' ok, m.findSlot ub.bEqualSeqs (ubatchSets ub) = some (m', ok) ∧
    (ok = true ↔ ∀ x ∈ ubatchSets ub, ∀ id ∈ x.1, 0 ≤ id ∧ id < p.size) ∧
    (ok = true → m'.InOrder ub)

/-- A successful `find_slot` keeps the states of all sequences but the ids that join others. -/
def KeepsStates (m : MemoryRecurrent p) (ub : Ubatch E) (later : List ℕ) : Prop :=
  ∀ m', m.findSlot ub.bEqualSeqs (ubatchSets ub) = some (m', true) → StateKept m m' later

theorem runs_in_step (p : RecurrentParams) (calls : List (RecurrentCall E))
    (hcalls : ∀ c ∈ calls, c.Formed) :
    Along exec (fun m => m.TailsAgree ∧ ∀ ub : Ubatch E, Formed ub → m.FindsSlot ub)
      (init p) calls ∧
    (Meets exec RestoresUnbroken (init p) calls → Along exec (fun m => ∀ ub : Ubatch E,
      Formed ub → m.KeepsStates ub (laterIds ((ubatchSets ub).map Prod.fst))) (init p) calls) ∧
    (Meets exec RestoresFilled (init p) calls →
      Along exec (fun m => m.used = m.occupied.card) (init p) calls) := by
  have hformed : Meets exec (fun _ c => c.Formed) (init p) calls := meets_of_forall hcalls _
  refine ⟨?_, fun hunbroken => ?_, fun hfilled => ?_⟩
  · refine Along.mono (P := Settled) (fun m h => ⟨h.tailsAgree, fun ub hub => ?_⟩)
      (along_of_meets (fun m c m' h hc heq => exec_settled h hc heq) (init_settled p) hformed)
    obtain ⟨m', ok, hfind, hslot⟩ := findSlot_found h hub.grouped
    exact ⟨m', ok, by rw [hub.equalSeqs, hfind], hslot.ok_iff, hslot.in_order⟩
  · refine Along.mono (P := fun m => m.Settled ∧ m.Sourced) (fun m h ub hub m' hfind => ?_)
      (along_of_meets (fun m c m' h hc heq => ⟨exec_settled h.1 hc.1 heq,
        exec_sourced h.1 h.2 hc.1 hc.2 heq⟩) ⟨init_settled p, init_sourced p⟩
        (hformed.and hunbroken))
    rw [hub.equalSeqs] at hfind
    exact (findSlot_slotFound h.1 hub.grouped hfind).kept rfl h.2
  · exact Along.mono (P := fun m => m.Settled ∧ m.Counted) (fun m h => h.2.used_eq)
      (along_of_meets (fun m c m' h hc heq => ⟨exec_settled h.1 hc.1 heq,
        exec_counted h.1 h.2 hc.1 hc.2 heq⟩) ⟨init_settled p, init_counted p⟩
        (hformed.and hfilled))

/-! ## Two sequences -/

def twoSeqs : RecurrentParams := ⟨2, 0, false, Nat.two_pos, RecurrentParams.two_le_max⟩

/-- An ubatch with one token for each sequence set. -/
def tokenUbatch (seqId : List (List ℕ)) (pos : List ℤ) : Ubatch ℕ :=
  { Ubatch.empty with
    bEqualSeqs := true
    nTokens := seqId.length
    nSeqTokens := 1
    nSeqs := seqId.length
    pos := pos
    seqId := seqId }

theorem runs_in_step_split :
    Along exec (fun m => m.used = m.occupied.card) (init twoSeqs)
      [.findSlot (tokenUbatch [[0], [1]] [0, 0]), .seqCp 0 1, .stateRead ⟨[], none⟩ 0,
        .findSlot (tokenUbatch [[1]] [1])] := by
  have hfirst : Formed (tokenUbatch [[0], [1]] [0, 0]) := ⟨rfl, by decide, by decide, by decide⟩
  have hsecond : Formed (tokenUbatch [[1]] [1]) := ⟨rfl, by decide, by decide, by decide⟩
  refine (runs_in_step twoSeqs [.findSlot (tokenUbatch [[0], [1]] [0, 0]), .seqCp 0 1,
    .stateRead ⟨[], none⟩ 0, .findSlot (tokenUbatch [[1]] [1])] ?_).2.2 ?_
  · rintro c hc
    fin_cases hc
    exacts [hfirst, trivial, trivial, hsecond]
  · refine fun m₁ _ => ⟨?_, fun m₂ _ => ⟨trivial, fun m₃ _ =>
      ⟨⟨fun _ _ h => absurd h.symm (List.cons_ne_nil _ _),
        fun _ _ h => absurd h.symm (List.cons_ne_nil _ _)⟩,
        fun m₄ _ => ⟨?_, trivial⟩⟩⟩⟩
    · change ∀ x ∈ ubatchSets (tokenUbatch [[0], [1]] [0, 0]), 0 ≤ x.2
      decide
    · change ∀ x ∈ ubatchSets (tokenUbatch [[1]] [1]), 0 ≤ x.2
      decide

/-- A sequence that joins another one in an ubatch loses its own state. -/
theorem findSlot_drops_state : ¬ ∀ (p : RecurrentParams) (calls : List (RecurrentCall ℕ)),
    (∀ c ∈ calls, c.Formed) → Along exec (fun m => ∀ ub : Ubatch ℕ, Formed ub →
      m.KeepsStates ub []) (init p) calls := by
  intro h
  have hrun := h twoSeqs
    [.findSlot (tokenUbatch [[0]] [0]), .findSlot (tokenUbatch [[1]] [0])] (fun c hc => by
      fin_cases hc
      · exact ⟨rfl, by decide, by decide, by decide⟩
      · exact ⟨rfl, by decide, by decide, by decide⟩)
  obtain ⟨m, m', hm, hm', hbefore, hafter, hsrc⟩ : ∃ m m' : MemoryRecurrent twoSeqs,
      run exec (init twoSeqs) [.findSlot (tokenUbatch [[0]] [0]),
        .findSlot (tokenUbatch [[1]] [0])] = some m ∧
      m.findSlot true (ubatchSets (tokenUbatch [[0, 1]] [1])) = some (m', true) ∧
      m.tails 1 = (1 : ℕ) ∧ m'.tails 1 = (0 : ℕ) ∧ m'.head = 0 ∧ m'.n = 1 ∧
        (m'.cells 0).src0 = 0 := by
    refine ⟨_, _, rfl, rfl, ?_, ?_, ?_, ?_, ?_⟩ <;> decide
  have hkept := hrun.final hm (tokenUbatch [[0, 1]] [1])
    ⟨rfl, by decide, by decide, by decide⟩ m' hm'
  obtain ⟨c, -, hc, -, hstate⟩ := hkept 1 (by decide) (by simp) 1 hbefore
  rw [hafter] at hc
  rw [← Int.ofNat_inj.mp hc, hsrc.1, hsrc.2.1, if_pos (by decide), hsrc.2.2] at hstate
  exact absurd hstate (by decide)

end MemoryRecurrent
end RocmFpx
