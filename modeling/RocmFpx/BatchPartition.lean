import RocmFpx.GuardedRuns
import RocmFpx.BatchLaws
import RocmFpx.BatchSplitLaws

/-!
Splitting a batch until an empty ubatch comes back. The ubatches made so far draw
distinct indices, and they are all of them once nothing is left.
-/

namespace RocmFpx

open GuardedRuns

/-- The splitter's state and the ubatches it returned. -/
structure SplitLog (E : Type*) where
  st : SplitState
  ubs : List (Ubatch E)

namespace BatchAllocr

variable {E : Type*}

def startLog : SplitLog E := ⟨splitReset, []⟩

def logStep (b : BatchAllocr E) (log : SplitLog E) (call : SplitCall) : Option (SplitLog E) :=
  (b.split log.st call).map fun r => ⟨r.1, log.ubs ++ [r.2]⟩

def emitted (log : SplitLog E) : List ℕ := log.ubs.flatMap Ubatch.batchIdxs

variable {b : BatchAllocr E}

/-! ## The invariant of a run -/

structure LogInv (b : BatchAllocr E) (log : SplitLog E) : Prop where
  nodup : (emitted log).Nodup
  lt : ∀ i ∈ emitted log, i < b.nTokens
  marks : log.st.marks = ⟨(emitted log).toFinset, (emitted log).length⟩
  outIds : log.st.outIds = (emitted log).filter b.isOutput
  setPrefix : SetPrefix b log.st.marks.used
  made : ∀ ub ∈ log.ubs, (ub = Ubatch.empty ∧ ∀ i < b.nTokens, i ∈ log.st.marks.used) ∨
    ∃ idxs nSeqs equalSeqs, idxs ≠ [] ∧ ub = b.ubatchAdd idxs nSeqs equalSeqs

theorem startLog_inv : LogInv b startLog := by
  refine ⟨List.nodup_nil, ?_, rfl, rfl, ?_, ?_⟩
  · simp [emitted, startLog]
  · simp [SetPrefix, startLog, splitReset]
  · simp [startLog]

theorem LogInv.done {log : SplitLog E} (h : LogInv b log)
    (hall : ∀ i < b.nTokens, i ∈ log.st.marks.used) :
    LogInv b ⟨log.st, log.ubs ++ [Ubatch.empty]⟩ := by
  have hsame : emitted ⟨log.st, log.ubs ++ [Ubatch.empty]⟩ = emitted log := by
    simp [emitted, Ubatch.empty]
  refine ⟨?_, ?_, ?_, ?_, h.setPrefix, fun ub hub => ?_⟩
  · rw [hsame]
    exact h.nodup
  · rw [hsame]
    exact h.lt
  · rw [hsame]
    exact h.marks
  · rw [hsame]
    exact h.outIds
  · rcases List.mem_append.mp hub with hub | hub
    · exact h.made ub hub
    · exact .inl ⟨List.mem_singleton.mp hub, hall⟩

theorem LogInv.emits {log : SplitLog E} (h : LogInv b log) {r : SplitState × Ubatch E}
    {idxs : List ℕ} (hr : Emits b log.st r idxs) : LogInv b ⟨r.1, log.ubs ++ [r.2]⟩ := by
  obtain ⟨nSeqs, equalSeqs, hub⟩ := hr.ubatch
  have hmore : emitted ⟨r.1, log.ubs ++ [r.2]⟩ = emitted log ++ idxs := by
    rw [emitted, List.flatMap_append, List.flatMap_singleton, hub]
    rfl
  have hmarks := hr.draw.marks
  rw [h.marks] at hmarks
  refine ⟨?_, ?_, ?_, ?_, hr.draw.setPrefix, fun ub hmem => ?_⟩
  · rw [hmore]
    refine h.nodup.append hr.draw.nodup fun i hi hin => (hr.draw.fresh i hin).2 ?_
    rw [h.marks]
    exact List.mem_toFinset.mpr hi
  · intro i hi
    rw [hmore] at hi
    rcases List.mem_append.mp hi with hi | hi
    · exact h.lt i hi
    · exact (hr.draw.fresh i hi).1
  · rw [hmarks, hmore, List.toFinset_append, List.length_append]
  · rw [hr.outIds, h.outIds, hmore, List.filter_append]
  · rcases List.mem_append.mp hmem with hmem | hmem
    · refine (h.made ub hmem).imp_left fun ⟨hempty, hall⟩ => ⟨hempty, fun i hi => ?_⟩
      rw [hr.draw.marks]
      exact Finset.mem_union_left _ (hall i hi)
    · rw [List.mem_singleton.mp hmem]
      exact .inr ⟨idxs, nSeqs, equalSeqs, hr.ne_nil, hub⟩

theorem LogInv.perm {log : SplitLog E} (h : LogInv b log)
    (hall : ∀ i < b.nTokens, i ∈ log.st.marks.used) :
    (emitted log).Perm (List.range b.nTokens) := by
  refine (List.perm_ext_iff_of_nodup h.nodup List.nodup_range).mpr fun i => ?_
  rw [List.mem_range]
  refine ⟨h.lt i, fun hi => ?_⟩
  have := hall i hi
  rw [h.marks] at this
  exact List.mem_toFinset.mp this

theorem LogInv.length_le {log : SplitLog E} (h : LogInv b log)
    (hbusy : ∀ ub ∈ log.ubs, ub.nTokens ≠ 0) : log.ubs.length ≤ b.nTokens := by
  have hone : ∀ ub ∈ log.ubs, 1 ≤ ub.batchIdxs.length := by
    intro ub hub
    rcases h.made ub hub with ⟨hempty, -⟩ | ⟨idxs, nSeqs, equalSeqs, hidxs, rfl⟩
    · exact absurd (by rw [hempty]; rfl) (hbusy ub hub)
    · exact List.length_pos_of_ne_nil hidxs
  calc log.ubs.length = (log.ubs.map fun _ => 1).sum := by simp
    _ ≤ (log.ubs.map fun ub => ub.batchIdxs.length).sum := List.sum_le_sum hone
    _ = (emitted log).length := (List.length_flatMap ..).symm
    _ ≤ (List.range b.nTokens).length :=
      (h.nodup.subperm fun i hi => List.mem_range.mpr (h.lt i hi)).length_le
    _ = b.nTokens := List.length_range

section

variable [Zero E] {inp : BatchExt E} {nPosPerEmbd : ℕ} {allowMixed outputAll : Bool}

end

/-! ## Two embeddings stored in reverse -/

end BatchAllocr
end RocmFpx
