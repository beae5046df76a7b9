import RocmFpx.BatchPartition

/-!
The order in which equal splits emit the tokens of one sequence. The splitter keeps one
cursor per sequence set, so the order within a set is always kept; between sets that share
a sequence it is kept as long as no set is picked before its turn.
-/

namespace RocmFpx

open GuardedRuns

theorem prefix_of_downward {l r : List ℕ} (hl : l.Pairwise (· < ·)) (hr : r.Pairwise (· < ·))
    (hsub : ∀ i ∈ l, i ∈ r) (hdown : ∀ j ∈ l, ∀ i ∈ r, i < j → i ∈ l) : l <+: r := by
  induction r generalizing l with
  | nil =>
    cases l with
    | nil => exact List.prefix_rfl
    | cons i l => exact absurd (hsub i List.mem_cons_self) List.not_mem_nil
  | cons k r ih =>
    cases l with
    | nil => exact List.nil_prefix
    | cons i l =>
      rw [List.pairwise_cons] at hl hr
      have hik : i = k := by
        rcases List.mem_cons.mp (hsub i List.mem_cons_self) with heq | hmem
        · exact heq
        · have hk := hdown i List.mem_cons_self k List.mem_cons_self (hr.1 i hmem)
          rcases List.mem_cons.mp hk with heq | hmem'
          · exact heq.symm
          · have := hl.1 k hmem'
            have := hr.1 i hmem
            omega
      subst hik
      refine List.cons_prefix_cons.mpr ⟨rfl, ih hl.2 hr.2 (fun j hj => ?_) fun j hj m hm hmj => ?_⟩
      · have hlt := hl.1 j hj
        rcases List.mem_cons.mp (hsub j (List.mem_cons_of_mem i hj)) with rfl | hmem
        · exact absurd hlt (lt_irrefl _)
        · exact hmem
      · have hlt := hr.1 m hm
        rcases List.mem_cons.mp (hdown j (List.mem_cons_of_mem i hj) m (List.mem_cons_of_mem i hm) hmj)
          with rfl | hmem
        · exact absurd hlt (lt_irrefl _)
        · exact hmem

namespace BatchExt

variable {E : Type*} {inp : BatchExt E}

end BatchExt

namespace BatchAllocr

variable {E : Type*} {b : BatchAllocr E}

/-- The tokens of sequence `s` among `idxs`. -/
def ofSeq (b : BatchAllocr E) (s : ℕ) (idxs : List ℕ) : List ℕ :=
  idxs.filter fun i => decide (s ∈ b.seqSetAt i)

/-- Every sequence comes out in batch order, with nothing left out, and its positions do
not decrease. -/
def Ordered (b : BatchAllocr E) (log : SplitLog E) : Prop := ∀ s,
  b.ofSeq s (emitted log) <+: b.ofSeq s (List.range b.nTokens) ∧
    (b.ofSeq s (emitted log)).Pairwise fun i j => b.pos.getD i 0 ≤ b.pos.getD j 0

theorem mem_ofSeq {s i : ℕ} {idxs : List ℕ} : i ∈ b.ofSeq s idxs ↔ i ∈ idxs ∧ s ∈ b.seqSetAt i := by
  simp [ofSeq]

/-! ## One call -/

theorem ofSeq_cursors (s : ℕ) {cs : List SetCursor}
    (hset : ∀ c ∈ cs, ∀ i ∈ c.idxs, b.seqSetAt i = c.set)
    (hdisj : (cs.map SetCursor.set).Pairwise fun x y => x ∩ y = ∅) :
    b.ofSeq s (cs.flatMap SetCursor.idxs) = [] ∨
      ∃ c ∈ cs, b.ofSeq s (cs.flatMap SetCursor.idxs) = c.idxs := by
  induction cs with
  | nil => exact .inl rfl
  | cons c cs ih =>
    rw [List.map_cons, List.pairwise_cons] at hdisj
    have hsplit : b.ofSeq s ((c :: cs).flatMap SetCursor.idxs) =
        b.ofSeq s c.idxs ++ b.ofSeq s (cs.flatMap SetCursor.idxs) := by
      rw [List.flatMap_cons, ofSeq, List.filter_append]
      rfl
    have hc := hset c List.mem_cons_self
    rw [hsplit]
    by_cases hs : s ∈ c.set
    · right
      refine ⟨c, List.mem_cons_self, ?_⟩
      have hall : b.ofSeq s c.idxs = c.idxs :=
        List.filter_eq_self.mpr fun i hi => decide_eq_true (by rw [hc i hi]; exact hs)
      have hnone : b.ofSeq s (cs.flatMap SetCursor.idxs) = [] := by
        refine List.filter_eq_nil_iff.mpr fun i hi hin => ?_
        obtain ⟨d, hd, hi⟩ := List.mem_flatMap.mp hi
        have hsd := of_decide_eq_true hin
        rw [hset d (List.mem_cons_of_mem c hd) i hi] at hsd
        have hempty := hdisj.1 d.set (List.mem_map_of_mem hd)
        exact Finset.notMem_empty s (hempty ▸ Finset.mem_inter.mpr ⟨hs, hsd⟩)
      rw [hall, hnone, List.append_nil]
    · have hnone : b.ofSeq s c.idxs = [] :=
        List.filter_eq_nil_iff.mpr fun i hi hin => hs (hc i hi ▸ of_decide_eq_true hin)
      rw [hnone, List.nil_append]
      refine (ih (fun d hd => hset d (List.mem_cons_of_mem c hd)) hdisj.2).imp_right ?_
      exact fun ⟨d, hd, heq⟩ => ⟨d, List.mem_cons_of_mem c hd, heq⟩

theorem ofSeq_rest {log : SplitLog E} (h : LogInv b log) {s : ℕ}
    (hpre : b.ofSeq s (emitted log) <+: b.ofSeq s (List.range b.nTokens)) :
    b.ofSeq s (List.range b.nTokens) = b.ofSeq s (emitted log) ++
      (b.ofSeq s (List.range b.nTokens)).filter fun i => decide (i ∉ log.st.marks.used) := by
  obtain ⟨rest, hrest⟩ := hpre
  have hnd : (b.ofSeq s (emitted log) ++ rest).Nodup := by
    rw [hrest]
    exact List.nodup_range.filter _
  have hused : ∀ i ∈ b.ofSeq s (List.range b.nTokens), i ∈ log.st.marks.used ↔
      i ∈ b.ofSeq s (emitted log) := by
    intro i hi
    rw [h.marks, mem_ofSeq]
    simp only [List.mem_toFinset, (mem_ofSeq.1 hi).2, and_true]
  rw [← hrest] at hused ⊢
  rw [List.filter_append, List.filter_eq_nil_iff.mpr, List.filter_eq_self.mpr, List.nil_append]
  · intro i hi
    refine decide_eq_true fun hin => ?_
    exact List.disjoint_of_nodup_append hnd ((hused i (List.mem_append_right _ hi)).mp hin) hi
  · intro i hi hin
    exact of_decide_eq_true hin ((hused i (List.mem_append_left _ hi)).mpr hi)

theorem EqualInv.idxs_downward {m₀ : Marks} {eq : EqualState} (h : EqualInv b m₀ eq)
    {c : SetCursor} (hc : c ∈ eq.cursors) : c.idxs.Pairwise (· < ·) ∧
      ∀ j ∈ c.idxs, ∀ i < j, i < b.nTokens → b.seqSetAt i = c.set → i ∉ m₀.used → i ∈ c.idxs := by
  have hsorted := unusedOf_sorted (b := b) m₀.used c.set
  rw [← h.cursor c hc, List.pairwise_append] at hsorted
  refine ⟨hsorted.1, fun j hj i hij hi hset hunused => ?_⟩
  have hmem : i ∈ c.idxs ++ c.rest := by
    rw [h.cursor c hc, mem_unusedOf]
    exact ⟨hi, hset, hunused⟩
  rcases List.mem_append.mp hmem with hmem | hmem
  · exact hmem
  · have := hsorted.2.2 j hj i hmem
    omega

theorem EqualInv.ordered {log : SplitLog E} (hlog : LogInv b log) {eq : EqualState}
    (h : EqualInv b log.st.marks eq)
    (hdisj : (eq.cursors.map SetCursor.set).Pairwise fun x y => x ∩ y = ∅)
    (hturn : ∀ c ∈ eq.cursors, ∀ j < b.nTokens, j ∉ log.st.marks.used → b.seqSetAt j = c.set →
      ∀ i < j, i ∉ log.st.marks.used → b.seqSetAt i = c.set ∨ b.seqSetAt i ∩ c.set = ∅)
    {s : ℕ} (hpre : b.ofSeq s (emitted log) <+: b.ofSeq s (List.range b.nTokens)) :
    b.ofSeq s (emitted log ++ eq.cursors.flatMap SetCursor.idxs) <+:
      b.ofSeq s (List.range b.nTokens) := by
  have happ : b.ofSeq s (emitted log ++ eq.cursors.flatMap SetCursor.idxs) =
      b.ofSeq s (emitted log) ++ b.ofSeq s (eq.cursors.flatMap SetCursor.idxs) := List.filter_append ..
  rw [happ, ofSeq_rest hlog hpre, List.prefix_append_right_inj]
  rcases ofSeq_cursors s (fun c hc i hi => (h.idxs_sub hc hi).2.1) hdisj with hnone | ⟨c, hc, hidxs⟩
  · rw [hnone]
    exact List.nil_prefix
  have hmem : ∀ i ∈ c.idxs, s ∈ b.seqSetAt i := fun i hi => (mem_ofSeq.1 (hidxs ▸ hi)).2
  obtain ⟨hsorted, hdown⟩ := h.idxs_downward hc
  rw [hidxs]
  refine prefix_of_downward hsorted ((List.pairwise_lt_range.filter _).filter _) (fun i hi => ?_)
    fun j hj i hi hij => ?_
  · obtain ⟨hlt, -, hunused⟩ := h.idxs_sub hc hi
    rw [List.mem_filter, mem_ofSeq]
    exact ⟨⟨List.mem_range.mpr hlt, hmem i hi⟩, decide_eq_true hunused⟩
  · rw [List.mem_filter, mem_ofSeq, List.mem_range] at hi
    obtain ⟨⟨hlt, hs⟩, hunused⟩ := hi
    have hunused' := of_decide_eq_true hunused
    obtain ⟨hjlt, hjset, hjunused⟩ := h.idxs_sub hc hj
    rcases hturn c hc j hjlt hjunused hjset i hij hunused' with hset | hempty
    · exact hdown j hj i hij hlt hset hunused'
    · have hboth := Finset.mem_inter.mpr ⟨hs, hjset ▸ hmem j hj⟩
      rw [hempty] at hboth
      exact absurd hboth (Finset.notMem_empty s)

/-! ## Runs -/

section

variable [Zero E] {inp : BatchExt E} {nPosPerEmbd : ℕ} {allowMixed outputAll : Bool}

end

/-! ## Two sequences that meet again -/

theorem zero_ne : ([0] : List ℕ) ≠ [] := List.cons_ne_nil 0 []

theorem zero_nodup : ([0] : List ℕ).Nodup := List.nodup_singleton 0

theorem one_ne : ([1] : List ℕ) ≠ [] := List.cons_ne_nil 1 []

theorem one_nodup : ([1] : List ℕ).Nodup := List.nodup_singleton 1

def wordToken (seqIds : List ℕ) (q : ℤ) (hne : seqIds ≠ []) (hnd : seqIds.Nodup) : BatchToken where
  id := 1
  seqIds := seqIds
  pos := fun _ => q
  seqIds_ne := hne
  seqIds_nodup := hnd

/-- Sequences 0 and 1 share the first and the last token. -/
def meetingAgain : BatchExt ℤ where
  nEmbdInp := 1
  nEmbdState := 0
  nSeqMax := 2
  mem := none
  nVocab := 10
  nEmbd := 0
  tokens := [wordToken [0, 1] 0 (by decide) (by decide), wordToken [0] 1 zero_ne zero_nodup,
    wordToken [1] 1 one_ne one_nodup, wordToken [0, 1] 2 (by decide) (by decide)]
  embd := []
  state := []
  embd_length := rfl
  embd_fits := by decide

end BatchAllocr
end RocmFpx
