import RocmFpx.BatchShares

/-!
Equal splits that keep the tails: of each sequence set the last `n_keep_tail` tokens come
out in one ubatch. What carries the runs is that a set is left with no token or with at
least `n_keep_tail`.
-/

namespace RocmFpx

open GuardedRuns

/-- An equal split with the given tail, which passes the assertion. -/
def SplitCall.KeepsBack (nKeepTail : ℕ) : SplitCall → Prop
  | .equal nUbatch _ n => n = nKeepTail ∧ nKeepTail < nUbatch
  | _ => False

/-- The call is answered with an error: coupled sequences are not split sequentially. -/
def SplitCall.Refused {E : Type*} (b : BatchAllocr E) : SplitCall → Prop
  | .equal _ sequential _ => sequential = true ∧ b.hasCpl = true
  | _ => False

namespace BatchAllocr

variable {E : Type*} (b : BatchAllocr E)

/-- No tokens, or enough for a tail. -/
def TailWhole (nKeepTail : ℕ) (left : List ℕ) : Prop := left = [] ∨ nKeepTail ≤ left.length

def lastTokens (nKeepTail : ℕ) (set : Finset ℕ) : List ℕ :=
  (b.seqSetMap set).drop ((b.seqSetMap set).length - nKeepTail)

/-- Of the sets with enough tokens the last ones are still to come or are in one ubatch. -/
def TailsTogether (nKeepTail : ℕ) (log : SplitLog E) : Prop :=
  ∀ set, nKeepTail ≤ (b.seqSetMap set).length →
    (∀ i ∈ b.lastTokens nKeepTail set, i ∉ emitted log) ∨
      ∃ ub ∈ log.ubs, ∀ i ∈ b.lastTokens nKeepTail set, i ∈ ub.batchIdxs

/-- What one call does to the tails. -/
structure TailCall (nKeepTail : ℕ) (call : SplitCall) (st : SplitState)
    (r : SplitState × Ubatch E) : Prop where
  left : ∀ set, TailWhole nKeepTail (b.unusedOf st.marks.used set) →
    TailWhole nKeepTail (b.unusedOf r.1.marks.used set)
  progress : r.2.nTokens = 0 → (∀ i < b.nTokens, i ∈ st.marks.used) ∨ call.Refused b

/-- The law of the tails for a run, the bound on the ubatches included. -/
def TailLaw (nKeepTail : ℕ) (calls : List SplitCall) : Prop :=
  Along (logStep b) (b.TailsTogether nKeepTail) startLog calls ∧
    Meets (logStep b) (fun log call => ∀ r, b.split log.st call = some r →
      b.TailCall nKeepTail call log.st r ∧ r.2.nTokens ≤ call.nUbatch) startLog calls

variable {b}

theorem tailWhole_of_tailOk {nKeepTail : ℕ} {c : SetCursor} (h : tailOk nKeepTail c = true) :
    TailWhole nKeepTail c.rest := by
  rw [tailOk, Bool.or_eq_true, decide_eq_true_eq, decide_eq_true_eq] at h
  exact h.imp_left List.length_eq_zero_iff.mp

/-! ## What is left of the emitted sets -/

theorem Level.unusedOf {used : Finset ℕ} {t : ℕ} {cs : List SetCursor} (h : Level b used t cs)
    (hpre : SetPrefix b used) (set : Finset ℕ) :
    (∃ c ∈ cs, c.set = set ∧ b.unusedOf (used ∪ (cs.flatMap SetCursor.idxs).toFinset) set = c.rest) ∨
      b.unusedOf (used ∪ (cs.flatMap SetCursor.idxs).toFinset) set = b.unusedOf used set := by
  by_cases hset : ∃ c ∈ cs, c.set = set
  · left
    obtain ⟨c, hc, rfl⟩ := hset
    refine ⟨c, hc, rfl, ?_⟩
    have hsplit : c.idxs ++ c.rest = b.unusedOf used c.set := by
      rw [h.tail c hc]
      exact startCursor_rest hpre c.set
    have hnd := unusedOf_nodup (b := b) used c.set
    rw [← hsplit] at hnd
    have hmem : ∀ i ∈ c.idxs ++ c.rest, (i ∈ cs.flatMap SetCursor.idxs ↔ i ∈ c.idxs) := by
      intro i hi
      rw [hsplit, mem_unusedOf] at hi
      refine ⟨fun hin => ?_, fun hin => List.mem_flatMap.mpr ⟨c, hc, hin⟩⟩
      obtain ⟨d, hd, hid⟩ := List.mem_flatMap.mp hin
      have hsame : d.set = c.set := (h.own hd hid).symm.trans hi.2.1
      rwa [← List.inj_on_of_nodup_map h.sets hd hc hsame]
    calc b.unusedOf (used ∪ (cs.flatMap SetCursor.idxs).toFinset) c.set
        = (b.unusedOf used c.set).filter fun i => decide (i ∉ cs.flatMap SetCursor.idxs) := by
          rw [BatchAllocr.unusedOf, BatchAllocr.unusedOf, List.filter_filter]
          refine List.filter_congr fun i _ => ?_
          rw [← Bool.decide_and, decide_eq_decide, Finset.mem_union, List.mem_toFinset, not_or,
            and_comm]
      _ = (c.idxs ++ c.rest).filter fun i => decide (i ∉ c.idxs) := by
          rw [← hsplit]
          refine List.filter_congr fun i hi => ?_
          rw [decide_eq_decide, not_iff_not]
          exact hmem i hi
      _ = c.rest := by
          rw [List.filter_append, List.filter_eq_nil_iff.mpr (by simp), List.nil_append]
          refine List.filter_eq_self.mpr fun i hi => decide_eq_true fun hin => ?_
          exact List.disjoint_of_nodup_append hnd hin hi
  · right
    refine List.filter_congr fun i hi => ?_
    have hset' : b.seqSetAt i = set := of_decide_eq_true (List.mem_filter.mp hi).2
    rw [decide_eq_decide, not_iff_not, Finset.mem_union, List.mem_toFinset, or_iff_left]
    intro hin
    obtain ⟨c, hc, hic⟩ := List.mem_flatMap.mp hin
    exact hset ⟨c, hc, (h.own hc hic).symm.trans hset'⟩

/-! ## One call -/

theorem participants_eq_nil_iff {used : Finset ℕ} {sequential : Bool} :
    b.participants used sequential (List.range b.nTokens) [] (-1) = [] ↔
      ∀ i < b.nTokens, i ∈ used := by
  have htake := @pickSets_eq_take _ b used 0 sequential (List.range b.nTokens) [] le_rfl (-1)
  constructor
  · intro hnil
    by_contra hsome
    simp only [not_forall] at hsome
    obtain ⟨i, hi, hunused⟩ := hsome
    refine @pickSets_ne_nil _ b _ 0 sequential _
      ⟨i, List.mem_range.mpr hi, hunused⟩ (-1) ?_
    rw [htake, hnil, List.take_nil]
  · intro hall
    rw [pickSets_eq_nil fun i hi => hall i (List.mem_range.mp hi), eq_comm, List.take_eq_nil_iff] at htake
    exact htake.resolve_left (Nat.succ_ne_zero 0)

/-- A call leaves the tails whole and moves on; only a crowd outgrows the ubatch. -/
theorem split_tail (hinhabited : ∀ i < b.nTokens, b.seqSetAt i ≠ ∅) {st : SplitState}
    {call : SplitCall} {nKeepTail : ℕ} (hpre : SetPrefix b st.marks.used) (hkeep : 0 < nKeepTail)
    (hcall : call.KeepsBack nKeepTail) :
    ∃ r, b.split st call = some r ∧ SetPrefix b r.1.marks.used ∧
      r.1.marks.used = st.marks.used ∪ r.2.batchIdxs.toFinset ∧ b.TailCall nKeepTail call st r ∧
      (r.2.nTokens ≤ call.nUbatch ↔ ¬ b.Crowded st.marks.used call) := by
  cases call with
  | simple nUbatch => exact hcall.elim
  | seq nUbatch => exact hcall.elim
  | equal nUbatch sequential n =>
    obtain ⟨rfl, hlt⟩ := hcall
    by_cases hidle : (sequential && b.hasCpl) = true ∨
        b.participants st.marks.used sequential (List.range b.nTokens) [] (-1) = []
    · obtain ⟨hrun, hcalm⟩ := @splitEqual_idle _ _ _ nUbatch n _ hidle
      refine ⟨_, hrun, hpre, ?_, ⟨fun set h => h, fun _ => ?_⟩, iff_of_true (Nat.zero_le _) hcalm⟩
      · exact (Finset.union_empty _).symm
      · rcases hidle with hrefused | hnil
        · exact .inr (Bool.and_eq_true_iff.mp hrefused)
        · exact .inl (participants_eq_nil_iff.1 hnil)
    · rw [not_or, Bool.not_eq_true] at hidle
      obtain ⟨hcpl, hsets⟩ := hidle
      have hsome : ∃ i < b.nTokens, i ∉ st.marks.used := by
        by_contra hnone
        simp only [not_exists, not_and, not_not] at hnone
        exact hsets (participants_eq_nil_iff.2 hnone)
      have hok : (SplitCall.equal nUbatch sequential n).Ok b := by
        refine ⟨by omega, ?_, fun _ => hlt⟩
        rintro rfl
        simpa using hcpl
      obtain ⟨r, idxs, hrun, hemits⟩ := split_emits hinhabited hpre hok.sane trivial hsome
      obtain ⟨eq, t, hrun', hpos, hlevel, hne, htails, hexact⟩ :=
        splitEqual_level hinhabited st hcpl hsets fun _ => hlt
      have hr : b.emit eq.marks st.outIds (eq.cursors.flatMap SetCursor.idxs)
          eq.cursors.length true = r := Option.some.inj (hrun'.symm.trans hrun)
      obtain ⟨nSeqs, equalSeqs, hub⟩ := hemits.ubatch
      have hidxs : idxs = eq.cursors.flatMap SetCursor.idxs := by
        have hsame : (b.ubatchAdd (eq.cursors.flatMap SetCursor.idxs) eq.cursors.length
            true).batchIdxs = (b.ubatchAdd idxs nSeqs equalSeqs).batchIdxs := by
          rw [← hub, ← hr]
          rfl
        exact hsame.symm
      have hused : r.1.marks.used = st.marks.used ∪ (eq.cursors.flatMap SetCursor.idxs).toFinset := by
        rw [hemits.draw.marks, hidxs]
      have hlen : r.2.nTokens = eq.cursors.length * t := by
        rw [hub, hidxs]
        exact hlevel.length
      refine ⟨r, hrun, hemits.draw.setPrefix, ?_, ⟨fun set hset => ?_, fun hzero => ?_⟩, ?_⟩
      · rw [hused, hub, hidxs]
        rfl
      · rw [hused]
        rcases hlevel.unusedOf hpre set with ⟨c, hc, -, hrest⟩ | hsame
        · rw [hrest]
          exact tailWhole_of_tailOk (htails hkeep c hc)
        · rwa [hsame]
      · have := Nat.mul_pos (List.length_pos_iff.mpr hne) hpos
        omega
      · rw [hlen]
        exact hexact

/-! ## Runs -/

/-- Of a set with enough tokens for a tail, either a tail at least is left or nothing is,
and then one ubatch has the tail. -/
structure TailInv (b : BatchAllocr E) (nKeepTail : ℕ) (log : SplitLog E) : Prop where
  setPrefix : SetPrefix b log.st.marks.used
  used : ∀ i, i ∈ emitted log → i ∈ log.st.marks.used
  tails : ∀ set, nKeepTail ≤ (b.seqSetMap set).length →
    nKeepTail ≤ (b.unusedOf log.st.marks.used set).length ∨
      (b.unusedOf log.st.marks.used set = [] ∧
        ∃ ub ∈ log.ubs, ∀ i ∈ b.lastTokens nKeepTail set, i ∈ ub.batchIdxs)

theorem startLog_tailInv (nKeepTail : ℕ) : TailInv b nKeepTail startLog where
  setPrefix := by simp [SetPrefix, startLog, splitReset]
  used := by simp [emitted, startLog]
  tails set h := by
    refine .inl (h.trans_eq (congrArg List.length ?_))
    exact (List.filter_eq_self.mpr fun i _ => rfl).symm

theorem mem_unusedOf_of_lastTokens {nKeepTail : ℕ} {used set : Finset ℕ} (hpre : SetPrefix b used)
    (h : nKeepTail ≤ (b.unusedOf used set).length) {i : ℕ} (hi : i ∈ b.lastTokens nKeepTail set) :
    i ∈ b.unusedOf used set := by
  have hsuffix : b.unusedOf used set <:+ b.seqSetMap set := by
    rw [← startCursor_rest hpre set]
    exact List.dropWhile_suffix _
  refine (List.suffix_of_suffix_length_le (List.drop_suffix _ _) hsuffix ?_).subset hi
  rw [List.length_drop]
  have := hsuffix.length_le
  omega

theorem TailInv.together {nKeepTail : ℕ} {log : SplitLog E} (h : TailInv b nKeepTail log) :
    b.TailsTogether nKeepTail log := by
  intro set hset
  refine (h.tails set hset).imp (fun hleft i hi hemitted => ?_) fun hdone => hdone.2
  exact (mem_unusedOf.1 (mem_unusedOf_of_lastTokens h.setPrefix hleft hi)).2.2 (h.used i hemitted)

theorem TailInv.step {nKeepTail : ℕ} {log : SplitLog E} (h : TailInv b nKeepTail log)
    {call : SplitCall} {r : SplitState × Ubatch E} (hpre : SetPrefix b r.1.marks.used)
    (hused : r.1.marks.used = log.st.marks.used ∪ r.2.batchIdxs.toFinset)
    (htail : b.TailCall nKeepTail call log.st r) :
    TailInv b nKeepTail ⟨r.1, log.ubs ++ [r.2]⟩ where
  setPrefix := hpre
  used i hi := by
    rw [emitted, List.flatMap_append, List.flatMap_singleton, List.mem_append] at hi
    change i ∈ r.1.marks.used
    rw [hused, Finset.mem_union, List.mem_toFinset]
    exact hi.imp_left (h.used i)
  tails set hset := by
    rcases h.tails set hset with hleft | ⟨hnone, ub, hub, hall⟩
    · rcases htail.left set (.inr hleft) with hdone | hleft'
      · refine .inr ⟨hdone, r.2, List.mem_append_right _ List.mem_cons_self, fun i hi => ?_⟩
        have hi := mem_unusedOf.1 (mem_unusedOf_of_lastTokens h.setPrefix hleft hi)
        have hin : i ∈ r.1.marks.used := by
          by_contra hout
          have : i ∈ b.unusedOf r.1.marks.used set := mem_unusedOf.2 ⟨hi.1, hi.2.1, hout⟩
          rw [hdone] at this
          exact List.not_mem_nil this
        rw [hused, Finset.mem_union, List.mem_toFinset] at hin
        exact hin.resolve_left hi.2.2
      · exact .inl hleft'
    · refine .inr ⟨?_, ub, List.mem_append_left _ hub, hall⟩
      rw [List.eq_nil_iff_forall_not_mem] at hnone ⊢
      intro i hi
      obtain ⟨hlt, hown, hout⟩ := mem_unusedOf.1 hi
      refine hnone i (mem_unusedOf.2 ⟨hlt, hown, fun hin => hout ?_⟩)
      rw [hused]
      exact Finset.mem_union_left _ hin

theorem logStep_tailInv (hinhabited : ∀ i < b.nTokens, b.seqSetAt i ≠ ∅) {nKeepTail : ℕ}
    (hkeep : 0 < nKeepTail) {log log' : SplitLog E} {call : SplitCall} (h : TailInv b nKeepTail log)
    (hcall : call.KeepsBack nKeepTail) (hstep : logStep b log call = some log') :
    TailInv b nKeepTail log' := by
  obtain ⟨r, hrun, hpre, hused, htail, -⟩ := split_tail hinhabited h.setPrefix hkeep hcall
  rw [logStep, hrun, Option.map_some] at hstep
  obtain rfl := Option.some.inj hstep
  exact h.step hpre hused htail

theorem run_tail (hinhabited : ∀ i < b.nTokens, b.seqSetAt i ≠ ∅) {nKeepTail : ℕ}
    (hkeep : 0 < nKeepTail) {calls : List SplitCall} {log : SplitLog E} (h : TailInv b nKeepTail log)
    (hcalls : ∀ call ∈ calls, call.KeepsBack nKeepTail) :
    ∃ log', run (logStep b) log calls = some log' := by
  induction calls generalizing log with
  | nil => exact ⟨log, rfl⟩
  | cons call calls ih =>
    have hcall := hcalls call List.mem_cons_self
    obtain ⟨r, hrun, -⟩ := split_tail hinhabited h.setPrefix hkeep hcall
    have hstep : logStep b log call = some ⟨r.1, log.ubs ++ [r.2]⟩ := by
      rw [logStep, hrun, Option.map_some]
    obtain ⟨log', hrest⟩ := ih (logStep_tailInv hinhabited hkeep h hcall hstep)
      fun c hc => hcalls c (List.mem_cons_of_mem call hc)
    exact ⟨log', by rw [run, hstep, Option.bind_some, hrest]⟩

theorem along_tailInv (hinhabited : ∀ i < b.nTokens, b.seqSetAt i ≠ ∅) {nKeepTail : ℕ}
    (hkeep : 0 < nKeepTail) {calls : List SplitCall}
    (hcalls : ∀ call ∈ calls, call.KeepsBack nKeepTail) :
    Along (logStep b) (TailInv b nKeepTail) startLog calls :=
  along_of_meets (fun _ _ _ h hcall hstep => logStep_tailInv hinhabited hkeep h hcall hstep)
    (startLog_tailInv nKeepTail) (meets_of_forall hcalls startLog)

section

variable [Zero E] {inp : BatchExt E} {nPosPerEmbd : ℕ} {allowMixed outputAll : Bool}

theorem tails_together (hinit : init nPosPerEmbd allowMixed inp outputAll = some b) {nKeepTail : ℕ}
    (hkeep : 0 < nKeepTail) {calls : List SplitCall}
    (hcalls : ∀ call ∈ calls, call.KeepsBack nKeepTail) :
    Along (logStep b) (b.TailsTogether nKeepTail) startLog calls :=
  (along_tailInv (fun _ hi => (init_prepared hinit).seqSetAt_ne hi) hkeep hcalls).mono
    fun _ h => h.together

/-- No call aborts, and a run obeys the law of the tails precisely when it never meets a
crowd. -/
theorem tailLaw_iff (hinit : init nPosPerEmbd allowMixed inp outputAll = some b) {nKeepTail : ℕ}
    (hkeep : 0 < nKeepTail) {calls : List SplitCall}
    (hcalls : ∀ call ∈ calls, call.KeepsBack nKeepTail) :
    (∃ log, run (logStep b) startLog calls = some log) ∧
      (b.TailLaw nKeepTail calls ↔
        Meets (logStep b) (fun log call => ¬ b.Crowded log.st.marks.used call) startLog calls) := by
  have hinhabited := fun i hi => (init_prepared hinit).seqSetAt_ne (i := i) hi
  have hkeeps : Meets (logStep b) (fun _ call => call.KeepsBack nKeepTail) startLog calls :=
    meets_of_forall hcalls startLog
  have hinv := along_tailInv hinhabited hkeep hcalls
  refine ⟨run_tail hinhabited hkeep (startLog_tailInv nKeepTail) hcalls, fun hlaw => ?_,
    fun hcalm => ⟨tails_together hinit hkeep hcalls, ?_⟩⟩
  · refine Meets.imp (fun log call h hboth => ?_) hinv (hlaw.2.and hkeeps)
    obtain ⟨r, hrun, -, -, -, hroom⟩ := split_tail hinhabited h.setPrefix hkeep hboth.2
    exact hroom.mp (hboth.1 r hrun).2
  · refine Meets.imp (fun log call h hboth r hr => ?_) hinv (hcalm.and hkeeps)
    obtain ⟨r', hrun, -, -, htail, hroom⟩ := split_tail hinhabited h.setPrefix hkeep hboth.2
    obtain rfl := Option.some.inj (hrun.symm.trans hr)
    exact ⟨htail, hroom.mpr hboth.1⟩

end

/-! ## Three sequences of one token -/

def threeSingles : BatchExt ℤ where
  nEmbdInp := 1
  nEmbdState := 0
  nSeqMax := 3
  mem := none
  nVocab := 10
  nEmbd := 0
  tokens := [wordToken [0] 0 zero_ne zero_nodup, wordToken [1] 0 one_ne one_nodup,
    wordToken [2] 0 (by decide) (by decide)]
  embd := []
  state := []
  embd_length := meetingAgain.embd_length
  embd_fits := by decide

def threeBatch : BatchAllocr ℤ := (init 1 false threeSingles false).get (by decide)

theorem init_threeSingles : init 1 false threeSingles false = some threeBatch :=
  (Option.some_get _).symm

/-- With a tail of one token and room for two all three come out at once. -/
theorem tailLaw_overfull : ¬ ∀ (inp : BatchExt ℤ) (b : BatchAllocr ℤ) (nKeepTail : ℕ)
    (calls : List SplitCall), init 1 false inp false = some b → 0 < nKeepTail →
    (∀ call ∈ calls, call.KeepsBack nKeepTail) → b.TailLaw nKeepTail calls := by
  intro hall
  have hread : (threeBatch.split splitReset (.equal 2 false 1)).map (fun r => r.2.nTokens) =
      some 3 := rfl
  obtain ⟨r, hrun, hthree⟩ := Option.map_eq_some_iff.mp hread
  have hlaw := hall threeSingles threeBatch 1 [.equal 2 false 1] init_threeSingles one_pos
    (by simp [SplitCall.KeepsBack])
  have hstep : logStep threeBatch startLog (.equal 2 false 1) = some ⟨r.1, [r.2]⟩ := by
    rw [logStep, startLog, hrun]
    rfl
  have hroom := ((hlaw.2 _ hstep).1 r hrun).2
  exact absurd hroom (by rw [hthree]; decide)

/-- With room for three. -/
theorem tailLaw_iff_three :
    (∃ log, run (logStep threeBatch) startLog [.equal 3 false 1, .equal 3 false 1] = some log) ∧
      (threeBatch.TailLaw 1 [.equal 3 false 1, .equal 3 false 1] ↔
        Meets (logStep threeBatch) (fun log call => ¬ threeBatch.Crowded log.st.marks.used call)
          startLog [.equal 3 false 1, .equal 3 false 1]) :=
  tailLaw_iff init_threeSingles one_pos (by simp [SplitCall.KeepsBack])

end BatchAllocr
end RocmFpx
