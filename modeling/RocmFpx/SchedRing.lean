import RocmFpx.AsyncWork
import RocmFpx.GuardedRuns
import Mathlib.Data.List.FinRange

/-!
The ring of graph inputs in the backend scheduler. There are several copies of each graph input, and
the host writes the current one while earlier graphs may still read the others. A backend is a queue
of dispatched work; an event waits for what its backend was given before it was recorded. How a
graph is split is left open, and so is what is copied; what is kept are the waits.
-/

namespace RocmFpx
open AsyncWork GuardedRuns

/-- An input of a split, with the backend that has it. -/
structure SplitInput (n : ℕ) where
  backend : Fin n
  /-- `GGML_TENSOR_FLAG_INPUT`. -/
  user : Bool
  hostWeight : Bool

/-- `ggml_backend_sched_split`; `reads` says that it reads the input slot of the current copy. -/
structure Split (n : ℕ) where
  backend : Fin n
  inputs : List (SplitInput n)
  reads : Bool

/-- How an input that is not from the user gets copied. -/
inductive CopyRun
  | callback
  | async
  | blocking
  deriving DecidableEq

/-- How a split is computed: how its inputs are copied, in how many pieces it is computed with a
callback, and whether the backend takes it. -/
structure SplitRun where
  copies : ℕ → CopyRun
  pieces : ℕ
  ok : Bool

/-- What is dispatched: the copy it belongs to, and whether it reads the slot. -/
structure Dispatched where
  copy : ℕ
  reads : Bool

/-- The part of `ggml_backend_sched` that does not change. -/
structure Sched (n : ℕ) where
  nCopies : ℕ
  /-- The events that are not NULL. -/
  hasEvent : Fin n → ℕ → Bool
  umaRing : Bool

abbrev SchedWork (n : ℕ) := Work (Fin n) (Fin n × ℕ) Dispatched

namespace Sched

variable {n : ℕ} (sched : Sched n)

/-- Wait for the event of a backend and a copy, or for the backend if there is none. -/
def await (b : Fin n) (copy : ℕ) (w : SchedWork n) : SchedWork n :=
  if sched.hasEvent b copy then w.eventSynchronize b (b, copy) else w.synchronize b

/-- The loop of `ggml_backend_sched_advance_copy`. -/
def awaitCopy (copy : ℕ) (w : SchedWork n) : SchedWork n :=
  (List.finRange n).foldl (fun w b => sched.await b copy w) w

def synchronizeAll (w : SchedWork n) : SchedWork n :=
  (List.finRange n).foldl (fun w b => w.synchronize b) w

/-- `ggml_backend_sched_copy_input`. -/
def copyInput (copy : ℕ) (b : Fin n) (w : SchedWork n) (input : SplitInput n) (how : CopyRun) :
    SchedWork n :=
  if input.user then
    if !sched.umaRing && sched.hasEvent b copy then w.eventSynchronize b (b, copy)
    else w.synchronize b
  else
    -- with an event it is the backend that waits, not the host
    let w := if !sched.umaRing && sched.hasEvent b copy then w else w.synchronize b
    if input.hostWeight && how = .callback then w
    else if how = .async then w
    else sched.await b copy (w.synchronize input.backend)

/-- The weights in host memory are copied last. -/
def copyOrder (inputs : List (SplitInput n)) : List (SplitInput n) :=
  inputs.filter (!·.hostWeight) ++ inputs.filter (·.hostWeight)

def copyInputs (copy : ℕ) (split : Split n) (copies : ℕ → CopyRun) (w : SchedWork n) :
    SchedWork n :=
  (copyOrder split.inputs).zipIdx.foldl
    (fun w (input, i) => sched.copyInput copy split.backend w input (copies i)) w

/-- Without inputs, the split waits for the one before it on another backend. -/
def awaitPrevious (copy : ℕ) (prev : Option (Fin n)) (split : Split n) (w : SchedWork n) :
    SchedWork n :=
  match prev with
  | some b => if split.inputs = [] && b ≠ split.backend then sched.await b copy w else w
  | none => w

def recordEvent (copy : ℕ) (b : Fin n) (w : SchedWork n) : SchedWork n :=
  if sched.hasEvent b copy then w.record (b, copy) else w

/-- The pieces of a split, each waited for before the callback sees it. -/
def dispatchPieces (copy : ℕ) (split : Split n) : ℕ → SchedWork n → SchedWork n
  | 0, w => w
  | pieces + 1, w => dispatchPieces copy split pieces
      ((w.dispatch split.backend ⟨copy, split.reads⟩).synchronize split.backend)

/-- `ggml_backend_sched_compute_splits`, with whether all splits were computed. -/
def computeSplits (copy : ℕ) (callback : Bool) :
    Option (Fin n) → List (Split n × SplitRun) → SchedWork n → SchedWork n × Bool
  | _, [], w => (w, true)
  | prev, (split, run) :: splits, w =>
    let w := sched.copyInputs copy split run.copies (sched.awaitPrevious copy prev split w)
    let w := if callback then dispatchPieces copy split run.pieces w else w
    if !run.ok then (w, false)
    else
      let w := if callback then w else w.dispatch split.backend ⟨copy, split.reads⟩
      computeSplits copy callback (some split.backend) splits
        (sched.recordEvent copy split.backend w)

end Sched

/-- What the allocator does with the split graph: `ggml_gallocr_alloc_graph` succeeds, or the
backends are waited for and the graph is reserved, which may fail. -/
inductive AllocRun
  | fits
  | reserves
  | fails
  deriving DecidableEq

/-- The part of `ggml_backend_sched` that changes, and the work of the backends. The host may write
a graph input while `mayWrite`. -/
structure SchedState (n : ℕ) where
  isReset : Bool
  isAlloc : Bool
  curCopy : ℕ
  nextCopy : ℕ
  needsRotate : Bool
  splits : List (Split n)
  work : SchedWork n
  mayWrite : Bool

inductive SchedAction (n : ℕ)
  | allocGraph (splits : List (Split n)) (alloc : AllocRun)
  | prepareInputs
  | hostWrite
  /-- With the splits that the graph gets if it has not been allocated. -/
  | computeAsync (splits : List (Split n)) (alloc : AllocRun) (callback : Bool)
      (runs : List SplitRun)
  | synchronize
  | reset

namespace SchedState

variable {n : ℕ} (sched : Sched n) (s : SchedState n)

def advanceCopy : SchedState n :=
  let s := { s with curCopy := s.nextCopy, nextCopy := (s.nextCopy + 1) % sched.nCopies }
  if sched.nCopies ≤ 1 || !s.needsRotate then s
  else { s with work := sched.awaitCopy s.curCopy s.work }

def prepareInputs : SchedState n :=
  if sched.nCopies ≤ 1 || !s.needsRotate then s
  else { s.advanceCopy sched with needsRotate := false }

/-- `ggml_backend_sched_alloc_graph` and what it returns; the caller checks that it has not been
allocated. -/
def allocGraph (splits : List (Split n)) (alloc : AllocRun) : SchedState n × Bool :=
  let s := { s.advanceCopy sched with isReset := false, splits := splits }
  let s := if alloc = .fits then s else { s with work := Sched.synchronizeAll s.work }
  if alloc = .fails then (s, false) else ({ s with needsRotate := false, isAlloc := true }, true)

def reset : SchedState n := { s with isReset := true, isAlloc := false }

def computeSplits (callback : Bool) (runs : List SplitRun) : SchedState n :=
  let (work, ok) := sched.computeSplits s.curCopy callback none (s.splits.zip runs) s.work
  { s with work := work, needsRotate := if ok then decide (sched.nCopies > 1) else s.needsRotate }

/-- `ggml_backend_sched_graph_compute_async`. -/
def computeAsync (splits : List (Split n)) (alloc : AllocRun) (callback : Bool)
    (runs : List SplitRun) : SchedState n :=
  let s := if !s.isReset && !s.isAlloc then s.reset else s
  if !s.isAlloc then
    match s.allocGraph sched splits alloc with
    | (s, true) => s.computeSplits sched callback runs
    | (s, false) => s
  else s.computeSplits sched callback runs

def synchronize : SchedState n :=
  { s with
    work := Sched.synchronizeAll s.work
    needsRotate := false
    nextCopy := if s.isAlloc then s.nextCopy else 0 }

/-- The host may write from the return of `alloc_graph` or `prepare_inputs` to the next compute. -/
def step (s : SchedState n) : SchedAction n → Option (SchedState n)
  | .allocGraph splits alloc =>
    if s.isAlloc then none
    else
      let (s, ok) := s.allocGraph sched splits alloc
      some { s with mayWrite := ok }
  | .prepareInputs => some { s.prepareInputs sched with mayWrite := true }
  | .hostWrite => if s.mayWrite then some s else none
  | .computeAsync splits alloc callback runs =>
    if runs.length = (if s.isAlloc then s.splits else splits).length then
      some { s.computeAsync sched splits alloc callback runs with mayWrite := false }
    else none
  | .synchronize => some s.synchronize
  | .reset => some s.reset

/-- A new scheduler. -/
def start : SchedState n := ⟨true, false, 0, 0, false, [], .empty, false⟩

end SchedState
end RocmFpx

/-!
When the input ring of the scheduler is safe. Every split that was dispatched is covered by the event
of its backend and copy, so a ring that is moved with `needs_rotate` set waits for all readers of the
copy it moves to; only where it is moved, or left, without the flag can a reader be forgotten.
-/

namespace RocmFpx
open AsyncWork GuardedRuns

/-! ## Waits -/

namespace Sched

variable {n : ℕ} (sched : Sched n)

def event (x : Item (Fin n) Dispatched) : Option (Fin n × ℕ) :=
  if sched.hasEvent x.queue x.tag.copy then some (x.queue, x.tag.copy) else none

variable {sched} {w : SchedWork n}

theorem await_settles (h : w.Sound sched.event) (b : Fin n) (copy : ℕ) :
    w.Settles (sched.await b copy w) := by
  unfold await
  split
  · exact Work.eventSynchronize_settles w b _
  · exact Work.synchronize_settles h b

theorem await_done (h : w.Sound sched.event) {x : Item (Fin n) Dispatched} (hx : x ∈ w.items) :
    (sched.await x.queue x.tag.copy w).Done x := by
  unfold await
  split
  next hevent => exact Work.done_eventSynchronize (h.covered x hx _ (if_pos hevent))
  next => exact Work.done_synchronize (h.numbered x hx) (.inr rfl)

theorem awaitCopy_settles (h : w.Sound sched.event) (copy : ℕ) :
    w.Settles (sched.awaitCopy copy w) ∧
      ∀ x ∈ w.items, x.tag.copy = copy → (sched.awaitCopy copy w).Done x := by
  obtain ⟨hsettles, hdone⟩ := Work.foldl_settles
    (P := fun x : Item (Fin n) Dispatched => x.tag.copy = copy)
    (fun w b hw => await_settles hw b copy)
    (fun w hw x hx hcopy => hcopy ▸ await_done hw hx) h (List.finRange n)
  exact ⟨hsettles, fun x hx hcopy => hdone x hx hcopy (List.mem_finRange x.queue)⟩

theorem synchronizeAll_settles (h : w.Sound sched.event) :
    w.Settles (synchronizeAll w) ∧ ∀ x ∈ w.items, (synchronizeAll w).Done x := by
  obtain ⟨hsettles, hdone⟩ := Work.foldl_settles (P := fun _ : Item (Fin n) Dispatched => True)
    (fun w b hw => Work.synchronize_settles hw b)
    (fun w hw x hx _ => Work.done_synchronize (hw.numbered x hx) (.inr rfl)) h (List.finRange n)
  exact ⟨hsettles, fun x hx => hdone x hx trivial (List.mem_finRange x.queue)⟩

theorem copyInput_sound (h : w.Sound sched.event) (copy : ℕ) (b : Fin n) (input : SplitInput n)
    (how : CopyRun) : (sched.copyInput copy b w input how).Sound sched.event := by
  have hself : (w.synchronize b).Sound sched.event := (Work.synchronize_settles h b).sound h
  have hevent : (w.eventSynchronize b (b, copy)).Sound sched.event :=
    (Work.eventSynchronize_settles w b _).sound h
  have hinner : (if !sched.umaRing && sched.hasEvent b copy then w
      else w.synchronize b).Sound sched.event := by
    split
    · exact h
    · exact hself
  simp only [copyInput]
  split
  · split
    · exact hevent
    · exact hself
  · split
    · exact hinner
    · split
      · exact hinner
      · have hinput := (Work.synchronize_settles hinner input.backend).sound hinner
        exact (await_settles hinput b copy).sound hinput

theorem copyInputs_sound (h : w.Sound sched.event) (copy : ℕ) (split : Split n)
    (copies : ℕ → CopyRun) : (sched.copyInputs copy split copies w).Sound sched.event := by
  unfold copyInputs
  induction (copyOrder split.inputs).zipIdx generalizing w with
  | nil => exact h
  | cons input inputs ih => exact ih (copyInput_sound h copy split.backend input.1 _)

theorem awaitPrevious_sound (h : w.Sound sched.event) (copy : ℕ) (prev : Option (Fin n))
    (split : Split n) : (sched.awaitPrevious copy prev split w).Sound sched.event := by
  unfold awaitPrevious
  split
  · split
    · exact (await_settles h _ copy).sound h
    · exact h
  · exact h

theorem dispatchPieces_sound (h : w.Sound sched.event) (copy : ℕ) (split : Split n) (pieces : ℕ) :
    (dispatchPieces copy split pieces w).Sound sched.event := by
  induction pieces generalizing w with
  | zero => exact h
  | succ pieces ih => exact ih (Work.dispatch_synchronize_sound h split.backend _)

theorem recordEvent_sound (h : w.Sound sched.event) (copy : ℕ) (b : Fin n) :
    (sched.recordEvent copy b w).Sound sched.event := by
  unfold recordEvent
  split
  · exact Work.record_sound h _
  · exact h

theorem dispatch_recordEvent_sound (h : w.Sound sched.event) (copy : ℕ) (b : Fin n) (reads : Bool) :
    (sched.recordEvent copy b (w.dispatch b ⟨copy, reads⟩)).Sound sched.event := by
  refine Work.dispatch_sound h b ⟨copy, reads⟩ (fun e he => ?_) fun hnone => ?_
  · simp only [event] at he
    split_ifs at he with hevent
    rw [recordEvent, if_pos hevent, Option.some.inj he]
  · simp only [event] at hnone
    split_ifs at hnone with hevent
    rw [recordEvent, if_neg hevent]

theorem computeSplits_sound (h : w.Sound sched.event) (copy : ℕ) (callback : Bool)
    (prev : Option (Fin n)) (splits : List (Split n × SplitRun)) :
    (sched.computeSplits copy callback prev splits w).1.Sound sched.event := by
  induction splits generalizing prev w with
  | nil => exact h
  | cons head splits ih =>
    obtain ⟨split, run⟩ := head
    have hcopied : (sched.copyInputs copy split run.copies
        (sched.awaitPrevious copy prev split w)).Sound sched.event :=
      copyInputs_sound (awaitPrevious_sound h copy prev split) copy split run.copies
    rw [computeSplits]
    cases callback with
    | true =>
      have hpieces := dispatchPieces_sound hcopied copy split run.pieces
      simp only [if_true]
      split
      · exact hpieces
      · exact ih (recordEvent_sound hpieces copy split.backend) _
    | false =>
      simp only [Bool.false_eq_true, if_false]
      split
      · exact hcopied
      · exact ih (dispatch_recordEvent_sound hcopied copy split.backend split.reads) _

end Sched

/-! ## Runs -/

namespace SchedState

variable {n : ℕ} {sched : Sched n} {s s' : SchedState n} {a : SchedAction n}

/-- Everything dispatched that reads the slots of a copy has been waited for. -/
def Clear (w : SchedWork n) (copy : ℕ) : Prop :=
  ∀ x ∈ w.items, x.tag.copy = copy → x.tag.reads = true → w.Done x

/-- The host does not write what is read. -/
def Safe (s : SchedState n) : Prop := s.mayWrite = true → Clear s.work s.curCopy

/-- The ring is moved without waiting, to a copy that is still read, or is not moved off one. -/
def MovesUnwaited (s : SchedState n) (a : SchedAction n) : Prop :=
  s.needsRotate = false ∧
    ((∃ splits, a = .allocGraph splits .fits ∧ ¬ Clear s.work s.nextCopy) ∨
      a = .prepareInputs ∧ ¬ Clear s.work s.curCopy)

theorem Clear.settles {w w' : SchedWork n} {copy : ℕ} (h : Clear w copy) (hw : w.Settles w') :
    Clear w' copy := by
  intro x hx hcopy hreads
  rw [hw.items] at hx
  exact hw.done x hx (h x hx hcopy hreads)

/-- The work is covered by events, and the ring only has to rotate when there is one. -/
structure Inv (sched : Sched n) (s : SchedState n) : Prop where
  sound : s.work.Sound sched.event
  ring : s.needsRotate = true → 1 < sched.nCopies

theorem start_inv : Inv sched (start : SchedState n) := ⟨Work.empty_sound, nofun⟩

/-- With the flag set, the ring moves to a copy that nobody reads; without it, nobody is waited
for. -/
theorem advanceCopy_spec (h : Inv sched s) :
    (s.advanceCopy sched).curCopy = s.nextCopy ∧
      (s.advanceCopy sched).needsRotate = s.needsRotate ∧
      s.work.Settles (s.advanceCopy sched).work ∧
      if s.needsRotate then Clear (s.advanceCopy sched).work s.nextCopy
      else (s.advanceCopy sched).work = s.work := by
  cases hrotate : s.needsRotate with
  | false =>
    have heq : (s.advanceCopy sched).work = s.work := by simp [advanceCopy, hrotate]
    refine ⟨?_, ?_, heq ▸ .refl _, heq⟩ <;> simp [advanceCopy, hrotate]
  | true =>
    have hmany : ¬ sched.nCopies ≤ 1 := Nat.not_le.mpr (h.ring hrotate)
    obtain ⟨hsettles, hdone⟩ := Sched.awaitCopy_settles h.sound s.nextCopy
    have hwork : (s.advanceCopy sched).work = sched.awaitCopy s.nextCopy s.work := by
      simp [advanceCopy, hrotate, hmany]
    rw [hwork]
    refine ⟨?_, ?_, hsettles, fun x hx hcopy _ => hdone x (hsettles.items ▸ hx) hcopy⟩ <;>
      simp [advanceCopy, hrotate, hmany]

theorem advanceCopy_inv (h : Inv sched s) : Inv sched (s.advanceCopy sched) := by
  obtain ⟨-, hrotate, hsettles, -⟩ := advanceCopy_spec h
  exact ⟨hsettles.sound h.sound, hrotate ▸ h.ring⟩

theorem prepareInputs_inv (h : Inv sched s) : Inv sched (s.prepareInputs sched) := by
  unfold prepareInputs
  split
  · exact h
  · exact ⟨(advanceCopy_inv h).sound, nofun⟩

theorem prepareInputs_clear (h : Inv sched s) :
    Clear (s.prepareInputs sched).work (s.prepareInputs sched).curCopy ↔
      s.needsRotate = true ∨ Clear s.work s.curCopy := by
  obtain ⟨hcopy, -, -, hclear⟩ := advanceCopy_spec h
  cases hrotate : s.needsRotate with
  | false =>
    have heq : s.prepareInputs sched = s := by simp [prepareInputs, hrotate]
    rw [heq]
    exact (or_iff_right Bool.false_ne_true).symm
  | true =>
    have hmany : ¬ sched.nCopies ≤ 1 := Nat.not_le.mpr (h.ring hrotate)
    have heq : s.prepareInputs sched = { s.advanceCopy sched with needsRotate := false } := by
      simp [prepareInputs, hrotate, hmany]
    rw [hrotate, if_pos rfl, ← hcopy] at hclear
    rw [heq]
    exact iff_of_true hclear (.inl rfl)

theorem allocGraph_inv (h : Inv sched s) (splits : List (Split n)) (alloc : AllocRun) :
    Inv sched (s.allocGraph sched splits alloc).1 := by
  have hadvanced := advanceCopy_inv h
  have hwaited := (Sched.synchronizeAll_settles hadvanced.sound).1.sound hadvanced.sound
  cases alloc with
  | fits => exact ⟨hadvanced.sound, nofun⟩
  | reserves => exact ⟨hwaited, nofun⟩
  | fails => exact ⟨hwaited, hadvanced.ring⟩

theorem allocGraph_clear (h : Inv sched s) (splits : List (Split n)) (alloc : AllocRun) :
    Clear (s.allocGraph sched splits alloc).1.work (s.allocGraph sched splits alloc).1.curCopy ↔
      s.needsRotate = true ∨ alloc ≠ .fits ∨ Clear s.work s.nextCopy := by
  obtain ⟨hcopy, -, -, hclear⟩ := advanceCopy_spec h
  obtain ⟨hsettles, hdone⟩ := Sched.synchronizeAll_settles (advanceCopy_inv h).sound
  have hwaited : ∀ copy, Clear (Sched.synchronizeAll (s.advanceCopy sched).work) copy :=
    fun copy x hx _ _ => hdone x (hsettles.items ▸ hx)
  cases alloc with
  | reserves | fails => exact iff_of_true (hwaited _) (.inr (.inl nofun))
  | fits =>
    change Clear (s.advanceCopy sched).work (s.advanceCopy sched).curCopy ↔ _
    rw [hcopy]
    cases hrotate : s.needsRotate with
    | true =>
      rw [hrotate, if_pos rfl] at hclear
      exact iff_of_true hclear (.inl rfl)
    | false =>
      rw [hrotate, if_neg Bool.false_ne_true] at hclear
      rw [hclear]
      simp

theorem computeSplits_inv (h : Inv sched s) (callback : Bool) (runs : List SplitRun) :
    Inv sched (s.computeSplits sched callback runs) := by
  refine ⟨Sched.computeSplits_sound h.sound s.curCopy callback none (s.splits.zip runs), fun hr => ?_⟩
  simp only [computeSplits] at hr
  split_ifs at hr
  · exact of_decide_eq_true hr
  · exact h.ring hr

theorem computeAsync_inv (h : Inv sched s) (splits : List (Split n)) (alloc : AllocRun)
    (callback : Bool) (runs : List SplitRun) :
    Inv sched (s.computeAsync sched splits alloc callback runs) := by
  have hreset : Inv sched (if !s.isReset && !s.isAlloc then s.reset else s) := by
    split
    · exact ⟨h.sound, h.ring⟩
    · exact h
  simp only [computeAsync]
  generalize (if !s.isReset && !s.isAlloc then s.reset else s) = t at hreset ⊢
  split
  · have halloc := allocGraph_inv hreset splits alloc
    generalize t.allocGraph sched splits alloc = allocated at halloc ⊢
    obtain ⟨u, ok⟩ := allocated
    cases ok with
    | true => exact computeSplits_inv halloc callback runs
    | false => exact halloc
  · exact computeSplits_inv hreset callback runs

theorem step_inv (h : Inv sched s) (hstep : step sched s a = some s') : Inv sched s' := by
  cases a with
  | allocGraph splits alloc =>
    simp only [step] at hstep
    split_ifs at hstep
    cases hstep
    have halloc := allocGraph_inv h splits alloc
    exact ⟨halloc.sound, halloc.ring⟩
  | prepareInputs =>
    cases hstep
    have hprepared := prepareInputs_inv h
    exact ⟨hprepared.sound, hprepared.ring⟩
  | hostWrite =>
    simp only [step] at hstep
    split_ifs at hstep
    cases hstep
    exact h
  | computeAsync splits alloc callback runs =>
    simp only [step] at hstep
    split_ifs at hstep
    all_goals
      cases hstep
      have hcomputed := computeAsync_inv h splits alloc callback runs
      exact ⟨hcomputed.sound, hcomputed.ring⟩
  | synchronize =>
    cases hstep
    exact ⟨(Sched.synchronizeAll_settles h.sound).1.sound h.sound, nofun⟩
  | reset =>
    cases hstep
    exact ⟨h.sound, h.ring⟩

theorem movesUnwaited_alloc {splits : List (Split n)} {alloc : AllocRun} :
    MovesUnwaited s (.allocGraph splits alloc) ↔
      s.needsRotate = false ∧ alloc = .fits ∧ ¬ Clear s.work s.nextCopy := by
  constructor
  · rintro ⟨hrotate, ⟨_, heq, hclear⟩ | ⟨heq, -⟩⟩
    · cases heq
      exact ⟨hrotate, rfl, hclear⟩
    · exact nomatch heq
  · rintro ⟨hrotate, rfl, hclear⟩
    exact ⟨hrotate, .inl ⟨splits, rfl, hclear⟩⟩

theorem movesUnwaited_prepare :
    MovesUnwaited s .prepareInputs ↔ s.needsRotate = false ∧ ¬ Clear s.work s.curCopy := by
  constructor
  · rintro ⟨hrotate, ⟨_, heq, -⟩ | ⟨-, hclear⟩⟩
    · exact nomatch heq
    · exact ⟨hrotate, hclear⟩
  · exact fun ⟨hrotate, hclear⟩ => ⟨hrotate, .inr ⟨rfl, hclear⟩⟩

theorem step_safe (h : Inv sched s) (hsafe : Safe s) (hstep : step sched s a = some s') :
    Safe s' ↔ ¬ MovesUnwaited s a := by
  have hother : (∀ splits alloc, a ≠ .allocGraph splits alloc) → a ≠ .prepareInputs →
      ¬ MovesUnwaited s a := by
    rintro halloc hprepare ⟨-, ⟨splits, heq, -⟩ | ⟨heq, -⟩⟩
    · exact halloc _ _ heq
    · exact hprepare heq
  cases a with
  | allocGraph splits alloc =>
    simp only [step] at hstep
    split_ifs at hstep
    cases hstep
    rw [movesUnwaited_alloc]
    have hclear := allocGraph_clear h splits alloc
    cases alloc with
    | fails => exact iff_of_true nofun (fun hmoves => nomatch hmoves.2.1)
    | reserves =>
      exact iff_of_true (fun _ => hclear.mpr (.inr (.inl nofun))) (fun hmoves => nomatch hmoves.2.1)
    | fits =>
      constructor
      · rintro hs ⟨hrotate, -, hread⟩
        rcases hclear.mp (hs rfl) with hset | hne | hnext
        · exact Bool.false_ne_true (hrotate.symm.trans hset)
        · exact hne rfl
        · exact hread hnext
      · intro hs _
        refine hclear.mpr ?_
        by_cases hrotate : s.needsRotate = true
        · exact .inl hrotate
        · have hnext := not_and.mp hs (Bool.eq_false_iff.mpr hrotate)
          exact .inr (.inr (not_not.mp (not_and.mp hnext rfl)))
  | prepareInputs =>
    cases hstep
    rw [movesUnwaited_prepare]
    have hclear := prepareInputs_clear h
    constructor
    · rintro hs ⟨hrotate, hread⟩
      rcases hclear.mp (hs rfl) with hset | hcur
      · exact Bool.false_ne_true (hrotate.symm.trans hset)
      · exact hread hcur
    · intro hs _
      refine hclear.mpr ?_
      by_cases hrotate : s.needsRotate = true
      · exact .inl hrotate
      · exact .inr (not_not.mp (not_and.mp hs (Bool.eq_false_iff.mpr hrotate)))
  | hostWrite =>
    simp only [step] at hstep
    split_ifs at hstep
    cases hstep
    exact iff_of_true hsafe (hother nofun nofun)
  | computeAsync splits alloc callback runs =>
    simp only [step] at hstep
    split_ifs at hstep
    all_goals
      cases hstep
      exact iff_of_true nofun (hother nofun nofun)
  | synchronize =>
    cases hstep
    refine iff_of_true (fun hwrite => ?_) (hother nofun nofun)
    exact (hsafe hwrite).settles (Sched.synchronizeAll_settles h.sound).1
  | reset =>
    cases hstep
    exact iff_of_true hsafe (hother nofun nofun)

/-- The input ring is safe in a run precisely when it is never moved, or left, with the flag clear
and a reader unwaited. -/
theorem ring_safe_iff (sched : Sched n) (actions : List (SchedAction n)) :
    Along (step sched) Safe start actions ↔
      Meets (step sched) (fun s a => ¬ MovesUnwaited s a) start actions :=
  along_iff_meets_within (fun _ _ _ h hstep => step_inv h hstep)
    (fun _ _ _ h hsafe hstep => step_safe h hsafe hstep) start_inv nofun

/-! ## A graph allocated twice -/

/-- Two copies, one backend with events. -/
def twoCopies : Sched 1 := ⟨2, fun _ _ => true, true⟩

def readingSplit : Split 1 := ⟨0, [], true⟩

/-- A graph is computed on the first copy, and two more are allocated before the next compute. -/
def allocatedTwice : List (SchedAction 1) :=
  [.allocGraph [readingSplit] .fits, .computeAsync [] .fits false [⟨fun _ => .async, 0, true⟩],
    .reset, .allocGraph [readingSplit] .fits, .reset, .allocGraph [readingSplit] .fits]

theorem allocatedTwice_unsafe : ∃ s, run (step twoCopies) start allocatedTwice = some s ∧
    s.mayWrite = true ∧ s.work.items.map (fun x => (x.tag.copy, x.tag.reads)) = [(s.curCopy, true)] ∧
    s.work.waited 0 = 0 ∧ ¬ Safe s := by
  refine ⟨_, rfl, rfl, rfl, rfl, fun h => ?_⟩
  exact Nat.lt_irrefl 0 (h rfl _ (List.mem_singleton.mpr rfl) rfl rfl)

end SchedState
end RocmFpx
