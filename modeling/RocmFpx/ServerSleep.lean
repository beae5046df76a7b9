import RocmFpx.GuardedRuns
import RocmFpx.ServerQueue

/-!
Sleeping of the task queue: the waits of `start_loop` and of `wait_until_no_sleep` on one condition
variable, with clients that call `wait_until_no_sleep` and then post. Every section under the mutex
is one step, and the idle time may be over at any check. While `yield_to_queue` runs, the main
thread is in neither of its waits; it is left out.
-/

namespace RocmFpx

/-- Where the main thread is in `start_loop`; on the condition variable, whether it was notified. -/
inductive LoopPhase
  | processing
  | updatingSlots
  /-- Before the lock that is taken to look for tasks. -/
  | checking
  | waiting (notified : Bool)
  | sleeping (notified : Bool)
  | ended
  deriving DecidableEq

inductive ClientPhase
  | before
  /-- In `wait_until_no_sleep`, on the condition variable. -/
  | waiting (notified : Bool)
  /-- Between `wait_until_no_sleep` and `post`. -/
  | ready
  | posted
  deriving DecidableEq

/-- The threads that wait on the condition variable. -/
inductive Waiter (n : ℕ)
  | main
  | client (i : Fin n)

structure SleepState (n : ℕ) (β : Type) where
  queue : ServerQueue β
  sleeping : Bool
  reqStopSleeping : Bool
  main : LoopPhase
  client : Fin n → ClientPhase

inductive SleepAction (n : ℕ) (β : Type)
  | mainTake
  | mainDefer (task : ServerTask β)
  | mainPopDeferred (idSlot : ℤ)
  | slotsUpdated
  | mainCheck (idle : Bool)
  | mainTimeout
  | mainWake
  | clientEnter (i : Fin n) (woken : Option (Waiter n))
  | clientWake (i : Fin n)
  | clientPost (i : Fin n) (task : ServerTask β) (front : Bool) (woken : Option (Waiter n))
  | spurious (w : Waiter n)
  | terminate

namespace SleepState

variable {n : ℕ} {β : Type} (s : SleepState n β)

def setClient (i : Fin n) (phase : ClientPhase) : SleepState n β :=
  { s with client := fun j => if j = i then phase else s.client j }

/-- The thread waits and has not been notified. -/
def blocked : Waiter n → Bool
  | .main => s.main = .waiting false ∨ s.main = .sleeping false
  | .client i => s.client i = .waiting false

def notifyMain : LoopPhase → LoopPhase
  | .waiting _ => .waiting true
  | .sleeping _ => .sleeping true
  | phase => phase

def notifyClient : ClientPhase → ClientPhase
  | .waiting _ => .waiting true
  | phase => phase

def wake : Waiter n → SleepState n β
  | .main => { s with main := notifyMain s.main }
  | .client i => s.setClient i (notifyClient (s.client i))

/-- `notify_one` wakes one of the blocked threads, if there is one. -/
def notifyOne : Option (Waiter n) → Option (SleepState n β)
  | some w => if s.blocked w then some (s.wake w) else none
  | none =>
    if s.blocked .main ∨ ∃ i, s.blocked (.client i) then none else some s

def notifyAll : SleepState n β :=
  { s with
    main := notifyMain s.main
    client := fun i => notifyClient (s.client i) }

def step : SleepAction n β → Option (SleepState n β)
  | .mainTake =>
    if s.main = .processing then
      if !s.queue.running then some { s with main := .ended }
      else
        match s.queue.queueTasks with
        | [] => some { s with main := .updatingSlots }
        | _ :: rest => some { s with queue := { s.queue with queueTasks := rest } }
    else none
  | .mainDefer task =>
    if s.main = .processing then some { s with queue := s.queue.defer task } else none
  | .mainPopDeferred idSlot =>
    if s.main = .processing ∨ s.main = .updatingSlots then
      some { s with queue := s.queue.popDeferredTask idSlot }
    else none
  | .slotsUpdated =>
    if s.main = .updatingSlots then some { s with main := .checking } else none
  | .mainCheck idle =>
    if s.main = .checking then
      if !s.queue.running || s.queue.queueTasks ≠ [] then some { s with main := .processing }
      else if idle then
        some { s with sleeping := true, reqStopSleeping := false, main := .sleeping false }
      else some { s with main := .waiting false }
    else none
  | .mainTimeout =>
    match s.main with
    | .waiting _ =>
      if s.queue.queueTasks ≠ [] || !s.queue.running then some { s with main := .processing }
      else some { s with main := .checking }
    | _ => none
  | .mainWake =>
    match s.main with
    | .waiting true =>
      if s.queue.queueTasks ≠ [] || !s.queue.running then some { s with main := .processing }
      else some { s with main := .waiting false }
    | .sleeping true =>
      -- the loop is left, and the next round of it ends
      if !s.queue.running then some { s with main := .processing }
      else if s.reqStopSleeping then
        some (notifyAll { s with reqStopSleeping := false, sleeping := false, main := .processing })
      else some { s with main := .sleeping false }
    | _ => none
  | .clientEnter i woken =>
    if s.client i = .before then
      if !s.sleeping then some (s.setClient i .ready)
      else if !s.reqStopSleeping then
        (notifyOne { s with reqStopSleeping := true } woken).map fun s =>
          s.setClient i (.waiting false)
      else some (s.setClient i (.waiting false))
    else none
  | .clientWake i =>
    if s.client i = .waiting true then
      if !s.sleeping then some (s.setClient i .ready) else some (s.setClient i (.waiting false))
    else none
  | .clientPost i task front woken =>
    if s.client i = .ready ∧ task.id ≠ -1 then
      notifyOne { s.setClient i .posted with queue := s.queue.push task front } woken
    else none
  | .spurious w => if s.blocked w then some (s.wake w) else none
  | .terminate => some (notifyAll { s with queue := { s.queue with running := false } })

/-- `start_loop` has begun, and no client has called yet. -/
def start (queue : ServerQueue β) : SleepState n β where
  queue := { queue with running := true }
  sleeping := false
  reqStopSleeping := false
  main := .processing
  client := fun _ => .before

/-- A task lies in the queue of a main thread that sleeps, and nobody is there to wake it. -/
def Stranded : Prop :=
  (∃ notified, s.main = .sleeping notified) ∧ s.reqStopSleeping = false ∧
    s.queue.queueTasks ≠ [] ∧ ∀ i, s.client i = .posted

/-- The main thread enters the sleeping state while a client is between `wait_until_no_sleep` and
`post`. -/
def SleepsOnReady (s : SleepState n β) (a : SleepAction n β) : Prop :=
  a = .mainCheck true ∧ s.main = .checking ∧ s.queue.running = true ∧ s.queue.queueTasks = [] ∧
    ∃ i, s.client i = .ready

/-! ## Sleeping without a client on its way -/

/-- While the main thread sleeps, its queue is empty and no client is about to post. -/
def Quiet (s : SleepState n β) : Prop :=
  ∀ notified, s.main = .sleeping notified →
    s.sleeping = true ∧ s.queue.queueTasks = [] ∧ ∀ i, s.client i ≠ .ready

variable {s} {s' : SleepState n β}

theorem Quiet.served (h : Quiet s) : ¬ Stranded s := by
  rintro ⟨⟨notified, hmain⟩, -, hne, -⟩
  exact hne (h notified hmain).2.1

theorem quiet_of_awake (h : ∀ notified, s.main ≠ .sleeping notified) : Quiet s :=
  fun notified hmain => absurd hmain (h notified)

/-- The main thread sleeps no more than before, the queue is the same and nobody is ready who was
not. -/
theorem Quiet.mono (h : Quiet s)
    (hmain : ∀ notified, s'.main = .sleeping notified → ∃ notified', s.main = .sleeping notified')
    (hsleeping : s'.sleeping = s.sleeping) (hqueue : s'.queue.queueTasks = s.queue.queueTasks)
    (hclient : ∀ i, s'.client i = .ready → s.client i = .ready) : Quiet s' := by
  intro notified hm
  obtain ⟨notified', hm'⟩ := hmain notified hm
  obtain ⟨hs, hq, hc⟩ := h notified' hm'
  exact ⟨hsleeping.trans hs, hqueue.trans hq, fun i hi => hc i (hclient i hi)⟩

theorem notify_sleeping {phase : LoopPhase} {notified : Bool}
    (h : notifyMain phase = .sleeping notified) : ∃ notified', phase = .sleeping notified' := by
  cases phase with
  | sleeping notified' => exact ⟨notified', rfl⟩
  | processing | updatingSlots | checking | waiting _ | ended => exact nomatch h

theorem notify_ready {phase : ClientPhase} (h : notifyClient phase = .ready) :
    phase = .ready := by
  cases phase with
  | ready => rfl
  | before | waiting _ | posted => exact nomatch h

theorem setClient_ready {i j : Fin n} {phase : ClientPhase}
    (h : (s.setClient i phase).client j = .ready) : phase = .ready ∨ s.client j = .ready := by
  unfold setClient at h
  dsimp only at h
  split_ifs at h
  · exact .inl h
  · exact .inr h

theorem Quiet.setClient (h : Quiet s) {i : Fin n} {phase : ClientPhase}
    (hphase : phase = .ready → s.client i = .ready ∨ s.sleeping = false) :
    Quiet (s.setClient i phase) := by
  intro notified hmain
  obtain ⟨hs, hq, hc⟩ := h notified hmain
  refine ⟨hs, hq, fun j hj => ?_⟩
  rcases setClient_ready hj with hready | hready
  · rcases hphase hready with hi | hawake
    · exact hc i hi
    · exact nomatch hs.symm.trans hawake
  · exact hc j hready

theorem Quiet.wake (h : Quiet s) (w : Waiter n) : Quiet (s.wake w) := by
  cases w with
  | main =>
    exact h.mono (fun _ hm => notify_sleeping hm) rfl rfl fun _ hi => hi
  | client i => exact h.setClient fun hready => .inl (notify_ready hready)

theorem Quiet.notifyOne (h : Quiet s) {woken : Option (Waiter n)}
    (hrun : s.notifyOne woken = some s') : Quiet s' := by
  cases woken with
  | some w =>
    obtain ⟨-, heq⟩ := Option.ite_none_right_eq_some.mp hrun
    exact Option.some.inj heq ▸ h.wake w
  | none =>
    obtain ⟨-, heq⟩ := Option.ite_none_left_eq_some.mp hrun
    exact Option.some.inj heq ▸ h

theorem Quiet.notifyAll (h : Quiet s) : Quiet s.notifyAll :=
  h.mono (fun _ hm => notify_sleeping hm) rfl rfl fun _ hi => notify_ready hi

theorem step_quiet {a : SleepAction n β} (h : Quiet s) (ha : ¬ SleepsOnReady s a)
    (hstep : s.step a = some s') : Quiet s' := by
  cases a with
  | mainTake =>
    obtain ⟨hmain, hstep⟩ := Option.ite_none_right_eq_some.mp hstep
    split_ifs at hstep
    · exact Option.some.inj hstep ▸ quiet_of_awake nofun
    · split at hstep
      · exact Option.some.inj hstep ▸ quiet_of_awake nofun
      · refine Option.some.inj hstep ▸ quiet_of_awake fun notified hm => ?_
        exact nomatch hmain.symm.trans hm
  | mainDefer task =>
    obtain ⟨hmain, hstep⟩ := Option.ite_none_right_eq_some.mp hstep
    refine Option.some.inj hstep ▸ quiet_of_awake fun notified hm => ?_
    exact nomatch hmain.symm.trans hm
  | mainPopDeferred idSlot =>
    obtain ⟨hmain, hstep⟩ := Option.ite_none_right_eq_some.mp hstep
    refine Option.some.inj hstep ▸ quiet_of_awake fun notified hm => ?_
    rcases hmain with hmain | hmain <;> exact nomatch hmain.symm.trans hm
  | slotsUpdated =>
    obtain ⟨-, hstep⟩ := Option.ite_none_right_eq_some.mp hstep
    exact Option.some.inj hstep ▸ quiet_of_awake nofun
  | mainCheck idle =>
    obtain ⟨hmain, hstep⟩ := Option.ite_none_right_eq_some.mp hstep
    split_ifs at hstep with hwork hidle
    · exact Option.some.inj hstep ▸ quiet_of_awake nofun
    · rw [Bool.or_eq_true, not_or, Bool.not_eq_true', Bool.not_eq_false, decide_eq_true_eq,
        not_not] at hwork
      obtain rfl := Option.some.inj hstep
      refine fun notified _ => ⟨rfl, hwork.2, fun i hi => ha ?_⟩
      exact ⟨congrArg _ hidle, hmain, hwork.1, hwork.2, i, hi⟩
    · exact Option.some.inj hstep ▸ quiet_of_awake nofun
  | mainTimeout =>
    unfold step at hstep
    dsimp only at hstep
    split at hstep
    · split_ifs at hstep
      · exact Option.some.inj hstep ▸ quiet_of_awake nofun
      · exact Option.some.inj hstep ▸ quiet_of_awake nofun
    · exact nomatch hstep
  | mainWake =>
    unfold step at hstep
    dsimp only at hstep
    split at hstep
    · split_ifs at hstep
      · exact Option.some.inj hstep ▸ quiet_of_awake nofun
      · exact Option.some.inj hstep ▸ quiet_of_awake nofun
    · rename_i hmain
      split_ifs at hstep
      · exact Option.some.inj hstep ▸ quiet_of_awake nofun
      · obtain rfl := Option.some.inj hstep
        exact Quiet.notifyAll (quiet_of_awake nofun)
      · obtain rfl := Option.some.inj hstep
        exact h.mono (fun _ _ => ⟨true, hmain⟩) rfl rfl fun _ hi => hi
    · exact nomatch hstep
  | clientEnter i woken =>
    obtain ⟨-, hstep⟩ := Option.ite_none_right_eq_some.mp hstep
    split_ifs at hstep with hawake hreq
    · refine Option.some.inj hstep ▸ h.setClient fun _ => .inr ?_
      rwa [Bool.not_eq_true'] at hawake
    · obtain ⟨s₁, hnotify, rfl⟩ := Option.map_eq_some_iff.mp hstep
      have hrequested : Quiet { s with reqStopSleeping := true } :=
        h.mono (fun notified hm => ⟨notified, hm⟩) rfl rfl fun _ hi => hi
      exact (hrequested.notifyOne hnotify).setClient nofun
    · exact Option.some.inj hstep ▸ h.setClient nofun
  | clientWake i =>
    obtain ⟨-, hstep⟩ := Option.ite_none_right_eq_some.mp hstep
    split_ifs at hstep with hawake
    · refine Option.some.inj hstep ▸ h.setClient fun _ => .inr ?_
      rwa [Bool.not_eq_true'] at hawake
    · exact Option.some.inj hstep ▸ h.setClient nofun
  | clientPost i task front woken =>
    obtain ⟨⟨hready, -⟩, hstep⟩ := Option.ite_none_right_eq_some.mp hstep
    refine Quiet.notifyOne (quiet_of_awake fun notified hm => ?_) hstep
    exact (h notified hm).2.2 i hready
  | spurious w =>
    obtain ⟨-, hstep⟩ := Option.ite_none_right_eq_some.mp hstep
    exact Option.some.inj hstep ▸ h.wake w
  | terminate =>
    refine Option.some.inj hstep ▸ Quiet.notifyAll ?_
    exact h.mono (fun notified hm => ⟨notified, hm⟩) rfl rfl fun _ hi => hi

open GuardedRuns

/-- No task is stranded in a run in which the main thread never enters the sleeping state while a
client is between `wait_until_no_sleep` and `post`. -/
theorem not_stranded (n : ℕ) (queue : ServerQueue β) (actions : List (SleepAction n β)) :
    Meets step (fun s a => ¬ SleepsOnReady s a) (start queue) actions →
      Along step (fun s => ¬ Stranded s) (start queue) actions := by
  intro hmeets
  refine Along.mono (fun s hs => hs.served) (along_of_meets
    (fun s a s' hs ha hstep => step_quiet hs ha hstep) ?_ hmeets)
  exact quiet_of_awake nofun

def postedTask : ServerTask Unit := ⟨1, -1, -1, false, ()⟩

def emptyQueue : ServerQueue Unit := ⟨2, false, [], [], [], ⟨false, false, false⟩⟩

/-- The main thread sleeps before the client calls, and is woken by it. -/
def wakingActions : List (SleepAction 1 Unit) :=
  [.mainTake, .slotsUpdated, .mainCheck true, .clientEnter (.last 0) (some .main),
    .mainWake, .clientWake (.last 0), .clientPost (.last 0) postedTask false none]

theorem not_stranded_waking :
    Along step (fun s => ¬ Stranded s) (start emptyQueue) wakingActions := by
  refine not_stranded 1 emptyQueue wakingActions ?_
  rintro s₁ ⟨⟩
  refine ⟨(fun h => by cases h.1), ?_⟩
  rintro s₂ ⟨⟩
  refine ⟨(fun h => by cases h.1), ?_⟩
  -- when the main thread goes to sleep, the client has not called yet
  rintro s₃ ⟨⟩
  refine ⟨?_, ?_⟩
  · rintro ⟨_, _, _, _, _, hready⟩
    cases hready
  rintro s₄ -
  refine ⟨(fun h => by cases h.1), ?_⟩
  rintro s₅ -
  refine ⟨(fun h => by cases h.1), ?_⟩
  rintro s₆ -
  refine ⟨(fun h => by cases h.1), ?_⟩
  rintro s₇ -
  exact ⟨(fun h => by cases h.1), trivial⟩

/-! ## A task posted right before sleeping -/

/-- The client finds the main thread awake, the idle time is over before it posts, and the main
thread, woken by the post, goes back to its wait. -/
def strandingActions : List (SleepAction 1 Unit) :=
  [.clientEnter (.last 0) none, .mainTake, .slotsUpdated, .mainCheck true,
    .clientPost (.last 0) postedTask false (some .main), .mainWake]

theorem task_stranded :
    ∃ s : SleepState 1 Unit, run step (start ⟨2, false, [], [], [], ⟨false, false, false⟩⟩)
        strandingActions = some s ∧
      s.main = .sleeping false ∧ s.sleeping = true ∧ s.queue.queueTasks = [postedTask] ∧
      Stranded s := by
  refine ⟨_, rfl, rfl, rfl, rfl, ⟨false, rfl⟩, rfl, List.cons_ne_nil _ _, ?_⟩
  decide

end SleepState
end RocmFpx
