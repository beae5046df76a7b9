import RocmFpx.ServerQueue
import RocmFpx.GuardedRuns
import Mathlib.Data.List.Perm.Basic

/-!
No task is lost or duplicated: whatever the threads do, a task that no cancel targets is in as many
places as it was posted. At the end of a yield the tasks declined during it stand in front again.
-/

namespace RocmFpx

variable {β : Type}

namespace ServerQueue

variable (q : ServerQueue β)

def held : List (ServerTask β) :=
  q.queueTasks ++ q.queueTasksDeferred ++ q.queueTasksUnhandled

theorem held_cleanup (idTarget : ℤ) :
    (q.cleanupPendingTask idTarget).held = q.held.filter (·.id ≠ idTarget) := by
  simp only [held, cleanupPendingTask, List.filter_append]

theorem push_worker (task : ServerTask β) (front : Bool) : (q.push task front).worker = q.worker := by
  cases hcancel : task.isCancel
  all_goals simp [push, hcancel, cleanupPendingTask]

theorem push_unhandled (task : ServerTask β) (front : Bool) :
    (q.push task front).queueTasksUnhandled =
      if task.isCancel then q.queueTasksUnhandled.filter (·.id ≠ task.idTarget)
      else q.queueTasksUnhandled := by
  cases hcancel : task.isCancel
  all_goals simp [push, hcancel, cleanupPendingTask]

theorem held_put (task : ServerTask β) (front : Bool) : ({ q with
    queueTasks := if front then task :: q.queueTasks else q.queueTasks ++ [task] } :
    ServerQueue β).held.Perm (task :: q.held) := by
  cases front
  · simp only [held, Bool.false_eq_true, if_false, List.append_assoc]
    exact List.perm_middle
  · exact List.Perm.refl _

theorem held_push (task : ServerTask β) (front : Bool) : (q.push task front).held.Perm
    (task :: if task.isCancel then q.held.filter (·.id ≠ task.idTarget) else q.held) := by
  cases hcancel : task.isCancel
  · simpa only [push, hcancel, Bool.false_eq_true, if_false] using q.held_put task front
  · simpa only [push, hcancel, held_cleanup, if_true] using
      (q.cleanupPendingTask task.idTarget).held_put task front

theorem held_defer (task : ServerTask β) : (q.defer task).held.Perm ([task] ++ q.held) := by
  simp only [held, defer, List.append_assoc]
  exact (List.perm_middle.append_left q.queueTasks).trans List.perm_middle

theorem popDeferredTask_unhandled (idSlot : ℤ) :
    (q.popDeferredTask idSlot).queueTasksUnhandled = q.queueTasksUnhandled := by
  unfold popDeferredTask
  dsimp only
  split
  all_goals rfl

theorem popDeferredTask_worker (idSlot : ℤ) : (q.popDeferredTask idSlot).worker = q.worker := by
  unfold popDeferredTask
  dsimp only
  split
  all_goals rfl

theorem held_popDeferredTask (idSlot : ℤ) : (q.popDeferredTask idSlot).held.Perm q.held := by
  unfold popDeferredTask
  dsimp only
  generalize (q.queueTasksDeferred.findIdx? _).getD 0 = i
  cases hi : q.queueTasksDeferred[i]? with
  | none => exact List.Perm.refl _
  | some task =>
    obtain ⟨hlt, rfl⟩ := List.getElem?_eq_some_iff.mp hi
    have hperm := List.getElem_cons_eraseIdx_perm hlt
    simp only [held, List.append_assoc, List.cons_append]
    refine List.perm_middle.symm.trans ?_
    exact (hperm.append_right q.queueTasksUnhandled).append_left q.queueTasks

theorem requeue_queueTasks : q.requeue.queueTasks = q.queueTasksUnhandled ++ q.queueTasks := by
  have hfold (tasks acc : List (ServerTask β)) :
      tasks.foldl (fun acc task => task :: acc) acc = tasks.reverse ++ acc := by
    induction tasks generalizing acc with
    | nil => rfl
    | cons task tasks ih =>
      rw [List.foldl_cons, ih, List.reverse_cons, List.append_assoc]
      rfl
  rw [requeue, hfold, List.reverse_reverse]

theorem held_requeue : q.requeue.held.Perm q.held := by
  have hrest : q.requeue.queueTasksDeferred = q.queueTasksDeferred := rfl
  have hnone : q.requeue.queueTasksUnhandled = [] := rfl
  rw [held, held, requeue_queueTasks, hrest, hnone, List.append_nil, List.append_assoc]
  exact List.perm_append_comm

end ServerQueue

namespace ServerCaller

def hand : ServerCaller β → List (ServerTask β)
  | callback hand => hand.toList
  | slots => []

end ServerCaller

namespace MainPhase

def hand : MainPhase β → List (ServerTask β)
  | running caller | working caller | joining caller => caller.hand
  | loop | ended => []

/-- The main thread is in `yield_to_queue`. -/
def inYield : MainPhase β → Bool
  | working _ | joining _ => true
  | _ => false

end MainPhase

namespace WorkerPhase

def hand : WorkerPhase β → List (ServerTask β)
  | callback hand => hand.toList
  | declined task => [task]
  | _ => []

/-- The task that is declined and not set aside yet. -/
def pending : WorkerPhase β → List (ServerTask β)
  | declined task => [task]
  | _ => []

/-- Outside the loop that processes tasks. -/
def idle : WorkerPhase β → Bool
  | waiting | ended => true
  | _ => false

theorem pending_of_idle {phase : WorkerPhase β} (h : phase.idle = true) : phase.pending = [] := by
  cases phase with
  | declined task => nomatch h
  | _ => rfl

end WorkerPhase

namespace ServerState

variable (s : ServerState β)

/-- Every place a task can be in: the three queues, the hands of the two threads, finished. -/
def places : List (ServerTask β) :=
  s.queue.held ++ (s.main.hand ++ s.worker.hand) ++ s.finished

def live (task : ServerTask β) : Bool := decide (task.id ∉ s.cancelled)

/-- A task that no cancel targets is in as many places as it was posted. -/
def Conserved [DecidableEq β] : Prop :=
  ∀ task, s.live task = true → s.places.count task = s.posted.count task

structure Inv [DecidableEq β] : Prop where
  conserved : s.Conserved
  quiet : s.main.inYield = false → s.queue.worker.busy = false ∧ s.queue.queueTasksUnhandled = []
  idle : s.queue.worker.busy = false → s.worker.idle = true
  /-- What is set aside, or about to be, is what was declined, in this order. -/
  order : s.main.inYield = true →
    (s.queue.queueTasksUnhandled ++ s.worker.pending).filter s.live = s.declined.filter s.live

/-! ## What a step does -/

/-- The turns that the queue and its threads can take. -/
inductive Turn (s : ServerState β) : ServerAction β → ServerState β → Prop
  | post {task front} : Turn s (.post task front) (s.push task front)
  | postAll {tasks front} : Turn s (.postAll tasks front) (pushAll front s tasks)
  | getNewId : Turn s .getNewId { s with queue := { s.queue with id := s.queue.id + 1 } }
  | popDeferredTask {idSlot} :
    Turn s (.popDeferredTask idSlot) { s with queue := s.queue.popDeferredTask idSlot }
  | terminate : Turn s .terminate { s with queue := { s.queue with running := false } }
  | mainEnd (hmain : s.main = .loop) : Turn s .mainTake { s with
      main := .ended
      queue := { s.queue with worker := { s.queue.worker with stop := true } } }
  | mainIdle (hmain : s.main = .loop) : Turn s .mainTake { s with main := .running .slots }
  | mainTake {task rest} (hmain : s.main = .loop) (hrunning : s.queue.running = true)
      (htake : s.queue.queueTasks = task :: rest) : Turn s .mainTake { s with
      main := .running (.callback (some task))
      queue := { s.queue with queueTasks := rest } }
  | mainDefer {task} (hmain : s.main = .running (.callback (some task))) :
    Turn s .mainDefer { s with
      main := .running (.callback none)
      queue := s.queue.defer task }
  | mainReturn {hand} (hmain : s.main = .running (.callback hand)) :
    Turn s (.mainReturn true) { s.finish hand with main := .loop }
  | mainAgain (hmain : s.main = .running .slots) : Turn s .mainAgain { s with main := .loop }
  | yieldBegin {caller} (hmain : s.main = .running caller)
      (hfree : s.queue.worker.busy = false) : Turn s .yieldBegin { s with
      main := .working caller
      queue := { s.queue with worker := { s.queue.worker with busy := true, yielding := true } }
      declined := [] }
  | workEnd {caller} (hmain : s.main = .working caller) : Turn s .workEnd { s with
      main := .joining caller
      queue := { s.queue with worker := { s.queue.worker with yielding := false } } }
  | yieldEnd {caller} (hmain : s.main = .joining caller) (hfree : s.queue.worker.busy = false) :
    Turn s .yieldEnd { s with main := .running caller, queue := s.queue.requeue }
  | workerStop (hworker : s.worker = .waiting) : Turn s .workerWake { s with worker := .ended }
  | workerWake (hworker : s.worker = .waiting) (hbusy : s.queue.worker.busy = true) :
    Turn s .workerWake { s with worker := .loop }
  | workerReturned {terminated} (hworker : s.worker = .loop) :
    Turn s .workerTake { s with worker := .returned terminated }
  | workerTake {task rest} (hworker : s.worker = .loop) (hrunning : s.queue.running = true)
      (htake : s.queue.queueTasks = task :: rest) : Turn s .workerTake { s with
      worker := .callback (some task)
      queue := { s.queue with queueTasks := rest } }
  | workerDefer {task} (hworker : s.worker = .callback (some task)) : Turn s .workerDefer { s with
      worker := .callback none
      queue := s.queue.defer task }
  | workerReturn {hand} (hworker : s.worker = .callback hand) :
    Turn s (.workerReturn true) { s.finish hand with worker := .loop }
  | workerDecline {task} (hworker : s.worker = .callback (some task)) :
    Turn s (.workerReturn false) { s with
      worker := .declined task
      declined := s.declined ++ [task] }
  | workerPush {task} (hworker : s.worker = .declined task) : Turn s .workerPush { s with
      worker := .loop
      queue := { s.queue with queueTasksUnhandled := s.queue.queueTasksUnhandled ++ [task] } }
  | workerMove {a phase} (hworker : (∃ terminated, s.worker = .returned terminated) ∨
      s.worker = .sleeping) (hphase : phase = .leaving ∨ phase = .loop ∨ phase = .sleeping) :
    Turn s a { s with worker := phase }
  | workerLeave (hworker : s.worker = .leaving) : Turn s .workerLeave { s with
      worker := .waiting
      queue := { s.queue with worker := { s.queue.worker with busy := false } } }

theorem turn_of_step {s s' : ServerState β} {a : ServerAction β} (h : s.step a = some s') :
    s.Turn a s' := by
  cases a with
  | post task front =>
    simp only [step] at h
    split_ifs at h
    exact Option.some.inj h ▸ .post
  | postAll tasks front => exact Option.some.inj h ▸ .postAll
  | getNewId => exact Option.some.inj h ▸ .getNewId
  | popDeferredTask idSlot => exact Option.some.inj h ▸ .popDeferredTask
  | terminate => exact Option.some.inj h ▸ .terminate
  | mainTake =>
    simp only [step] at h
    split at h
    · split_ifs at h with hrunning
      · exact Option.some.inj h ▸ .mainEnd ‹_›
      · split at h
        · exact Option.some.inj h ▸ .mainIdle ‹_›
        · exact Option.some.inj h ▸ .mainTake ‹_› (by simpa using hrunning) ‹_›
    · nomatch h
  | mainDefer =>
    simp only [step] at h
    split at h
    · exact Option.some.inj h ▸ .mainDefer ‹_›
    · nomatch h
  | mainReturn handled =>
    simp only [step] at h
    split at h
    · split_ifs at h with hhandled
      obtain rfl := hhandled
      exact Option.some.inj h ▸ .mainReturn ‹_›
    · nomatch h
  | mainAgain =>
    simp only [step] at h
    split at h
    · exact Option.some.inj h ▸ .mainAgain ‹_›
    · nomatch h
  | yieldBegin =>
    simp only [step] at h
    split at h
    · split_ifs at h with hbusy
      exact Option.some.inj h ▸ .yieldBegin ‹_› (Bool.eq_false_iff.mpr hbusy)
    · nomatch h
  | workEnd =>
    simp only [step] at h
    split at h
    · exact Option.some.inj h ▸ .workEnd ‹_›
    · nomatch h
  | yieldEnd =>
    simp only [step] at h
    split at h
    · split_ifs at h with hbusy
      exact Option.some.inj h ▸ .yieldEnd ‹_› (Bool.eq_false_iff.mpr hbusy)
    · nomatch h
  | workerWake =>
    simp only [step] at h
    split at h
    · split_ifs at h with hstop hbusy
      · exact Option.some.inj h ▸ .workerStop ‹_›
      · exact Option.some.inj h ▸ .workerWake ‹_› hbusy
    · nomatch h
  | workerTake =>
    simp only [step] at h
    split at h
    · split_ifs at h with hrunning
      · exact Option.some.inj h ▸ .workerReturned ‹_›
      · split at h
        · exact Option.some.inj h ▸ .workerReturned ‹_›
        · exact Option.some.inj h ▸ .workerTake ‹_› (by simpa using hrunning) ‹_›
    · nomatch h
  | workerDefer =>
    simp only [step] at h
    split at h
    · exact Option.some.inj h ▸ .workerDefer ‹_›
    · nomatch h
  | workerReturn handled =>
    simp only [step] at h
    split at h
    · split_ifs at h with hhandled
      · obtain rfl := hhandled
        exact Option.some.inj h ▸ .workerReturn ‹_›
      · obtain rfl := Bool.eq_false_iff.mpr hhandled
        obtain ⟨task, rfl, rfl⟩ := Option.map_eq_some_iff.mp h
        exact .workerDecline ‹_›
    · nomatch h
  | workerPush =>
    simp only [step] at h
    split at h
    · exact Option.some.inj h ▸ .workerPush ‹_›
    · nomatch h
  | workerCheck =>
    simp only [step] at h
    split at h
    · split_ifs at h
      · exact Option.some.inj h ▸ .workerMove (Or.inl ⟨_, ‹_›⟩) (Or.inl rfl)
      · exact Option.some.inj h ▸ .workerMove (Or.inl ⟨_, ‹_›⟩) (Or.inr (Or.inl rfl))
      · exact Option.some.inj h ▸ .workerMove (Or.inl ⟨_, ‹_›⟩) (Or.inr (Or.inr rfl))
    · nomatch h
  | workerResume =>
    simp only [step] at h
    split at h
    · split_ifs at h
      exact Option.some.inj h ▸ .workerMove (Or.inr ‹_›) (Or.inr (Or.inl rfl))
    · nomatch h
  | workerLeave =>
    simp only [step] at h
    split at h
    · exact Option.some.inj h ▸ .workerLeave ‹_›
    · nomatch h

variable {s} {s' : ServerState β} [DecidableEq β]

theorem Inv.idle_or_busy (hs : s.Inv) : s.worker.idle = true ∨ s.queue.worker.busy = true := by
  cases hbusy : s.queue.worker.busy with
  | false => exact Or.inl (hs.idle hbusy)
  | true => exact Or.inr rfl

theorem Inv.busy (hs : s.Inv) (h : s.worker.idle = false) : s.queue.worker.busy = true :=
  hs.idle_or_busy.resolve_left fun htrue => by
    rw [h] at htrue
    nomatch htrue

/-- A step that moves tasks from place to place. -/
structure Moves (s s' : ServerState β) : Prop where
  places : ∀ task, s'.places.count task = s.places.count task
  posted : s'.posted = s.posted
  cancelled : s'.cancelled = s.cancelled

theorem Moves.conserved (h : Moves s s') (hs : s.Conserved) : s'.Conserved := by
  intro task hlive
  rw [h.places, h.posted]
  refine hs task ?_
  rwa [live, h.cancelled] at hlive

theorem Moves.live_eq (h : Moves s s') : s'.live = s.live := by
  funext task
  rw [live, h.cancelled, live]

/-- A step inside or outside of a yield that leaves the declined tasks alone. -/
theorem Inv.of_moves (hs : s.Inv) (h : Moves s s') (hmain : s'.main.inYield = s.main.inYield)
    (hbusy : s'.queue.worker.busy = s.queue.worker.busy)
    (hset : s'.queue.queueTasksUnhandled ++ s'.worker.pending =
      s.queue.queueTasksUnhandled ++ s.worker.pending)
    (hquiet : s.main.inYield = false →
      s.queue.queueTasksUnhandled = [] → s'.queue.queueTasksUnhandled = [])
    (hidle : s'.worker.idle = true ∨ s.queue.worker.busy = true)
    (hdeclined : s'.declined = s.declined) : s'.Inv where
  conserved := h.conserved hs.conserved
  quiet hnot := by
    obtain ⟨hfree, hnone⟩ := hs.quiet (hmain ▸ hnot)
    exact ⟨hbusy.trans hfree, hquiet (hmain ▸ hnot) hnone⟩
  idle hfree := hidle.resolve_right fun hbusy' => by
    rw [← hbusy, hfree] at hbusy'
    nomatch hbusy'
  order hin := by
    rw [hset, hdeclined, h.live_eq]
    exact hs.order (hmain ▸ hin)

/-! ## Posting -/

omit [DecidableEq β] in
theorem push_live (task : ServerTask β) (front : Bool) (x : ServerTask β) :
    (s.push task front).live x =
      (s.live x && if task.isCancel then decide (x.id ≠ task.idTarget) else true) := by
  cases hcancel : task.isCancel
  · simp [live, push, hcancel]
  · simp [live, push, hcancel, Bool.and_comm]

theorem push_conserved (hs : s.Conserved) (task : ServerTask β) (front : Bool) :
    (s.push task front).Conserved := by
  intro x hlive
  rw [push_live, Bool.and_eq_true] at hlive
  have hsame := hs x hlive.1
  have hheld : (s.push task front).queue.held.count x = [task].count x + s.queue.held.count x := by
    rw [push, (s.queue.held_push task front).count_eq, ← List.singleton_append, List.count_append]
    congr 1
    split_ifs with hcancel
    · rw [if_pos hcancel] at hlive
      exact List.count_filter hlive.2
    · rfl
  have hrest : (s.push task front).main = s.main ∧ (s.push task front).worker = s.worker ∧
      (s.push task front).finished = s.finished ∧
      (s.push task front).posted = s.posted ++ [task] := ⟨rfl, rfl, rfl, rfl⟩
  obtain ⟨hmain, hworker, hfinished, hposted⟩ := hrest
  simp only [places, List.count_append, hheld, hmain, hworker, hfinished, hposted] at hsame ⊢
  omega

theorem push_inv (hs : s.Inv) (task : ServerTask β) (front : Bool) : (s.push task front).Inv where
  conserved := push_conserved hs.conserved task front
  quiet hnot := by
    obtain ⟨hfree, hnone⟩ := hs.quiet hnot
    rw [push, ServerQueue.push_worker, ServerQueue.push_unhandled, hnone]
    exact ⟨hfree, by split_ifs <;> rfl⟩
  idle hfree := by
    rw [push, ServerQueue.push_worker] at hfree
    exact hs.idle hfree
  order hin := by
    have hold := hs.order hin
    have hlive : (s.push task front).live = fun x => s.live x &&
        if task.isCancel then decide (x.id ≠ task.idTarget) else true := funext (push_live task front)
    have hsame : (s.push task front).worker = s.worker ∧
        (s.push task front).declined = s.declined := ⟨rfl, rfl⟩
    have hset : (s.push task front).queue.queueTasksUnhandled =
      if task.isCancel then s.queue.queueTasksUnhandled.filter (·.id ≠ task.idTarget)
      else s.queue.queueTasksUnhandled := s.queue.push_unhandled task front
    rw [hsame.1, hsame.2, hset, hlive]
    split_ifs
    · -- what the cancel removes is not live any more
      have hboth := congrArg (List.filter fun x => decide (x.id ≠ task.idTarget)) hold
      simp only [List.filter_append, List.filter_filter, Bool.and_comm,
        Bool.and_self_left] at hboth ⊢
      exact hboth
    · simpa only [Bool.and_true] using hold

theorem assignId_inv (hs : s.Inv) (task : ServerTask β) :
    ({ s with queue := (s.queue.assignId task).2 } : ServerState β).Inv := by
  unfold ServerQueue.assignId
  split_ifs
  · exact ⟨hs.conserved, hs.quiet, hs.idle, hs.order⟩
  · exact hs

theorem pushAll_inv (hs : s.Inv) (front : Bool) (tasks : List (ServerTask β)) :
    (pushAll front s tasks).Inv := by
  induction tasks generalizing s with
  | nil => exact hs
  | cons task rest ih => exact ih (push_inv (assignId_inv hs task) _ front)

/-! ## Processing -/

omit [DecidableEq β] in
theorem held_take {q : ServerQueue β} {task : ServerTask β} {rest : List (ServerTask β)}
    (h : q.queueTasks = task :: rest) :
    q.held = [task] ++ ({ q with queueTasks := rest } : ServerQueue β).held := by
  rw [ServerQueue.held, h]
  rfl

theorem count_places (task : ServerTask β) : s.places.count task = s.queue.held.count task +
    s.main.hand.count task + s.worker.hand.count task + s.finished.count task := by
  simp only [places, List.count_append, Nat.add_assoc]

theorem Inv.of_main (hs : s.Inv) (h : Moves s s') (hmain : s'.main.inYield = s.main.inYield)
    (hworker : s'.worker = s.worker) (hbusy : s'.queue.worker.busy = s.queue.worker.busy)
    (hset : s'.queue.queueTasksUnhandled = s.queue.queueTasksUnhandled)
    (hdeclined : s'.declined = s.declined) : s'.Inv :=
  hs.of_moves h hmain hbusy (by rw [hset, hworker]) (fun _ hnone => hset.trans hnone)
    (hworker ▸ hs.idle_or_busy) hdeclined

theorem Inv.of_worker (hs : s.Inv) (h : Moves s s') (hactive : s.worker.idle = false)
    (hmain : s'.main = s.main) (hbusy : s'.queue.worker.busy = s.queue.worker.busy)
    (hset : s'.queue.queueTasksUnhandled ++ s'.worker.pending =
      s.queue.queueTasksUnhandled ++ s.worker.pending)
    (hdeclined : s'.declined = s.declined) : s'.Inv := by
  have htrue := hs.busy hactive
  refine hs.of_moves h (by rw [hmain]) hbusy hset (fun hnot => ?_) (Or.inr htrue) hdeclined
  exact absurd ((hs.quiet hnot).1.symm.trans htrue) Bool.false_ne_true

theorem yieldBegin_inv (hs : s.Inv) {caller : ServerCaller β} (hmain : s.main = .running caller)
    (hfree : s.queue.worker.busy = false) : ({ s with
      main := .working caller
      queue := { s.queue with worker := { s.queue.worker with busy := true, yielding := true } }
      declined := [] } : ServerState β).Inv := by
  have hpending := WorkerPhase.pending_of_idle (hs.idle hfree)
  have hnone := (hs.quiet (by rw [hmain]; rfl)).2
  refine ⟨fun task hlive => ?_, (nomatch ·), (nomatch ·), fun _ => ?_⟩
  · rw [count_places, ← hs.conserved task hlive, count_places, hmain]
    rfl
  · simp only [hnone, hpending]
    rfl

theorem yieldEnd_inv (hs : s.Inv) {caller : ServerCaller β} (hmain : s.main = .joining caller)
    (hfree : s.queue.worker.busy = false) :
    ({ s with main := .running caller, queue := s.queue.requeue } : ServerState β).Inv := by
  refine ⟨fun task hlive => ?_, fun _ => ⟨hfree, rfl⟩, hs.idle, (nomatch ·)⟩
  rw [← hs.conserved task hlive, count_places, count_places, hmain, s.queue.held_requeue.count_eq]
  rfl

theorem workerDecline_inv (hs : s.Inv) {task : ServerTask β}
    (hworker : s.worker = .callback (some task)) : ({ s with
      worker := .declined task
      declined := s.declined ++ [task] } : ServerState β).Inv := by
  have hbusy := hs.busy (by rw [hworker]; rfl)
  refine ⟨fun x hlive => ?_, hs.quiet, fun hfree => ?_, fun hin => ?_⟩
  · rw [← hs.conserved x hlive, count_places, count_places, hworker]
    rfl
  · rw [hbusy] at hfree
    nomatch hfree
  · have hold := hs.order hin
    have hnone : (WorkerPhase.callback (some task)).pending = [] := rfl
    rw [hworker, hnone, List.append_nil] at hold
    rw [List.filter_append, List.filter_append]
    exact congrArg (· ++ [task].filter s.live) hold

theorem workerLeave_inv (hs : s.Inv) (hworker : s.worker = .leaving) : ({ s with
      worker := .waiting
      queue := { s.queue with worker := { s.queue.worker with busy := false } } } :
      ServerState β).Inv := by
  refine ⟨fun x hlive => ?_, fun hnot => ⟨rfl, (hs.quiet hnot).2⟩, fun _ => rfl, fun hin => ?_⟩
  · rw [← hs.conserved x hlive, count_places, count_places, hworker]
    rfl
  · have hold := hs.order hin
    rwa [hworker] at hold

theorem step_inv (hs : s.Inv) {a : ServerAction β} (h : s.step a = some s') : s'.Inv := by
  cases turn_of_step h with
  | post => exact push_inv hs _ _
  | postAll => exact pushAll_inv hs _ _
  | getNewId => exact ⟨hs.conserved, hs.quiet, hs.idle, hs.order⟩
  | terminate => exact ⟨hs.conserved, hs.quiet, hs.idle, hs.order⟩
  | @popDeferredTask idSlot =>
    refine hs.of_main ⟨fun task => ?_, rfl, rfl⟩ rfl rfl
      (by rw [s.queue.popDeferredTask_worker]) (s.queue.popDeferredTask_unhandled idSlot) rfl
    simp only [count_places, (s.queue.held_popDeferredTask idSlot).count_eq]
  | mainEnd hmain =>
    refine hs.of_main ⟨fun task => ?_, rfl, rfl⟩ (by rw [hmain]; rfl) rfl rfl rfl rfl
    rw [count_places, count_places, hmain]
    rfl
  | mainIdle hmain =>
    refine hs.of_main ⟨fun task => ?_, rfl, rfl⟩ (by rw [hmain]; rfl) rfl rfl rfl rfl
    rw [count_places, count_places, hmain]
    rfl
  | mainTake hmain hrunning htake =>
    refine hs.of_main ⟨fun task => ?_, rfl, rfl⟩ (by rw [hmain]; rfl) rfl rfl rfl rfl
    simp only [count_places, hmain, held_take htake, MainPhase.hand, ServerCaller.hand,
      Option.toList, List.count_append, List.count_nil]
    omega
  | @mainDefer task hmain =>
    refine hs.of_main ⟨fun x => ?_, rfl, rfl⟩ (by rw [hmain]; rfl) rfl rfl rfl rfl
    simp only [count_places, hmain, (s.queue.held_defer task).count_eq, MainPhase.hand,
      ServerCaller.hand, Option.toList, List.count_append, List.count_nil]
    omega
  | mainReturn hmain =>
    refine hs.of_main ⟨fun x => ?_, rfl, rfl⟩ (by rw [hmain]; rfl) rfl rfl rfl rfl
    simp only [count_places, hmain, finish, MainPhase.hand, ServerCaller.hand, List.count_append,
      List.count_nil]
    omega
  | mainAgain hmain =>
    refine hs.of_main ⟨fun x => ?_, rfl, rfl⟩ (by rw [hmain]; rfl) rfl rfl rfl rfl
    rw [count_places, count_places, hmain]
    rfl
  | yieldBegin hmain hfree => exact yieldBegin_inv hs hmain hfree
  | workEnd hmain =>
    refine hs.of_main ⟨fun x => ?_, rfl, rfl⟩ (by rw [hmain]; rfl) rfl rfl rfl rfl
    rw [count_places, count_places, hmain]
    rfl
  | yieldEnd hmain hfree => exact yieldEnd_inv hs hmain hfree
  | workerStop hworker =>
    refine hs.of_moves ⟨fun x => ?_, rfl, rfl⟩ rfl rfl (by rw [hworker]; rfl) (fun _ => id)
      (Or.inl rfl) rfl
    rw [count_places, count_places, hworker]
    rfl
  | workerWake hworker hbusy =>
    refine hs.of_moves ⟨fun x => ?_, rfl, rfl⟩ rfl rfl (by rw [hworker]; rfl) (fun _ => id)
      (Or.inr hbusy) rfl
    rw [count_places, count_places, hworker]
    rfl
  | workerReturned hworker =>
    refine hs.of_worker ⟨fun x => ?_, rfl, rfl⟩ (by rw [hworker]; rfl) rfl rfl
      (by rw [hworker]; rfl) rfl
    rw [count_places, count_places, hworker]
    rfl
  | workerTake hworker hrunning htake =>
    refine hs.of_worker ⟨fun x => ?_, rfl, rfl⟩ (by rw [hworker]; rfl) rfl rfl
      (by rw [hworker]; rfl) rfl
    simp only [count_places, hworker, held_take htake, WorkerPhase.hand, Option.toList,
      List.count_append, List.count_nil]
    omega
  | @workerDefer task hworker =>
    refine hs.of_worker ⟨fun x => ?_, rfl, rfl⟩ (by rw [hworker]; rfl) rfl rfl
      (by rw [hworker]; rfl) rfl
    simp only [count_places, hworker, (s.queue.held_defer task).count_eq, WorkerPhase.hand,
      Option.toList, List.count_append, List.count_nil]
    omega
  | workerReturn hworker =>
    refine hs.of_worker ⟨fun x => ?_, rfl, rfl⟩ (by rw [hworker]; rfl) rfl rfl
      (by rw [hworker]; rfl) rfl
    simp only [count_places, hworker, finish, WorkerPhase.hand, List.count_append, List.count_nil]
    omega
  | workerDecline hworker => exact workerDecline_inv hs hworker
  | workerPush hworker =>
    refine hs.of_worker ⟨fun x => ?_, rfl, rfl⟩ (by rw [hworker]; rfl) rfl rfl ?_ rfl
    · simp only [count_places, hworker, ServerQueue.held, WorkerPhase.hand, List.count_append,
        List.count_nil]
      omega
    · simp only [hworker, WorkerPhase.pending, List.append_nil]
  | workerMove hworker hphase =>
    refine hs.of_worker ⟨fun x => ?_, rfl, rfl⟩ ?_ rfl rfl ?_ rfl
    · rcases hworker with ⟨terminated, hworker⟩ | hworker <;>
        rcases hphase with rfl | rfl | rfl <;> rw [count_places, count_places, hworker] <;> rfl
    · rcases hworker with ⟨terminated, hworker⟩ | hworker <;> rw [hworker] <;> rfl
    · rcases hworker with ⟨terminated, hworker⟩ | hworker <;>
        rcases hphase with rfl | rfl | rfl <;> rw [hworker] <;> rfl
  | workerLeave hworker => exact workerLeave_inv hs hworker

theorem start_inv : (start : ServerState β).Inv :=
  ⟨fun _ _ => rfl, fun _ => ⟨rfl, rfl⟩, fun _ => rfl, fun _ => rfl⟩

theorem run_inv {acts : List (ServerAction β)} (h : GuardedRuns.run step s acts = some s')
    (hs : s.Inv) : s'.Inv := by
  induction acts generalizing s with
  | nil => exact Option.some.inj h ▸ hs
  | cons a acts ih =>
    obtain ⟨t, ht, hrest⟩ := Option.bind_eq_some_iff.mp h
    exact ih hrest (step_inv hs ht)

theorem tasks_conserved (acts : List (ServerAction β)) (s : ServerState β)
    (hrun : GuardedRuns.run step start acts = some s) : s.Conserved ∧
    ∀ s', s.step .yieldEnd = some s' → ∃ back,
      s'.queue.queueTasks = back ++ s.queue.queueTasks ∧ s'.queue.queueTasksUnhandled = [] ∧
      back.filter s.live = s.declined.filter s.live := by
  have hs := run_inv hrun start_inv
  refine ⟨hs.conserved, fun s' h => ⟨s.queue.queueTasksUnhandled, ?_⟩⟩
  simp only [step] at h
  split at h
  swap
  · nomatch h
  rename_i caller hmain
  split_ifs at h with hbusy
  obtain rfl := Option.some.inj h
  have hidle := hs.idle (Bool.eq_false_iff.mpr hbusy)
  refine ⟨s.queue.requeue_queueTasks, rfl, ?_⟩
  have hold := hs.order (by rw [hmain]; rfl)
  rwa [WorkerPhase.pending_of_idle hidle, List.append_nil] at hold

def plainTask (id : ℤ) : ServerTask Unit := ⟨id, -1, -1, false, ()⟩

/-- A yield in which task 1 is declined; task 2 is posted before it ends. -/
def decliningYield : List (ServerAction Unit) :=
  [.mainTake, .yieldBegin, .post (plainTask 1) false, .workerWake, .workerTake,
    .workerReturn false, .workerPush, .workEnd, .workerTake, .workerCheck, .workerLeave,
    .post (plainTask 2) true]

theorem tasks_conserved_decliningYield :
    ∃ s s' : ServerState Unit, GuardedRuns.run step start decliningYield = some s ∧
      s.step .yieldEnd = some s' ∧ s'.queue.queueTasks = [plainTask 1, plainTask 2] ∧
      s.Conserved ∧ ∃ back, s'.queue.queueTasks = back ++ s.queue.queueTasks ∧
        s'.queue.queueTasksUnhandled = [] ∧ back.filter s.live = s.declined.filter s.live :=
  ⟨_, _, rfl, rfl, rfl, (tasks_conserved decliningYield _ rfl).1,
    (tasks_conserved decliningYield _ rfl).2 _ rfl⟩


end ServerState
end RocmFpx
