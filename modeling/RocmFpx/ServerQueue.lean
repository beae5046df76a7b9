import Mathlib.Data.List.Count
import Mathlib.Data.Int.Basic

/-!
The task queue of the server. Any thread may post; the main loop processes tasks and may yield,
which lets a worker process tasks while some work runs. Every section under the mutex is one step,
and so is every decision of the callback. The callback does not throw; a work that throws leaves
`yield_to_queue` after the same steps. Sleeping, idle time and logs are left out.
-/

namespace RocmFpx

/-- `server_task`; `rest` is what the queue does not look at. -/
structure ServerTask (β : Type) where
  id : ℤ
  idTarget : ℤ
  idSlot : ℤ
  isCancel : Bool
  rest : β
  deriving DecidableEq, Repr

/-- `worker_t`. -/
structure ServerWorker where
  stop : Bool
  busy : Bool
  yielding : Bool
  deriving DecidableEq, Repr

/-- `server_queue`. -/
structure ServerQueue (β : Type) where
  id : ℤ
  running : Bool
  queueTasks : List (ServerTask β)
  queueTasksDeferred : List (ServerTask β)
  queueTasksUnhandled : List (ServerTask β)
  worker : ServerWorker
  deriving DecidableEq, Repr

namespace ServerQueue

variable {β : Type} (q : ServerQueue β)

/-- `cleanup_pending_task`. -/
def cleanupPendingTask (idTarget : ℤ) : ServerQueue β :=
  { q with
    queueTasks := q.queueTasks.filter (·.id ≠ idTarget)
    queueTasksDeferred := q.queueTasksDeferred.filter (·.id ≠ idTarget)
    queueTasksUnhandled := q.queueTasksUnhandled.filter (·.id ≠ idTarget) }

/-- What both versions of `post` do with a task that has its id. -/
def push (task : ServerTask β) (front : Bool) : ServerQueue β :=
  let q := if task.isCancel then q.cleanupPendingTask task.idTarget else q
  { q with queueTasks := if front then task :: q.queueTasks else q.queueTasks ++ [task] }

/-- The multi-task version of `post` gives an id to a task that has none. -/
def assignId (task : ServerTask β) : ServerTask β × ServerQueue β :=
  if task.id = -1 then ({ task with id := q.id }, { q with id := q.id + 1 }) else (task, q)

def defer (task : ServerTask β) : ServerQueue β :=
  { q with queueTasksDeferred := q.queueTasksDeferred ++ [task] }

def popDeferredTask (idSlot : ℤ) : ServerQueue β :=
  let i := (q.queueTasksDeferred.findIdx? (·.idSlot = idSlot)).getD 0
  match q.queueTasksDeferred[i]? with
  | none => q
  | some task =>
    { q with
      queueTasks := task :: q.queueTasks
      queueTasksDeferred := q.queueTasksDeferred.eraseIdx i }

/-- The loop of `yield_to_queue` that puts the declined tasks back, the last one first. -/
def requeue : ServerQueue β :=
  { q with
    queueTasks := q.queueTasksUnhandled.reverse.foldl (fun tasks task => task :: tasks) q.queueTasks
    queueTasksUnhandled := [] }

end ServerQueue

/-! ## Threads -/

/-- Where the main thread is when it does not look for tasks: in the callback for a new task, with
the task unless it has been deferred, or in the callback that updates the slots. -/
inductive ServerCaller (β : Type) where
  | callback (hand : Option (ServerTask β))
  | slots
  deriving DecidableEq, Repr

inductive MainPhase (β : Type) where
  /-- Before the next round of `process_new_tasks`. -/
  | loop
  | running (caller : ServerCaller β)
  /-- In `yield_to_queue`, while the work runs. -/
  | working (caller : ServerCaller β)
  /-- In `yield_to_queue`, waiting for the worker. -/
  | joining (caller : ServerCaller β)
  | ended
  deriving DecidableEq, Repr

inductive WorkerPhase (β : Type) where
  | waiting
  | loop
  | callback (hand : Option (ServerTask β))
  /-- The callback has declined the task, which is not set aside yet. -/
  | declined (task : ServerTask β)
  /-- `process_new_tasks` has returned. -/
  | returned (terminated : Bool)
  | sleeping
  | leaving
  | ended
  deriving DecidableEq, Repr

/-- The queue, its two threads and what has happened so far: the tasks posted and finished, those
declined since the last yield began, the ids that were cancelled and those whose cancel is done. -/
structure ServerState (β : Type) where
  queue : ServerQueue β
  main : MainPhase β
  worker : WorkerPhase β
  posted : List (ServerTask β)
  finished : List (ServerTask β)
  declined : List (ServerTask β)
  cancelled : List ℤ
  cancelDone : List ℤ
  deriving DecidableEq, Repr

inductive ServerAction (β : Type) where
  | post (task : ServerTask β) (front : Bool)
  | postAll (tasks : List (ServerTask β)) (front : Bool)
  | getNewId
  | popDeferredTask (idSlot : ℤ)
  | terminate
  | mainTake
  | mainDefer
  | mainReturn (handled : Bool)
  | mainAgain
  | yieldBegin
  | workEnd
  | yieldEnd
  | workerWake
  | workerTake
  | workerDefer
  | workerReturn (handled : Bool)
  | workerPush
  | workerCheck
  | workerResume
  | workerLeave

namespace ServerState

variable {β : Type} (s : ServerState β)

def push (task : ServerTask β) (front : Bool) : ServerState β :=
  { s with
    queue := s.queue.push task front
    posted := s.posted ++ [task]
    cancelled := if task.isCancel then task.idTarget :: s.cancelled else s.cancelled }

/-- The loop of the multi-task `post`. -/
def pushAll (front : Bool) : ServerState β → List (ServerTask β) → ServerState β
  | s, [] => s
  | s, task :: rest =>
    let (task, queue) := s.queue.assignId task
    pushAll front ({ s with queue := queue }.push task front) rest

/-- The callback has returned true. -/
def finish (hand : Option (ServerTask β)) : ServerState β :=
  { s with
    finished := s.finished ++ hand.toList
    cancelDone := (hand.toList.filter (·.isCancel)).map (·.idTarget) ++ s.cancelDone }

/-- One step; `none` where it is not possible or an assertion fails. -/
def step : ServerAction β → Option (ServerState β)
  | .post task front => if task.id = -1 then none else some (s.push task front)
  | .postAll tasks front => some (pushAll front s tasks)
  | .getNewId => some { s with queue := { s.queue with id := s.queue.id + 1 } }
  | .popDeferredTask idSlot => some { s with queue := s.queue.popDeferredTask idSlot }
  | .terminate => some { s with queue := { s.queue with running := false } }
  | .mainTake =>
    match s.main with
    | .loop =>
      if !s.queue.running then
        some { s with
          main := .ended
          queue := { s.queue with worker := { s.queue.worker with stop := true } } }
      else
        match s.queue.queueTasks with
        | [] => some { s with main := .running .slots }
        | task :: rest =>
          some { s with
            main := .running (.callback (some task))
            queue := { s.queue with queueTasks := rest } }
    | _ => none
  | .mainDefer =>
    match s.main with
    | .running (.callback (some task)) =>
      some { s with main := .running (.callback none), queue := s.queue.defer task }
    | _ => none
  | .mainReturn handled =>
    match s.main with
    | .running (.callback hand) =>
      -- a task can only be declined while yielding
      if handled then some { s.finish hand with main := .loop } else none
    | _ => none
  | .mainAgain =>
    match s.main with
    | .running .slots => some { s with main := .loop }
    | _ => none
  | .yieldBegin =>
    match s.main with
    | .running caller =>
      if s.queue.worker.busy then none
      else some { s with
        main := .working caller
        queue := { s.queue with worker := { s.queue.worker with busy := true, yielding := true } }
        declined := [] }
    | _ => none
  | .workEnd =>
    match s.main with
    | .working caller =>
      some { s with
        main := .joining caller
        queue := { s.queue with worker := { s.queue.worker with yielding := false } } }
    | _ => none
  | .yieldEnd =>
    match s.main with
    | .joining caller =>
      if s.queue.worker.busy then none
      else some { s with main := .running caller, queue := s.queue.requeue }
    | _ => none
  | .workerWake =>
    match s.worker with
    | .waiting =>
      if s.queue.worker.stop then some { s with worker := .ended }
      else if s.queue.worker.busy then some { s with worker := .loop }
      else none
    | _ => none
  | .workerTake =>
    match s.worker with
    | .loop =>
      if !s.queue.running then some { s with worker := .returned true }
      else
        match s.queue.queueTasks with
        | [] => some { s with worker := .returned false }
        | task :: rest =>
          some { s with
            worker := .callback (some task)
            queue := { s.queue with queueTasks := rest } }
    | _ => none
  | .workerDefer =>
    match s.worker with
    | .callback (some task) =>
      some { s with worker := .callback none, queue := s.queue.defer task }
    | _ => none
  | .workerReturn handled =>
    match s.worker with
    | .callback hand =>
      if handled then some { s.finish hand with worker := .loop }
      else
        -- a declined task is left untouched
        hand.map fun task =>
          { s with worker := .declined task, declined := s.declined ++ [task] }
    | _ => none
  | .workerPush =>
    match s.worker with
    | .declined task =>
      some { s with
        worker := .loop
        queue := { s.queue with queueTasksUnhandled := s.queue.queueTasksUnhandled ++ [task] } }
    | _ => none
  | .workerCheck =>
    match s.worker with
    | .returned terminated =>
      if terminated || s.queue.worker.stop || !s.queue.worker.yielding then
        some { s with worker := .leaving }
      else if s.queue.queueTasks ≠ [] then some { s with worker := .loop }
      else some { s with worker := .sleeping }
    | _ => none
  | .workerResume =>
    match s.worker with
    | .sleeping =>
      if s.queue.worker.stop || !s.queue.running || !s.queue.worker.yielding ||
          s.queue.queueTasks ≠ [] then some { s with worker := .loop }
      else none
    | _ => none
  | .workerLeave =>
    match s.worker with
    | .leaving =>
      some { s with
        worker := .waiting
        queue := { s.queue with worker := { s.queue.worker with busy := false } } }
    | _ => none

/-- `start_loop` with nothing posted yet. -/
def start : ServerState β :=
  ⟨⟨0, true, [], [], [], ⟨false, false, false⟩⟩, .loop, .waiting, [], [], [], [], []⟩

end ServerState
end RocmFpx
