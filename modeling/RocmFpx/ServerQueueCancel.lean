import RocmFpx.ServerQueueLaws

/-!
Cancelling. A cancel removes its target from the three queues when it is posted, but not from the
hands of a thread; a task that is then deferred, or declined, comes back after its cancel.
-/

namespace RocmFpx

variable {β : Type}

namespace ServerQueue

theorem mem_held {q : ServerQueue β} {task : ServerTask β} : task ∈ q.held ↔
    task ∈ q.queueTasks ∨ task ∈ q.queueTasksDeferred ∨ task ∈ q.queueTasksUnhandled := by
  rw [held, List.mem_append, List.mem_append, or_assoc]

end ServerQueue

namespace ServerState

/-- The task that a step hands to the callback for new tasks. -/
def offered (s : ServerState β) : ServerAction β → Option (ServerTask β)
  | .mainTake =>
    match s.main with
    | .loop => if s.queue.running then s.queue.queueTasks.head? else none
    | _ => none
  | .workerTake =>
    match s.worker with
    | .loop => if s.queue.running then s.queue.queueTasks.head? else none
    | _ => none
  | _ => none

/-- No task is offered whose cancel has run to its end. -/
def Timely (s : ServerState β) (a : ServerAction β) : Prop :=
  ∀ task, s.offered a = some task → task.id ∉ s.cancelDone

/-- The task is not cancelled already, not even by itself. -/
def FreshPush (s : ServerState β) (task : ServerTask β) : Prop :=
  task.id ∉ s.cancelled ∧ (task.isCancel = true → task.id ≠ task.idTarget)

def FreshPushAll (front : Bool) : ServerState β → List (ServerTask β) → Prop
  | _, [] => True
  | s, task :: rest =>
    let (task, queue) := s.queue.assignId task
    FreshPush s task ∧ FreshPushAll front ({ s with queue := queue }.push task front) rest

/-- No task is put back into a queue, or posted, after a cancel for its id has been posted. -/
def Careful (s : ServerState β) : ServerAction β → Prop
  | .post task _ => s.FreshPush task
  | .postAll tasks front => FreshPushAll front s tasks
  | .mainDefer => ∀ task ∈ s.main.hand, task.id ∉ s.cancelled
  | .workerDefer | .workerPush => ∀ task ∈ s.worker.hand, task.id ∉ s.cancelled
  | _ => True

structure Clean (s : ServerState β) : Prop where
  held : ∀ task ∈ s.queue.held, task.id ∉ s.cancelled
  targets : ∀ task ∈ s.queue.held ++ (s.main.hand ++ s.worker.hand),
    task.isCancel = true → task.idTarget ∈ s.cancelled
  done : ∀ id ∈ s.cancelDone, id ∈ s.cancelled

variable {s s' : ServerState β}

theorem push_clean (hs : s.Clean) {task : ServerTask β} {front : Bool} (hfresh : s.FreshPush task) :
    (s.push task front).Clean := by
  have hcancelled : (s.push task front).cancelled =
    if task.isCancel then task.idTarget :: s.cancelled else s.cancelled := rfl
  have hmono : ∀ id ∈ s.cancelled, id ∈ (s.push task front).cancelled := fun id hid => by
    rw [hcancelled]
    split_ifs
    · exact List.mem_cons_of_mem _ hid
    · exact hid
  have hmem : ∀ x ∈ (s.push task front).queue.held,
      x = task ∨ x ∈ s.queue.held ∧ (task.isCancel = true → x.id ≠ task.idTarget) := by
    intro x hx
    rcases List.mem_cons.mp ((s.queue.held_push task front).mem_iff.mp hx) with rfl | hx
    · exact Or.inl rfl
    · refine Or.inr ?_
      split_ifs at hx with hcancel
      · obtain ⟨hx, hne⟩ := List.mem_filter.mp hx
        exact ⟨hx, fun _ => of_decide_eq_true hne⟩
      · exact ⟨hx, fun h => absurd h hcancel⟩
  refine ⟨fun x hx => ?_, fun x hx hcancel => ?_, fun id hid => hmono id (hs.done id hid)⟩
  · rw [hcancelled]
    rcases hmem x hx with rfl | ⟨hx, hne⟩
    · split_ifs with hcancel
      · exact List.not_mem_cons_of_ne_of_not_mem (hfresh.2 hcancel) hfresh.1
      · exact hfresh.1
    · split_ifs with hcancel
      · exact List.not_mem_cons_of_ne_of_not_mem (hne hcancel) (hs.held x hx)
      · exact hs.held x hx
  · rcases List.mem_append.mp hx with hx | hx
    · rcases hmem x hx with rfl | ⟨hx, -⟩
      · rw [hcancelled, if_pos hcancel]
        exact List.mem_cons_self
      · exact hmono _ (hs.targets x (List.mem_append_left _ hx) hcancel)
    · exact hmono _ (hs.targets x (List.mem_append_right _ hx) hcancel)

theorem assignId_clean (hs : s.Clean) (task : ServerTask β) :
    ({ s with queue := (s.queue.assignId task).2 } : ServerState β).Clean := by
  unfold ServerQueue.assignId
  split_ifs
  · exact ⟨hs.held, hs.targets, hs.done⟩
  · exact hs

theorem pushAll_clean (hs : s.Clean) {front : Bool} {tasks : List (ServerTask β)}
    (hfresh : FreshPushAll front s tasks) : (pushAll front s tasks).Clean := by
  induction tasks generalizing s with
  | nil => exact hs
  | cons task rest ih =>
    obtain ⟨hfirst, hrest⟩ := hfresh
    exact ih (push_clean (assignId_clean hs task) hfirst) hrest

theorem Clean.of_moves (hs : s.Clean) (hcancelled : s'.cancelled = s.cancelled)
    (hheld : ∀ task ∈ s'.queue.held, task ∈ s.queue.held ∨
      task ∈ s.main.hand ++ s.worker.hand ∧ task.id ∉ s.cancelled)
    (hhands : ∀ task ∈ s'.main.hand ++ s'.worker.hand,
      task ∈ s.queue.held ++ (s.main.hand ++ s.worker.hand))
    (hdone : ∀ id ∈ s'.cancelDone, id ∈ s.cancelDone ∨
      ∃ task ∈ s.main.hand ++ s.worker.hand, task.isCancel = true ∧ task.idTarget = id) :
    s'.Clean where
  held task htask := by
    rw [hcancelled]
    exact (hheld task htask).elim (hs.held task) And.right
  targets task htask hcancel := by
    rw [hcancelled]
    refine hs.targets task ?_ hcancel
    rcases List.mem_append.mp htask with htask | htask
    · exact (hheld task htask).elim (List.mem_append_left _) fun h => List.mem_append_right _ h.1
    · exact hhands task htask
  done id hid := by
    rw [hcancelled]
    rcases hdone id hid with hid | ⟨task, htask, hcancel, rfl⟩
    · exact hs.done id hid
    · exact hs.targets task (List.mem_append_right _ htask) hcancel

theorem Clean.of_hands (hs : s.Clean) (hcancelled : s'.cancelled = s.cancelled)
    (hheld : s'.queue.held = s.queue.held)
    (hhands : s'.main.hand ++ s'.worker.hand ⊆ s.main.hand ++ s.worker.hand)
    (hdone : ∀ id ∈ s'.cancelDone, id ∈ s.cancelDone ∨
      ∃ task ∈ s.main.hand ++ s.worker.hand, task.isCancel = true ∧ task.idTarget = id) :
    s'.Clean :=
  hs.of_moves hcancelled (fun _ htask => Or.inl (hheld ▸ htask))
    (fun _ htask => List.mem_append_right _ (hhands htask)) hdone

theorem finish_done {s : ServerState β} {hand : Option (ServerTask β)}
    (hhand : hand.toList ⊆ s.main.hand ++ s.worker.hand) :
    ∀ id ∈ (s.finish hand).cancelDone, id ∈ s.cancelDone ∨
      ∃ task ∈ s.main.hand ++ s.worker.hand, task.isCancel = true ∧ task.idTarget = id := by
  intro id hid
  rcases List.mem_append.mp hid with hid | hid
  · obtain ⟨task, htask, rfl⟩ := List.mem_map.mp hid
    obtain ⟨htask, hcancel⟩ := List.mem_filter.mp htask
    exact Or.inr ⟨task, hhand htask, hcancel, rfl⟩
  · exact Or.inl hid

theorem mem_of_take {q : ServerQueue β} {task : ServerTask β} {rest : List (ServerTask β)}
    (h : q.queueTasks = task :: rest) : task ∈ q.held ∧
    ∀ x ∈ ({ q with queueTasks := rest } : ServerQueue β).held, x ∈ q.held := by
  rw [held_take h]
  exact ⟨List.mem_cons_self, fun x hx => List.mem_cons_of_mem _ hx⟩

theorem step_clean (hs : s.Clean) {a : ServerAction β} (hcareful : s.Careful a)
    (h : s.step a = some s') : s'.Clean := by
  cases turn_of_step h with
  | post => exact push_clean hs hcareful
  | postAll => exact pushAll_clean hs hcareful
  | getNewId => exact ⟨hs.held, hs.targets, hs.done⟩
  | terminate => exact ⟨hs.held, hs.targets, hs.done⟩
  | @popDeferredTask idSlot =>
    refine hs.of_moves rfl (fun x hx => Or.inl ?_) (fun x hx => List.mem_append_right _ hx)
      fun id hid => Or.inl hid
    exact (s.queue.held_popDeferredTask idSlot).mem_iff.mp hx
  | mainEnd hmain =>
    exact hs.of_hands rfl rfl (List.subset_append_right _ _) fun id hid => Or.inl hid
  | mainIdle hmain =>
    exact hs.of_hands rfl rfl (List.subset_append_right _ _) fun id hid => Or.inl hid
  | @mainTake task rest hmain hrunning htake =>
    obtain ⟨hhead, hrest⟩ := mem_of_take htake
    refine hs.of_moves rfl (fun x hx => Or.inl (hrest x hx)) (fun x hx => ?_)
      fun id hid => Or.inl hid
    rcases List.mem_cons.mp hx with rfl | hx
    · exact List.mem_append_left _ hhead
    · exact List.mem_append_right _ (List.mem_append_right _ hx)
  | @mainDefer task hmain =>
    have hmine : task ∈ s.main.hand := by
      rw [hmain]
      exact List.mem_cons_self
    refine hs.of_moves rfl (fun x hx => ?_) (fun x hx => ?_) fun id hid => Or.inl hid
    · rcases List.mem_cons.mp ((s.queue.held_defer task).mem_iff.mp hx) with rfl | hx
      · exact Or.inr ⟨List.mem_append_left _ hmine, hcareful x hmine⟩
      · exact Or.inl hx
    · exact List.mem_append_right _ (List.mem_append_right _ hx)
  | mainReturn hmain =>
    refine hs.of_hands rfl rfl (List.subset_append_right _ _) (finish_done ?_)
    rw [hmain]
    exact List.subset_append_left _ _
  | mainAgain hmain =>
    exact hs.of_hands rfl rfl (List.subset_append_right _ _) fun id hid => Or.inl hid
  | yieldBegin hmain hfree =>
    refine hs.of_hands rfl rfl ?_ fun id hid => Or.inl hid
    rw [hmain]
    exact List.Subset.refl _
  | workEnd hmain =>
    refine hs.of_hands rfl rfl ?_ fun id hid => Or.inl hid
    rw [hmain]
    exact List.Subset.refl _
  | yieldEnd hmain hfree =>
    refine hs.of_moves rfl (fun x hx => Or.inl (s.queue.held_requeue.mem_iff.mp hx))
      (fun x hx => List.mem_append_right _ ?_) fun id hid => Or.inl hid
    rw [hmain]
    exact hx
  | workerStop hworker =>
    refine hs.of_hands rfl rfl ?_ fun id hid => Or.inl hid
    rw [hworker]
    exact List.Subset.refl _
  | workerWake hworker hbusy =>
    refine hs.of_hands rfl rfl ?_ fun id hid => Or.inl hid
    rw [hworker]
    exact List.Subset.refl _
  | workerReturned hworker =>
    refine hs.of_hands rfl rfl ?_ fun id hid => Or.inl hid
    rw [hworker]
    exact List.Subset.refl _
  | @workerTake task rest hworker hrunning htake =>
    obtain ⟨hhead, hrest⟩ := mem_of_take htake
    refine hs.of_moves rfl (fun x hx => Or.inl (hrest x hx)) (fun x hx => ?_)
      fun id hid => Or.inl hid
    rcases List.mem_append.mp hx with hx | hx
    · exact List.mem_append_right _ (List.mem_append_left _ hx)
    · obtain rfl := List.mem_singleton.mp hx
      exact List.mem_append_left _ hhead
  | @workerDefer task hworker =>
    have hmine : task ∈ s.worker.hand := by
      rw [hworker]
      exact List.mem_cons_self
    refine hs.of_moves rfl (fun x hx => ?_) (fun x hx => ?_) fun id hid => Or.inl hid
    · rcases List.mem_cons.mp ((s.queue.held_defer task).mem_iff.mp hx) with rfl | hx
      · exact Or.inr ⟨List.mem_append_right _ hmine, hcareful x hmine⟩
      · exact Or.inl hx
    · rw [show WorkerPhase.hand (.callback none) = ([] : List (ServerTask β)) from rfl,
        List.append_nil] at hx
      exact List.mem_append_right _ (List.mem_append_left _ hx)
  | workerReturn hworker =>
    refine hs.of_hands rfl rfl ?_ (finish_done ?_)
    · rw [show WorkerPhase.hand .loop = ([] : List (ServerTask β)) from rfl, List.append_nil]
      exact List.subset_append_left _ _
    · rw [hworker]
      exact List.subset_append_right _ _
  | workerDecline hworker =>
    refine hs.of_hands rfl rfl ?_ fun id hid => Or.inl hid
    rw [hworker]
    exact List.Subset.refl _
  | @workerPush task hworker =>
    have hmine : task ∈ s.worker.hand := by
      rw [hworker]
      exact List.mem_cons_self
    refine hs.of_moves rfl (fun x hx => ?_) (fun x hx => ?_) fun id hid => Or.inl hid
    · rcases ServerQueue.mem_held.1 hx with hx | hx | hx
      · exact Or.inl (ServerQueue.mem_held.2 (Or.inl hx))
      · exact Or.inl (ServerQueue.mem_held.2 (Or.inr (Or.inl hx)))
      · rcases List.mem_append.mp hx with hx | hx
        · exact Or.inl (ServerQueue.mem_held.2 (Or.inr (Or.inr hx)))
        · obtain rfl := List.mem_singleton.mp hx
          exact Or.inr ⟨List.mem_append_right _ hmine, hcareful x hmine⟩
    · rw [show WorkerPhase.hand .loop = ([] : List (ServerTask β)) from rfl, List.append_nil] at hx
      exact List.mem_append_right _ (List.mem_append_left _ hx)
  | @workerMove a phase hworker hphase =>
    have hnone : phase.hand = [] := by
      rcases hphase with rfl | rfl | rfl <;> rfl
    refine hs.of_hands rfl rfl ?_ fun id hid => Or.inl hid
    rw [hnone, List.append_nil]
    exact List.subset_append_left _ _
  | workerLeave hworker =>
    refine hs.of_hands rfl rfl ?_ fun id hid => Or.inl hid
    rw [hworker]
    exact List.Subset.refl _

/-! ## Runs -/

theorem offered_held {a : ServerAction β} {task : ServerTask β} (h : s.offered a = some task) :
    task ∈ s.queue.held := by
  refine ServerQueue.mem_held.2 (Or.inl (List.mem_of_head? ?_))
  unfold offered at h
  split at h
  · split at h
    · split_ifs at h
      exact h
    · nomatch h
  · split at h
    · split_ifs at h
      exact h
    · nomatch h
  · nomatch h

theorem Clean.timely (hs : s.Clean) (a : ServerAction β) : s.Timely a :=
  fun task h hdone => hs.held task (offered_held h) (hs.done _ hdone)

theorem start_clean : (start : ServerState β).Clean :=
  ⟨fun _ h => absurd h List.not_mem_nil, fun _ h => absurd h List.not_mem_nil,
    fun _ h => absurd h List.not_mem_nil⟩

theorem run_timely {acts : List (ServerAction β)} (hs : s.Clean)
    (h : GuardedRuns.Meets step Careful s acts) : GuardedRuns.Meets step Timely s acts := by
  induction acts generalizing s with
  | nil => exact trivial
  | cons a acts ih =>
    intro s' hstep
    obtain ⟨hcareful, hrest⟩ := h s' hstep
    exact ⟨hs.timely a, ih (step_clean hs hcareful hstep) hrest⟩

theorem cancelled_not_offered (acts : List (ServerAction β))
    (h : GuardedRuns.Meets step Careful start acts) : GuardedRuns.Meets step Timely start acts :=
  run_timely start_clean h

def cancelTask (id idTarget : ℤ) : ServerTask Unit := ⟨id, idTarget, -1, true, ()⟩

/-- Task 1 is cancelled while it is queued. -/
def promptCancel : List (ServerAction Unit) :=
  [.post (plainTask 1) false, .post (cancelTask 2 1) true, .mainTake]

theorem cancelled_not_offered_promptCancel : GuardedRuns.Meets step Timely start promptCancel := by
  refine cancelled_not_offered promptCancel fun s' hstep => ?_
  obtain rfl := Option.some.inj hstep
  refine ⟨⟨List.not_mem_nil, (nomatch ·)⟩, fun s' hstep => ?_⟩
  obtain rfl := Option.some.inj hstep
  exact ⟨⟨List.not_mem_nil, fun _ => by decide⟩, fun s' hstep => ⟨trivial, trivial⟩⟩

/-- Task 1 is cancelled while the main thread has it in hand, and deferred then; it is offered again
when its cancel is done. -/
def lateCancel : List (ServerAction Unit) :=
  [.post (plainTask 1) false, .mainTake, .post (cancelTask 2 1) true, .mainDefer,
    .mainReturn true, .mainTake, .mainReturn true, .popDeferredTask 0, .mainTake]

theorem lateCancel_offered : ¬ GuardedRuns.Meets step Timely start lateCancel := by
  intro h
  obtain ⟨-, h⟩ := h _ rfl
  obtain ⟨-, h⟩ := h _ rfl
  obtain ⟨-, h⟩ := h _ rfl
  obtain ⟨-, h⟩ := h _ rfl
  obtain ⟨-, h⟩ := h _ rfl
  obtain ⟨-, h⟩ := h _ rfl
  obtain ⟨-, h⟩ := h _ rfl
  obtain ⟨-, h⟩ := h _ rfl
  exact (h _ rfl).1 (plainTask 1) rfl (by decide)

end ServerState
end RocmFpx
