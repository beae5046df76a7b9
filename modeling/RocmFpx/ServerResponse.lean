import RocmFpx.GuardedRuns
import Mathlib.Data.Finset.Card
import Mathlib.Data.Fintype.Basic

/-!
The result queue of the server. Readers register the ids of their tasks, slots send or broadcast
results, and a receive call takes the first result of one of its ids. Every section under the mutex
is one step; `stop` is several. The ids of a reader come from `get_new_id`, so two readers in use
never share one. What `stop` posts to the task queue, `terminate` and logs are left out.
-/

namespace RocmFpx

/-- `server_task_result`; `rest` is what the queue and the readers do not look at. -/
structure TaskResult (β : Type) where
  id : ℤ
  index : ℕ
  isError : Bool
  isStop : Bool
  rest : β
  deriving DecidableEq, Repr

/-- A result in the queue, with the number of results that entered before it. -/
structure QueuedResult (β : Type) extends TaskResult β where
  serial : ℕ
  deriving DecidableEq, Repr

/-- Where a reader is: in `stop` with the ids it has still to remove, or before `stop` after an
error. -/
inductive ReaderPhase
  | running
  | failed
  | removing (ids : List ℤ)
  deriving DecidableEq, Repr

/-- `server_response_reader`; `returned` says that a `stop` has returned. -/
structure ResponseReader where
  idTasks : Finset ℤ
  receivedCount : ℕ
  cancelled : Bool
  phase : ReaderPhase
  returned : Bool

namespace ResponseReader

variable (rd : ResponseReader)

def hasNext : Prop := rd.cancelled = false ∧ rd.receivedCount < rd.idTasks.card

instance : Decidable rd.hasNext := inferInstanceAs (Decidable (_ ∧ _))

/-- It has begun a `stop` that has not returned. -/
def inStop : Bool :=
  match rd.phase with
  | .removing _ => true
  | _ => false

def new : ResponseReader := ⟨∅, 0, false, .running, true⟩

end ResponseReader

/-- `server_response` with its readers. `sent`, `received` and `removed` are histories: the results
that entered the queue, those taken with the ids of the call, and those dropped with the id that was
removed. -/
structure ServerResponse (ρ β : Type) where
  waitingTaskIds : Finset ℤ
  queueResults : List (QueuedResult β)
  reader : ρ → ResponseReader
  sent : List (QueuedResult β)
  received : List (Finset ℤ × QueuedResult β)
  removed : List (ℤ × QueuedResult β)

inductive ResponseAction (ρ β : Type)
  /-- `post_task` and `post_tasks`. -/
  | post (r : ρ) (ids : Finset ℤ)
  | send (result : TaskResult β)
  /-- The ids in the order in which the set is walked. -/
  | broadcast (result : TaskResult β) (ids : List ℤ)
  /-- `recv`, and `recv_with_timeout` when it returns a result. -/
  | recv (ids : Finset ℤ)
  | recvTimeout (ids : Finset ℤ)
  /-- `next` of a reader, when it returns a result. -/
  | next (r : ρ)
  /-- The first section of `stop`. -/
  | stop (r : ρ) (ids : List ℤ)
  /-- The next call of `remove_waiting_task_id` in `stop`. -/
  | stopRemove (r : ρ)
  | stopReturn (r : ρ)

namespace ServerResponse

variable {ρ β : Type} (s : ServerResponse ρ β)

def setReader [DecidableEq ρ] (r : ρ) (rd : ResponseReader) : ServerResponse ρ β :=
  { s with reader := fun r' => if r' = r then rd else s.reader r' }

/-- `queue_results.emplace_back`. -/
def emplaceBack (result : TaskResult β) : ServerResponse ρ β :=
  let queued := { result with serial := s.sent.length }
  { s with queueResults := s.queueResults ++ [queued], sent := s.sent ++ [queued] }

def send (result : TaskResult β) : ServerResponse ρ β :=
  if result.id ∈ s.waitingTaskIds then s.emplaceBack result else s

def broadcast (result : TaskResult β) (ids : List ℤ) : ServerResponse ρ β :=
  ids.foldl (fun s id => s.emplaceBack { result with id := id }) s

def removeWaitingTaskIds (ids : Finset ℤ) : ServerResponse ρ β :=
  { s with waitingTaskIds := s.waitingTaskIds \ ids }

def removeWaitingTaskId (id : ℤ) : ServerResponse ρ β :=
  { s with
    waitingTaskIds := s.waitingTaskIds.erase id
    queueResults := s.queueResults.filter (·.id ≠ id)
    removed := s.removed ++ (s.queueResults.filter (·.id = id)).map (id, ·) }

/-- The first result of one of the ids, taken out of the queue. -/
def take (ids : Finset ℤ) : Option (QueuedResult β × ServerResponse ρ β) :=
  (s.queueResults.find? (·.id ∈ ids)).map fun result =>
    (result, { s with
      queueResults := s.queueResults.eraseP (·.id ∈ ids)
      received := s.received ++ [(ids, result)] })

/-- What `next` does with a result. -/
def afterNext [DecidableEq ρ] (r : ρ) (result : TaskResult β) : Option (ServerResponse ρ β) :=
  let rd := s.reader r
  if result.isError then some (s.setReader r { rd with phase := .failed })
  -- there is one state for each id
  else if rd.idTasks ≠ ∅ ∧ rd.idTasks.card ≤ result.index then none
  else if result.isStop then some (s.setReader r { rd with receivedCount := rd.receivedCount + 1 })
  else some s

def step [DecidableEq ρ] [Fintype ρ] (s : ServerResponse ρ β) :
    ResponseAction ρ β → Option (ServerResponse ρ β)
  | .post r ids =>
    let rd := s.reader r
    if rd.idTasks = ∅ ∧ rd.phase = .running ∧
        ∀ r', (s.reader r').returned = false → Disjoint (s.reader r').idTasks ids then
      some { s.setReader r { rd with idTasks := ids, returned := false } with
        waitingTaskIds := s.waitingTaskIds ∪ ids }
    else none
  | .send result => some (s.send result)
  | .broadcast result ids =>
    if ids.Nodup ∧ ids.toFinset = s.waitingTaskIds then some (s.broadcast result ids) else none
  | .recv ids => (s.take ids).map (·.2)
  | .recvTimeout _ => some s
  | .next r =>
    if (s.reader r).phase = .running then
      (s.take (s.reader r).idTasks).bind fun (result, s) => s.afterNext r result.toTaskResult
    else none
  | .stop r ids =>
    let rd := s.reader r
    if rd.inStop = false ∧ ids.Nodup ∧ ids.toFinset = rd.idTasks then
      let s := s.removeWaitingTaskIds rd.idTasks
      if rd.hasNext then some (s.setReader r { rd with cancelled := true, phase := .removing ids })
      else some (s.setReader r { rd with phase := .running, returned := true })
    else none
  | .stopRemove r =>
    match (s.reader r).phase with
    | .removing (id :: ids) =>
      some ((s.removeWaitingTaskId id).setReader r { s.reader r with phase := .removing ids })
    | _ => none
  | .stopReturn r =>
    match (s.reader r).phase with
    | .removing [] =>
      some (s.setReader r { s.reader r with phase := .running, returned := true })
    | _ => none

def start : ServerResponse ρ β := ⟨∅, [], fun _ => .new, [], [], []⟩

end ServerResponse
end RocmFpx

/-!
Which receive call gets a result. What enters the queue is received once, dropped with its id, or
still there, whatever the threads do; that nothing is left after `stop` depends on which branch of
`stop` is taken.
-/

namespace RocmFpx
namespace ServerResponse
open GuardedRuns

variable {ρ β : Type} {s s' : ServerResponse ρ β}

/-! ## Results -/

def taken (s : ServerResponse ρ β) : List (QueuedResult β) := s.received.map (·.2)

def dropped (s : ServerResponse ρ β) : List (QueuedResult β) := s.removed.map (·.2)

/-- Where the results are that entered the queue. -/
structure Delivery (s : ServerResponse ρ β) : Prop where
  numbered : s.sent.map (·.serial) = List.range s.sent.length
  conserved : (s.taken ++ s.dropped ++ s.queueResults).Perm s.sent
  named : ∀ x ∈ s.received, x.2.id ∈ x.1
  ordered : ∀ id : ℤ, ((s.taken ++ s.queueResults).filter (·.id = id)).Sublist
    (s.sent.filter (·.id = id))
  cause : ∀ x ∈ s.removed, x.2.id = x.1

theorem Delivery.congr (h : Delivery s) (hqueue : s'.queueResults = s.queueResults)
    (hsent : s'.sent = s.sent) (hreceived : s'.received = s.received)
    (hremoved : s'.removed = s.removed) : Delivery s' := by
  obtain ⟨h₁, h₂, h₃, h₄, h₅⟩ := h
  constructor <;> simp only [taken, dropped, hqueue, hsent, hreceived, hremoved] <;> assumption

theorem Delivery.once (h : Delivery s) : (s.taken.map (·.serial)).Nodup := by
  have hperm := h.conserved.map (·.serial)
  rw [h.numbered] at hperm
  have hnodup := hperm.nodup_iff.mpr List.nodup_range
  simp only [List.map_append] at hnodup
  exact hnodup.of_append_left.of_append_left

theorem emplaceBack_delivery (h : Delivery s) (result : TaskResult β) :
    Delivery (s.emplaceBack result) := by
  refine ⟨?_, ?_, h.named, fun id => ?_, h.cause⟩
  · simp [emplaceBack, h.numbered, List.range_succ]
  · have hperm := h.conserved.append_right [{ result with serial := s.sent.length }]
    rwa [List.append_assoc] at hperm
  · change ((s.taken ++ (s.queueResults ++ _)).filter _).Sublist ((s.sent ++ _).filter _)
    rw [← List.append_assoc, List.filter_append, List.filter_append s.sent]
    exact (h.ordered id).append (List.Sublist.refl _)

theorem send_delivery (h : Delivery s) (result : TaskResult β) : Delivery (s.send result) := by
  unfold send
  split
  · exact emplaceBack_delivery h result
  · exact h

theorem broadcast_delivery (h : Delivery s) (result : TaskResult β) (ids : List ℤ) :
    Delivery (s.broadcast result ids) := by
  unfold broadcast
  induction ids generalizing s with
  | nil => exact h
  | cons id ids ih => exact ih (emplaceBack_delivery h _)

theorem removeWaitingTaskId_delivery (h : Delivery s) (id : ℤ) :
    Delivery (s.removeWaitingTaskId id) := by
  have hdropped : (s.removeWaitingTaskId id).dropped =
      s.dropped ++ s.queueResults.filter (·.id = id) := by
    simp [dropped, removeWaitingTaskId]
  refine ⟨h.numbered, ?_, h.named, fun other => ?_, fun x hx => ?_⟩
  · refine List.Perm.trans ?_ h.conserved
    rw [hdropped]
    change (s.taken ++ (s.dropped ++ s.queueResults.filter (·.id = id)) ++
      s.queueResults.filter (·.id ≠ id)).Perm _
    rw [List.append_assoc, List.append_assoc s.dropped, ← List.append_assoc s.taken]
    refine List.Perm.append_left _ ?_
    have hsplit := List.filter_append_perm (fun x : QueuedResult β => decide (x.id = id))
      s.queueResults
    simpa only [ne_eq, decide_not] using hsplit
  · refine List.Sublist.trans ?_ (h.ordered other)
    change ((s.taken ++ s.queueResults.filter (·.id ≠ id)).filter _).Sublist _
    exact (List.Sublist.append_left List.filter_sublist _).filter _
  · rcases List.mem_append.mp hx with hx | hx
    · exact h.cause x hx
    · obtain ⟨y, hy, rfl⟩ := List.mem_map.mp hx
      exact of_decide_eq_true (List.mem_filter.mp hy).2

/-- What a receive call takes is the first result of its ids. -/
theorem take_spec {ids : Finset ℤ} {result : QueuedResult β} (h : s.take ids = some (result, s')) :
    result.id ∈ ids ∧ ∃ before after, s.queueResults = before ++ result :: after ∧
      (∀ x ∈ before, x.id ∉ ids) ∧
      s' = { s with
        queueResults := before ++ after
        received := s.received ++ [(ids, result)] } := by
  obtain ⟨found, hfound, heq⟩ := Option.map_eq_some_iff.mp h
  obtain ⟨rfl, rfl⟩ := Prod.mk.inj heq
  obtain ⟨hid, before, after, hqueue, hbefore⟩ := List.find?_eq_some_iff_append.mp hfound
  have hnot : ∀ x ∈ before, x.id ∉ ids := fun x hx => by simpa using hbefore x hx
  refine ⟨of_decide_eq_true hid, before, after, hqueue, hnot, ?_⟩
  rw [hqueue, List.eraseP_append_right _ (fun x hx => by simpa using hnot x hx),
    List.eraseP_cons_of_pos (p := fun x : QueuedResult β => decide (x.id ∈ ids)) hid]

theorem take_isSome {ids : Finset ℤ} {x : QueuedResult β} (hx : x ∈ s.queueResults)
    (hid : x.id ∈ ids) : (s.take ids).isSome := by
  rw [take, Option.isSome_map, List.find?_isSome]
  exact ⟨x, hx, decide_eq_true hid⟩

theorem take_delivery {ids : Finset ℤ} {result : QueuedResult β} (h : Delivery s)
    (htake : s.take ids = some (result, s')) : Delivery s' := by
  obtain ⟨hid, before, after, hqueue, hnot, rfl⟩ := take_spec htake
  refine ⟨h.numbered, ?_, fun x hx => ?_, fun id => ?_, h.cause⟩
  · refine List.Perm.trans ?_ h.conserved
    rw [hqueue]
    simp only [taken, dropped, List.map_append, List.map_cons, List.map_nil, List.append_assoc]
    refine List.Perm.append_left _ ?_
    rw [← List.append_assoc (s.removed.map _), ← List.append_assoc (s.removed.map _)]
    rw [List.singleton_append]
    exact List.perm_middle.symm
  · rcases List.mem_append.mp hx with hx | hx
    · exact h.named x hx
    · rw [List.mem_singleton.mp hx]
      exact hid
  · have hfiltered := h.ordered id
    rw [hqueue] at hfiltered
    convert hfiltered using 1
    simp only [taken, List.map_append, List.map_cons, List.map_nil, List.append_assoc,
      List.filter_append, List.singleton_append]
    by_cases heq : result.id = id
    · -- nothing of this id stands before the result
      have hnil : before.filter (·.id = id) = [] := by
        refine List.filter_eq_nil_iff.mpr fun x hx hxid => hnot x hx ?_
        rw [of_decide_eq_true hxid, ← heq]
        exact hid
      simp [hnil, heq]
    · simp [heq]

theorem mem_of_take {ids : Finset ℤ} {result : QueuedResult β}
    (h : s.take ids = some (result, s')) {x : QueuedResult β} (hx : x ∈ s'.queueResults) :
    x ∈ s.queueResults := by
  obtain ⟨-, before, after, hqueue, -, rfl⟩ := take_spec h
  rw [hqueue]
  rcases List.mem_append.mp hx with hx | hx
  · exact List.mem_append_left _ hx
  · exact List.mem_append_right _ (List.mem_cons_of_mem _ hx)

theorem take_fields {ids : Finset ℤ} {result : QueuedResult β}
    (h : s.take ids = some (result, s')) :
    s'.reader = s.reader ∧ s'.waitingTaskIds = s.waitingTaskIds := by
  obtain ⟨-, before, after, -, -, rfl⟩ := take_spec h
  exact ⟨rfl, rfl⟩

/-! ## Readers -/

/-- Who the waiting ids belong to. -/
structure Registered (s : ServerResponse ρ β) : Prop where
  disjoint : ∀ r r', (s.reader r).returned = false → (s.reader r').returned = false → r ≠ r' →
    Disjoint (s.reader r).idTasks (s.reader r').idTasks
  waiting : ∀ id ∈ s.waitingTaskIds, ∃ r, (s.reader r).returned = false ∧
    (s.reader r).inStop = false ∧ id ∈ (s.reader r).idTasks

/-- Whom the result can still reach: a reader that has not left `stop`, and has not removed the
id. -/
def Reaches (s : ServerResponse ρ β) (x : QueuedResult β) : Prop :=
  ∃ r, (s.reader r).returned = false ∧ x.id ∈ (s.reader r).idTasks ∧
    ∀ ids, (s.reader r).phase = .removing ids → x.id ∈ ids

def Served (s : ServerResponse ρ β) : Prop := ∀ x ∈ s.queueResults, Reaches s x

theorem Registered.congr (h : Registered s) (hwaiting : s'.waitingTaskIds = s.waitingTaskIds)
    (hreader : s'.reader = s.reader) : Registered s' := by
  obtain ⟨h₁, h₂⟩ := h
  constructor <;> simp only [hwaiting, hreader] <;> assumption

theorem Served.mono (h : Served s) (hreader : s'.reader = s.reader)
    (hqueue : ∀ x ∈ s'.queueResults, x ∈ s.queueResults) : Served s' := by
  intro x hx
  obtain ⟨r, hr⟩ := h x (hqueue x hx)
  exact ⟨r, by rwa [hreader]⟩

theorem reaches_of_waiting (h : Registered s) {x : QueuedResult β} (hx : x.id ∈ s.waitingTaskIds) :
    Reaches s x := by
  obtain ⟨r, hr, hstop, hid⟩ := h.waiting x.id hx
  refine ⟨r, hr, hid, fun ids hphase => ?_⟩
  rw [ResponseReader.inStop, hphase] at hstop
  exact nomatch hstop

theorem emplaceBack_served (h : Registered s) (hs : Served s) {result : TaskResult β}
    (hid : result.id ∈ s.waitingTaskIds) : Served (s.emplaceBack result) := by
  intro x hx
  rcases List.mem_append.mp hx with hx | hx
  · exact hs x hx
  · refine reaches_of_waiting (s := s) h ?_
    rw [List.mem_singleton.mp hx]
    exact hid

theorem broadcast_fields (result : TaskResult β) (ids : List ℤ) :
    (s.broadcast result ids).waitingTaskIds = s.waitingTaskIds ∧
      (s.broadcast result ids).reader = s.reader := by
  unfold broadcast
  induction ids generalizing s with
  | nil => exact ⟨rfl, rfl⟩
  | cons id ids ih => exact ih

theorem broadcast_served (h : Registered s) (hs : Served s) (result : TaskResult β) {ids : List ℤ}
    (hids : ∀ id ∈ ids, id ∈ s.waitingTaskIds) : Served (s.broadcast result ids) := by
  unfold broadcast
  induction ids generalizing s with
  | nil => exact hs
  | cons id ids ih =>
    obtain ⟨hid, hids⟩ := List.forall_mem_cons.mp hids
    exact ih (h.congr rfl rfl) (emplaceBack_served h hs hid) hids

theorem removeWaitingTaskIds_registered (h : Registered s) (ids : Finset ℤ) :
    Registered (s.removeWaitingTaskIds ids) :=
  ⟨h.disjoint, fun id hid => h.waiting id (Finset.mem_sdiff.mp hid).1⟩

theorem removeWaitingTaskId_registered (h : Registered s) (id : ℤ) :
    Registered (s.removeWaitingTaskId id) :=
  ⟨h.disjoint, fun other hid => h.waiting other (Finset.mem_erase.mp hid).2⟩

theorem start_delivery : Delivery (start : ServerResponse ρ β) :=
  ⟨rfl, .refl _, fun _ hx => absurd hx List.not_mem_nil, fun _ => .refl _,
    fun _ hx => absurd hx List.not_mem_nil⟩

theorem start_registered : Registered (start : ServerResponse ρ β) :=
  ⟨(fun _ _ h => nomatch h), fun _ h => absurd h (Finset.notMem_empty _)⟩

/-- Results enter the queue with increasing numbers, are received at most once and by a call with
their id, those of one id in the order sent, and stay until they are received or their id is
removed; a reader whose `stop` has returned has none left, unless its id was registered again. -/
structure Routed (s : ServerResponse ρ β) : Prop where
  numbered : s.sent.map (·.serial) = List.range s.sent.length
  once : (s.taken.map (·.serial)).Nodup
  named : ∀ x ∈ s.received, x.2.id ∈ x.1
  ordered : ∀ id : ℤ, ((s.taken ++ s.queueResults).filter (·.id = id)).Sublist
    (s.sent.filter (·.id = id))
  conserved : (s.taken ++ s.dropped ++ s.queueResults).Perm s.sent
  cause : ∀ x ∈ s.removed, x.2.id = x.1
  receivable : ∀ x ∈ s.queueResults, ∀ ids : Finset ℤ, x.id ∈ ids → (s.take ids).isSome
  cleared : ∀ r, (s.reader r).returned = true → ∀ x ∈ s.queueResults,
    x.id ∈ (s.reader r).idTasks →
      ∃ r', (s.reader r').returned = false ∧ x.id ∈ (s.reader r').idTasks

theorem Delivery.routed (h : Delivery s) (hs : Served s) : Routed s where
  numbered := h.numbered
  once := h.once
  named := h.named
  ordered := h.ordered
  conserved := h.conserved
  cause := h.cause
  receivable _ hx _ hid := take_isSome hx hid
  cleared _ _ x hx _ := by
    obtain ⟨r', hr', hid, -⟩ := hs x hx
    exact ⟨r', hr', hid⟩

section Readers

variable [DecidableEq ρ] {r : ρ} {rd : ResponseReader}

@[simp] theorem setReader_same : (s.setReader r rd).reader r = rd := if_pos rfl

theorem setReader_other {r' : ρ} (h : r' ≠ r) : (s.setReader r rd).reader r' = s.reader r' :=
  if_neg h

theorem setReader_self : s.setReader r (s.reader r) = s := by
  have hreader : (fun r' => if r' = r then s.reader r else s.reader r') = s.reader := by
    funext r'
    split_ifs with hr
    · rw [hr]
    · rfl
  rw [setReader, hreader]

theorem setReader_registered (h : Registered s) (hids : rd.idTasks = (s.reader r).idTasks)
    (hreturned : rd.returned = false → (s.reader r).returned = false)
    (hwaiting : ∀ id ∈ s.waitingTaskIds, id ∈ (s.reader r).idTasks →
      (s.reader r).returned = false → (s.reader r).inStop = false →
      rd.returned = false ∧ rd.inStop = false) : Registered (s.setReader r rd) := by
  have hold : ∀ r', ((s.setReader r rd).reader r').idTasks = (s.reader r').idTasks ∧
      (((s.setReader r rd).reader r').returned = false → (s.reader r').returned = false) := by
    intro r'
    by_cases hr : r' = r
    · subst hr
      rw [setReader_same]
      exact ⟨hids, hreturned⟩
    · rw [setReader_other hr]
      exact ⟨rfl, id⟩
  constructor
  · intro r₁ r₂ h₁ h₂ hne
    rw [(hold r₁).1, (hold r₂).1]
    exact h.disjoint r₁ r₂ ((hold r₁).2 h₁) ((hold r₂).2 h₂) hne
  · intro id hid
    obtain ⟨r', hr', hstop', hid'⟩ := h.waiting id hid
    refine ⟨r', ?_⟩
    by_cases hr : r' = r
    · subst hr
      obtain ⟨hkept, hstop⟩ := hwaiting id hid hid' hr' hstop'
      rw [setReader_same]
      exact ⟨hkept, hstop, hids ▸ hid'⟩
    · rw [setReader_other hr]
      exact ⟨hr', hstop', hid'⟩

theorem setReader_served (h : Served s) (hids : rd.idTasks = (s.reader r).idTasks)
    (hkeep : ∀ x ∈ s.queueResults, (s.reader r).returned = false → x.id ∈ (s.reader r).idTasks →
      (∀ ids, (s.reader r).phase = .removing ids → x.id ∈ ids) →
      rd.returned = false ∧ ∀ ids, rd.phase = .removing ids → x.id ∈ ids) :
    Served (s.setReader r rd) := by
  intro x hx
  obtain ⟨r', hr', hid, hphase⟩ := h x hx
  refine ⟨r', ?_⟩
  by_cases hr : r' = r
  · subst hr
    obtain ⟨hkept, hleft⟩ := hkeep x hx hr' hid hphase
    rw [setReader_same]
    exact ⟨hkept, hids ▸ hid, hleft⟩
  · rw [setReader_other hr]
    exact ⟨hr', hid, hphase⟩

theorem inStop_of_phase {ids : List ℤ} (h : rd.phase = .removing ids) : rd.inStop = true := by
  rw [ResponseReader.inStop, h]

theorem phase_of_inStop (h : rd.inStop = false) (ids : List ℤ) : rd.phase ≠ .removing ids :=
  fun hphase => Bool.false_ne_true (h.symm.trans (inStop_of_phase hphase))

theorem afterNext_spec {result : TaskResult β} (h : s.afterNext r result = some s')
    (hphase : (s.reader r).phase = .running) :
    ∃ rd, s' = s.setReader r rd ∧ rd.idTasks = (s.reader r).idTasks ∧
      rd.returned = (s.reader r).returned ∧ rd.inStop = false := by
  simp only [afterNext] at h
  split_ifs at h
  · exact ⟨_, (Option.some.inj h).symm, rfl, rfl, rfl⟩
  · refine ⟨_, (Option.some.inj h).symm, rfl, rfl, ?_⟩
    rw [ResponseReader.inStop, hphase]
  · refine ⟨s.reader r, (Option.some.inj h).symm.trans setReader_self.symm, rfl, rfl, ?_⟩
    rw [ResponseReader.inStop, hphase]

theorem post_registered {r : ρ} {ids : Finset ℤ} (h : Registered s)
    (hphase : (s.reader r).phase = .running)
    (hids : (s.reader r).idTasks = ∅)
    (hfresh : ∀ r', (s.reader r').returned = false → Disjoint (s.reader r').idTasks ids) :
    Registered { s.setReader r { s.reader r with idTasks := ids, returned := false } with
      waitingTaskIds := s.waitingTaskIds ∪ ids } := by
  constructor
  · intro r₁ r₂ h₁ h₂ hne
    simp only [setReader] at h₁ h₂ ⊢
    split_ifs at h₁ h₂ ⊢ with hr₁ hr₂
    · exact absurd (hr₁.trans hr₂.symm) hne
    · exact (hfresh r₂ h₂).symm
    · exact hfresh r₁ h₁
    · exact h.disjoint r₁ r₂ h₁ h₂ hne
  · intro id hid
    rcases Finset.mem_union.mp hid with hid | hid
    · obtain ⟨r', hr', hstop, hid'⟩ := h.waiting id hid
      have hne : r' ≠ r := by
        rintro rfl
        rw [hids] at hid'
        exact absurd hid' (Finset.notMem_empty id)
      refine ⟨r', ?_⟩
      simp only [setReader, if_neg hne]
      exact ⟨hr', hstop, hid'⟩
    · refine ⟨r, ?_⟩
      simp only [setReader, if_pos, ResponseReader.inStop, hphase]
      exact ⟨trivial, trivial, hid⟩

/-! ## Steps -/

/-- `stop` of a reader finds no next result to wait for, while one of its results is queued. -/
def LeavesResults (s : ServerResponse ρ β) (a : ResponseAction ρ β) : Prop :=
  ∃ r ids, a = .stop r ids ∧ (s.reader r).returned = false ∧ ¬ (s.reader r).hasNext ∧
    ∃ x ∈ s.queueResults, x.id ∈ (s.reader r).idTasks

/-- What a step does. -/
inductive Effect (s : ServerResponse ρ β) : ResponseAction ρ β → ServerResponse ρ β → Prop
  | post (r : ρ) (ids : Finset ℤ) (hids : (s.reader r).idTasks = ∅)
      (hphase : (s.reader r).phase = .running)
      (hfresh : ∀ r', (s.reader r').returned = false → Disjoint (s.reader r').idTasks ids) :
      Effect s (.post r ids)
        { s.setReader r { s.reader r with idTasks := ids, returned := false } with
          waitingTaskIds := s.waitingTaskIds ∪ ids }
  | send (result : TaskResult β) : Effect s (.send result) (s.send result)
  | broadcast (result : TaskResult β) (ids : List ℤ) (hids : ids.toFinset = s.waitingTaskIds) :
      Effect s (.broadcast result ids) (s.broadcast result ids)
  | recv {s' : ServerResponse ρ β} (ids : Finset ℤ) (result : QueuedResult β)
      (htake : s.take ids = some (result, s')) : Effect s (.recv ids) s'
  | recvTimeout (ids : Finset ℤ) : Effect s (.recvTimeout ids) s
  | next {t s' : ServerResponse ρ β} (r : ρ) (result : QueuedResult β)
      (hphase : (s.reader r).phase = .running)
      (htake : s.take (s.reader r).idTasks = some (result, t))
      (hafter : t.afterNext r result.toTaskResult = some s') : Effect s (.next r) s'
  | cancel (r : ρ) (ids : List ℤ) (hstop : (s.reader r).inStop = false)
      (hnext : (s.reader r).hasNext) (hids : ids.toFinset = (s.reader r).idTasks) :
      Effect s (.stop r ids) ((s.removeWaitingTaskIds (s.reader r).idTasks).setReader r
        { s.reader r with cancelled := true, phase := .removing ids })
  | finish (r : ρ) (ids : List ℤ) (hstop : (s.reader r).inStop = false)
      (hnext : ¬ (s.reader r).hasNext) :
      Effect s (.stop r ids) ((s.removeWaitingTaskIds (s.reader r).idTasks).setReader r
        { s.reader r with phase := .running, returned := true })
  | stopRemove (r : ρ) (id : ℤ) (ids : List ℤ) (hphase : (s.reader r).phase = .removing (id :: ids)) :
      Effect s (.stopRemove r)
        ((s.removeWaitingTaskId id).setReader r { s.reader r with phase := .removing ids })
  | stopReturn (r : ρ) (hphase : (s.reader r).phase = .removing []) :
      Effect s (.stopReturn r)
        (s.setReader r { s.reader r with phase := .running, returned := true })

variable [Fintype ρ] {a : ResponseAction ρ β}

theorem step_effect (h : step s a = some s') : Effect s a s' := by
  cases a with
  | post r ids =>
    simp only [step] at h
    split_ifs at h with hguard
    cases h
    exact .post r ids hguard.1 hguard.2.1 hguard.2.2
  | send result =>
    cases h
    exact .send result
  | broadcast result ids =>
    simp only [step] at h
    split_ifs at h with hguard
    cases h
    exact .broadcast result ids hguard.2
  | recv ids =>
    obtain ⟨⟨result, t⟩, htake, rfl⟩ := Option.map_eq_some_iff.mp h
    exact .recv ids result htake
  | recvTimeout ids =>
    cases h
    exact .recvTimeout ids
  | next r =>
    simp only [step] at h
    split_ifs at h with hphase
    obtain ⟨⟨result, t⟩, htake, hafter⟩ := Option.bind_eq_some_iff.mp h
    exact .next r result hphase htake hafter
  | stop r ids =>
    simp only [step] at h
    split_ifs at h with hguard hnext
    · cases h
      exact .cancel r ids hguard.1 hnext hguard.2.2
    · cases h
      exact .finish r ids hguard.1 hnext
  | stopRemove r =>
    simp only [step] at h
    split at h
    next id ids hphase =>
      cases h
      exact .stopRemove r id ids hphase
    next => exact nomatch h
  | stopReturn r =>
    simp only [step] at h
    split at h
    next hphase =>
      cases h
      exact .stopReturn r hphase
    next => exact nomatch h

theorem step_delivery (h : Delivery s) (hstep : step s a = some s') : Delivery s' := by
  cases step_effect hstep with
  | post | cancel | finish | stopReturn => exact h.congr rfl rfl rfl rfl
  | send result => exact send_delivery h result
  | broadcast result ids => exact broadcast_delivery h result ids
  | recv ids result htake => exact take_delivery h htake
  | recvTimeout => exact h
  | next r result hphase htake hafter =>
    rw [← (take_fields htake).1] at hphase
    obtain ⟨rd, rfl, -⟩ := afterNext_spec hafter hphase
    exact (take_delivery h htake).congr rfl rfl rfl rfl
  | stopRemove r id ids hphase =>
    exact (removeWaitingTaskId_delivery h id).congr rfl rfl rfl rfl

theorem step_registered (h : Registered s) (hstep : step s a = some s') : Registered s' := by
  cases step_effect hstep with
  | post r ids hids hphase hfresh => exact post_registered h hphase hids hfresh
  | send result =>
    unfold send
    split
    · exact h.congr rfl rfl
    · exact h
  | broadcast result ids =>
    exact h.congr (broadcast_fields result ids).1 (broadcast_fields result ids).2
  | recv ids result htake =>
    obtain ⟨hreader, hwaiting⟩ := take_fields htake
    exact h.congr hwaiting hreader
  | recvTimeout => exact h
  | @next t _ r result hphase htake hafter =>
    obtain ⟨hreader, hwaiting⟩ := take_fields htake
    rw [← hreader] at hphase
    obtain ⟨rd, rfl, hids, hreturned, hstop⟩ := afterNext_spec hafter hphase
    refine setReader_registered (h.congr hwaiting hreader) hids hreturned.symm.trans ?_
    exact fun _ _ _ hr _ => ⟨hreturned.trans hr, hstop⟩
  | cancel r ids =>
    refine setReader_registered (removeWaitingTaskIds_registered h _) rfl (fun hr => hr) ?_
    exact fun id hid hmem _ _ => absurd hmem (Finset.mem_sdiff.mp hid).2
  | finish r ids =>
    refine setReader_registered (removeWaitingTaskIds_registered h _) rfl (fun hr => nomatch hr) ?_
    exact fun id hid hmem _ _ => absurd hmem (Finset.mem_sdiff.mp hid).2
  | stopRemove r id ids hphase =>
    refine setReader_registered (removeWaitingTaskId_registered h id) rfl (fun hr => hr) ?_
    exact fun _ _ _ _ hstop => absurd hphase (phase_of_inStop hstop _)
  | stopReturn r hphase =>
    refine setReader_registered h rfl (fun hr => nomatch hr) ?_
    exact fun _ _ _ _ hstop => absurd hphase (phase_of_inStop hstop _)

theorem step_served (hreg : Registered s) (h : Served s) (ha : ¬ LeavesResults s a)
    (hstep : step s a = some s') : Served s' := by
  cases step_effect hstep with
  | post r ids hids hphase hfresh =>
    intro x hx
    obtain ⟨r', hr', hid, hremoving⟩ := h x hx
    have hne : r' ≠ r := by
      rintro rfl
      rw [hids] at hid
      exact absurd hid (Finset.notMem_empty _)
    refine ⟨r', ?_⟩
    simp only [setReader, if_neg hne]
    exact ⟨hr', hid, hremoving⟩
  | send result =>
    unfold send
    split
    next hid => exact emplaceBack_served hreg h hid
    next => exact h
  | broadcast result ids hids =>
    exact broadcast_served hreg h result fun id hid => hids ▸ List.mem_toFinset.mpr hid
  | recv ids result htake => exact h.mono (take_fields htake).1 fun x => mem_of_take htake
  | recvTimeout => exact h
  | @next t _ r result hphase htake hafter =>
    obtain ⟨hreader, -⟩ := take_fields htake
    have ht : Served t := h.mono hreader fun x => mem_of_take htake
    rw [← hreader] at hphase
    obtain ⟨rd, rfl, hids, hreturned, hstop⟩ := afterNext_spec hafter hphase
    refine setReader_served ht hids fun x _ hr _ _ => ⟨hreturned.trans hr, fun ids hremoving => ?_⟩
    exact absurd hremoving (phase_of_inStop hstop ids)
  | cancel r ids hstop hnext hids =>
    refine setReader_served (h.mono rfl fun x hx => hx) rfl fun x _ hr hid _ => ⟨hr, ?_⟩
    rintro _ ⟨⟩
    exact List.mem_toFinset.mp (hids ▸ hid)
  | finish r ids hstop hnext =>
    refine setReader_served (h.mono rfl fun x hx => hx) rfl fun x hx hr hid _ => ?_
    exact absurd ⟨r, ids, rfl, hr, hnext, x, hx, hid⟩ ha
  | stopRemove r id ids hphase =>
    have hkept : ∀ x ∈ (s.removeWaitingTaskId id).queueResults, x ∈ s.queueResults ∧ x.id ≠ id :=
      fun x hx => ⟨(List.mem_filter.mp hx).1, of_decide_eq_true (List.mem_filter.mp hx).2⟩
    refine setReader_served (h.mono rfl fun x hx => (hkept x hx).1) rfl
      fun x hx hr _ hremoving => ⟨hr, ?_⟩
    rintro _ ⟨⟩
    exact (List.mem_cons.mp (hremoving _ hphase)).resolve_left (hkept x hx).2
  | stopReturn r hphase =>
    refine setReader_served h rfl fun x _ _ _ hremoving => ?_
    exact absurd (hremoving _ hphase) List.not_mem_nil

/-! ## Runs -/

theorem step_leaves (h : Registered s) (hstep : step s a = some s') (hs : Routed s') :
    ¬ LeavesResults s a := by
  rintro ⟨r, ids, rfl, hr, hnext, x, hx, hid⟩
  cases step_effect hstep with
  | cancel r ids hstop hyes => exact hnext hyes
  | finish r ids hstop =>
    obtain ⟨r', hr', hid'⟩ := hs.cleared r (by rw [setReader_same]) x hx (by rwa [setReader_same])
    by_cases hne : r' = r
    · subst hne
      rw [setReader_same] at hr'
      exact nomatch hr'
    · rw [setReader_other hne] at hr' hid'
      exact Finset.disjoint_left.mp (h.disjoint r r' hr hr' (Ne.symm hne)) hid hid'

/-- Results are routed in a run precisely when no `stop` in it leaves a result behind. -/
theorem routed_iff (actions : List (ResponseAction ρ β)) :
    Along step Routed start actions ↔
      Meets step (fun s a => ¬ LeavesResults s a) start actions := by
  constructor
  · exact meets_of_along (fun s a s' h hstep => step_registered h hstep)
      (fun s a s' h hstep hs => step_leaves h hstep hs) start_registered
  · intro h
    refine Along.mono (P := fun s => Delivery s ∧ Registered s ∧ Served s)
      (fun s hs => hs.1.routed hs.2.2) (along_of_meets ?_
        ⟨start_delivery, start_registered, fun _ hx => absurd hx List.not_mem_nil⟩ h)
    rintro s a s' ⟨hd, hr, hs⟩ ha hstep
    exact ⟨step_delivery hd hstep, step_registered hr hstep, step_served hr hs ha hstep⟩

/-! ## A result that stays -/

def finalResult : TaskResult Unit := ⟨7, 0, false, true, ()⟩

/-- The final result is received, another one is broadcast, and `stop` finds nothing to cancel. -/
def leavingActions : List (ResponseAction (Fin 1) Unit) :=
  [.post (.last 0) {7}, .send finalResult, .next (.last 0), .broadcast finalResult [7],
    .stop (.last 0) [7]]

theorem leaves_result : ∃ s, run step start leavingActions = some s ∧
    (s.reader 0).returned = true ∧ (s.reader 0).idTasks = {7} ∧ s.waitingTaskIds = ∅ ∧
    s.queueResults.map (·.id) = [7] ∧ ¬ Routed s := by
  refine ⟨_, rfl, rfl, rfl, by decide, rfl, fun h => ?_⟩
  obtain ⟨r, hr, -⟩ := h.cleared 0 rfl _ (List.mem_singleton.mpr rfl) (by decide)
  rw [Subsingleton.elim r 0] at hr
  cases hr

end Readers

end ServerResponse
end RocmFpx
