import Mathlib.Data.Finset.Card
import RocmFpx.GuardedRuns

/-!
The two graph caches of an RPC connection. The dispatcher of the client keeps the uids whose graphs
it has serialized for a device and asks for a recompute of those; the server keeps the graphs. Any
number of client threads push messages, in one queue. A graph is computed under a mutex, but other
messages may come between the lookup and the push. What the server makes of a message that neither
stores nor drops graphs is left open: it may accept or reject any of them.
-/

namespace RocmFpx
namespace Rpc
open GuardedRuns

def graphCacheMax : ℕ := 1024

/-- The messages; `G` are serialized graphs. -/
inductive Msg (G : Type)
  | graphCompute (device uid : ℕ) (graph : G)
  | graphRecompute (device uid : ℕ)
  | allocBuffer (device : ℕ)
  | freeBuffer (remotePtr : ℕ)
  /-- Reads, writes, copies and clears of tensors, and queries. -/
  | other
  deriving DecidableEq

variable {G : Type}

/-! ## The client -/

/-- `rpc_dispatcher::graph_uids`, and the message of the thread that holds `graph_mutex`. -/
structure Dispatcher (G : Type) where
  graphUids : ℕ → Finset ℕ
  locked : Option (Msg G)

namespace Dispatcher

variable (dispatcher : Dispatcher G)

/-- `rpc_dispatcher::graph_compute`, up to the push. -/
def graphCompute (device uid : ℕ) (graph : G) : Dispatcher G :=
  let deviceGraphUids := dispatcher.graphUids device
  if uid ≠ 0 ∧ uid ∈ deviceGraphUids then
    { dispatcher with locked := some (.graphRecompute device uid) }
  else if uid ≠ 0 then
    let deviceGraphUids := if deviceGraphUids.card ≥ graphCacheMax then ∅ else deviceGraphUids
    { graphUids := Function.update dispatcher.graphUids device (insert uid deviceGraphUids)
      locked := some (.graphCompute device uid graph) }
  else { dispatcher with locked := some (.graphCompute device uid graph) }

end Dispatcher

/-! ## The server -/

/-- The stored graphs of a device; the graph of an entry may have been discarded. -/
structure StoredGraphs (G : Type) where
  uids : Finset ℕ
  graph : ℕ → Option G

namespace StoredGraphs

variable (graphs : StoredGraphs G)

def clear : StoredGraphs G := ⟨∅, fun _ => none⟩

def find (uid : ℕ) : Option G := if uid ∈ graphs.uids then graphs.graph uid else none

def store (uid : ℕ) (graph : G) : StoredGraphs G :=
  ⟨insert uid graphs.uids, Function.update graphs.graph uid (some graph)⟩

def discard : StoredGraphs G := { graphs with graph := fun _ => none }

end StoredGraphs

structure Server (G : Type) where
  nBackends : ℕ
  buffers : Finset ℕ
  storedGraphs : ℕ → StoredGraphs G

namespace Server

variable (server : Server G)

/-- `rpc_server::graph_compute`; `parsed` says whether the graph can be rebuilt. -/
def graphCompute (device uid : ℕ) (graph : G) (parsed : Bool) : Option (Server G) :=
  if device ≥ server.nBackends then none
  else
    let stored := server.storedGraphs device
    let stored := if uid ≠ 0 ∧ stored.uids.card ≥ graphCacheMax then .clear else stored
    if !parsed then none
    else if uid ≠ 0 then
      some { server with
        storedGraphs := Function.update server.storedGraphs device (stored.store uid graph) }
    else some server

/-- `rpc_server::graph_recompute`: the graph that is computed. -/
def graphRecompute (device uid : ℕ) : Option G :=
  if device ≥ server.nBackends then none else (server.storedGraphs device).find uid

def allocBuffer (device ptr : ℕ) : Option (Server G) :=
  if device ≥ server.nBackends then none
  else if ptr = 0 then some server
  else some { server with buffers := insert ptr server.buffers }

def freeBuffer (remotePtr : ℕ) : Option (Server G) :=
  if remotePtr ∉ server.buffers then none
  else some { server with
    buffers := server.buffers.erase remotePtr
    storedGraphs := fun device => (server.storedGraphs device).discard }

/-- The server after a message it accepts; `ok` is what is left open, `ptr` the buffer that an
allocation gives, if any. -/
def handle (msg : Msg G) (ok : Bool) (ptr : ℕ) : Option (Server G) :=
  match msg with
  | .graphCompute device uid graph => server.graphCompute device uid graph ok
  | .graphRecompute device uid => (server.graphRecompute device uid).map fun _ => server
  | .allocBuffer device => server.allocBuffer device ptr
  | .freeBuffer remotePtr => server.freeBuffer remotePtr
  | .other => if ok then some server else none

end Server

/-! ## The connection -/

/-- The graph serialized last for a device and a uid. -/
def lastSerialized (msgs : List (Msg G)) (device uid : ℕ) : Option G :=
  msgs.foldl (fun last msg =>
    match msg with
    | .graphCompute device' uid' graph =>
      if device' = device ∧ uid' = uid then some graph else last
    | _ => last) none

/-- A buffer was freed after the graph was serialized last. -/
def freedSince (msgs : List (Msg G)) (device uid : ℕ) : Bool :=
  msgs.foldl (fun freed msg =>
    match msg with
    | .graphCompute device' uid' _ => if device' = device ∧ uid' = uid then false else freed
    | .freeBuffer _ => true
    | _ => freed) false

/-- A recompute the server was asked for: the graph it found, and the one it should find. -/
structure Lookup (G : Type) where
  device : ℕ
  uid : ℕ
  found : Option G
  serialized : Option G

/-- `handled` are the messages the server accepted; it closes the connection at the first that it
does not. -/
structure Connection (G : Type) where
  dispatcher : Dispatcher G
  channel : List (Msg G)
  server : Server G
  closed : Bool
  handled : List (Msg G)
  lookups : List (Lookup G)

inductive Action (G : Type)
  /-- A thread takes `graph_mutex` and looks its graph up. -/
  | graphCompute (device uid : ℕ) (graph : G)
  /-- It pushes its message and leaves the mutex. -/
  | graphPush
  | allocBuffer (device : ℕ)
  | freeBuffer (remotePtr : ℕ)
  | other
  /-- The server takes the next message. -/
  | serve (ok : Bool) (ptr : ℕ)

namespace Connection

variable (c : Connection G)

def push (msg : Msg G) : Connection G := { c with channel := c.channel ++ [msg] }

/-- What a message adds to the lookups. -/
def lookupsOf : Msg G → List (Lookup G)
  | .graphRecompute device uid =>
    [⟨device, uid, c.server.graphRecompute device uid, lastSerialized c.handled device uid⟩]
  | _ => []

def step : Action G → Option (Connection G)
  | .graphCompute device uid graph =>
    if c.dispatcher.locked = none then
      some { c with dispatcher := c.dispatcher.graphCompute device uid graph }
    else none
  | .graphPush =>
    c.dispatcher.locked.map fun msg =>
      { c.push msg with dispatcher := { c.dispatcher with locked := none } }
  | .allocBuffer device => some (c.push (.allocBuffer device))
  | .freeBuffer remotePtr => some (c.push (.freeBuffer remotePtr))
  | .other => some (c.push .other)
  | .serve ok ptr =>
    match c.closed, c.channel with
    | false, msg :: channel =>
      let c' := { c with channel := channel, lookups := c.lookups ++ c.lookupsOf msg }
      match c.server.handle msg ok ptr with
      | some server => some { c' with server := server, handled := c.handled ++ [msg] }
      | none => some { c' with closed := true }
    | _, _ => none

/-- A new connection to a server with `nBackends` devices. -/
def start (nBackends : ℕ) : Connection G :=
  ⟨⟨fun _ => ∅, none⟩, [], ⟨nBackends, ∅, fun _ => .clear⟩, false, [], []⟩

/-- Every recompute has found the graph serialized last. -/
def Agrees : Prop :=
  ∀ lookup ∈ c.lookups, ∃ graph, lookup.found = some graph ∧ lookup.serialized = some graph

/-- The server takes a recompute message, and a buffer was freed since the graph was serialized
last. -/
def ServesFreed (c : Connection G) (a : Action G) : Prop :=
  ∃ ok ptr device uid channel, a = .serve ok ptr ∧ c.closed = false ∧
    c.channel = .graphRecompute device uid :: channel ∧ freedSince c.handled device uid = true

end Connection

/-! ## Caches as functions of the messages -/

/-- What a message does to the uids a cache holds, on either side. -/
def remember (uids : ℕ → Finset ℕ) : Msg G → ℕ → Finset ℕ
  | .graphCompute device uid _ =>
    if uid = 0 then uids
    else Function.update uids device
      (insert uid (if (uids device).card ≥ graphCacheMax then ∅ else uids device))
  | _ => uids

def known (msgs : List (Msg G)) : ℕ → Finset ℕ := msgs.foldl remember fun _ => ∅

theorem known_concat (msgs : List (Msg G)) (msg : Msg G) :
    known (msgs ++ [msg]) = remember (known msgs) msg := by
  rw [known, List.foldl_append]
  rfl

theorem lastSerialized_concat (msgs : List (Msg G)) (msg : Msg G) (device uid : ℕ) :
    lastSerialized (msgs ++ [msg]) device uid =
      match msg with
      | .graphCompute device' uid' graph =>
        if device' = device ∧ uid' = uid then some graph else lastSerialized msgs device uid
      | _ => lastSerialized msgs device uid := by
  rw [lastSerialized, List.foldl_append]
  rfl

theorem freedSince_concat (msgs : List (Msg G)) (msg : Msg G) (device uid : ℕ) :
    freedSince (msgs ++ [msg]) device uid =
      match msg with
      | .graphCompute device' uid' _ =>
        if device' = device ∧ uid' = uid then false else freedSince msgs device uid
      | .freeBuffer _ => true
      | _ => freedSince msgs device uid := by
  rw [freedSince, List.foldl_append]
  rfl

/-- A uid is known for a device only if it was there before, or the message serializes it. -/
theorem mem_remember {uids : ℕ → Finset ℕ} {msg : Msg G} {device uid : ℕ}
    (h : uid ∈ remember uids msg device) :
    uid ∈ uids device ∨ uid ≠ 0 ∧ ∃ graph, msg = .graphCompute device uid graph := by
  cases msg with
  | graphCompute device' uid' graph =>
    by_cases hzero : uid' = 0
    · rw [remember, if_pos hzero] at h
      exact .inl h
    rw [remember, if_neg hzero] at h
    by_cases hdevice : device = device'
    · subst hdevice
      rw [Function.update_self] at h
      rcases Finset.mem_insert.mp h with rfl | h
      · exact .inr ⟨hzero, graph, rfl⟩
      · by_cases hfull : (uids device).card ≥ graphCacheMax
        · rw [if_pos hfull] at h
          exact absurd h (Finset.notMem_empty uid)
        · rw [if_neg hfull] at h
          exact .inl h
    · rw [Function.update_of_ne hdevice] at h
      exact .inl h
  | graphRecompute | allocBuffer | freeBuffer | other => exact .inl h

theorem zero_not_known (msgs : List (Msg G)) (device : ℕ) : 0 ∉ known msgs device := by
  induction msgs using List.reverseRecOn with
  | nil => exact Finset.notMem_empty 0
  | append_singleton msgs msg ih =>
    rw [known_concat]
    intro h
    rcases mem_remember h with hold | ⟨hzero, -⟩
    · exact ih hold
    · exact hzero rfl

theorem lastSerialized_of_known {msgs : List (Msg G)} {device uid : ℕ}
    (h : uid ∈ known msgs device) : ∃ graph, lastSerialized msgs device uid = some graph := by
  induction msgs using List.reverseRecOn with
  | nil => exact absurd h (Finset.notMem_empty uid)
  | append_singleton msgs msg ih =>
    rw [known_concat] at h
    rw [lastSerialized_concat]
    rcases mem_remember h with hold | ⟨-, graph, rfl⟩
    · obtain ⟨graph, hlast⟩ := ih hold
      split
      · split_ifs
        · exact ⟨_, rfl⟩
        · exact ⟨graph, hlast⟩
      · exact ⟨graph, hlast⟩
    · exact ⟨graph, if_pos ⟨rfl, rfl⟩⟩

/-! ## The server -/

/-- The server after the messages: for the uids known there, the graph serialized last, unless it
was discarded since. -/
structure Server.After (server : Server G) (msgs : List (Msg G)) : Prop where
  uids : ∀ device, (server.storedGraphs device).uids = known msgs device
  graph : ∀ device, ∀ uid ∈ known msgs device, (server.storedGraphs device).graph uid =
    if freedSince msgs device uid then none else lastSerialized msgs device uid
  backend : ∀ device, ∀ uid ∈ known msgs device, device < server.nBackends

namespace Server

variable {server server' : Server G} {msgs : List (Msg G)} {ok : Bool} {ptr : ℕ}

theorem After.congr (h : server.After msgs) {msg : Msg G}
    (hstored : server'.storedGraphs = server.storedGraphs)
    (hbackends : server'.nBackends = server.nBackends)
    (hknown : remember (known msgs) msg = known msgs)
    (hlast : ∀ device, ∀ uid ∈ known msgs device,
      lastSerialized (msgs ++ [msg]) device uid = lastSerialized msgs device uid)
    (hfreed : ∀ device, ∀ uid ∈ known msgs device,
      freedSince (msgs ++ [msg]) device uid = freedSince msgs device uid) :
    server'.After (msgs ++ [msg]) := by
  obtain ⟨huids, hgraph, hbackend⟩ := h
  constructor <;> rw [known_concat, hknown]
  · rwa [hstored]
  · intro device uid huid
    rw [hstored, hlast device uid huid, hfreed device uid huid]
    exact hgraph device uid huid
  · rwa [hbackends]

theorem after_unnamed (h : server.After msgs) (device : ℕ) (graph : G) :
    server.After (msgs ++ [.graphCompute device 0 graph]) := by
  have hne : ∀ d, ∀ u ∈ known msgs d, ¬(device = d ∧ 0 = u) :=
    fun d u hu heq => zero_not_known msgs d (heq.2 ▸ hu)
  refine h.congr rfl rfl ?_ (fun d u hu => ?_) (fun d u hu => ?_)
  · rw [remember, if_pos rfl]
  · rw [lastSerialized_concat]
    exact if_neg (hne d u hu)
  · rw [freedSince_concat]
    exact if_neg (hne d u hu)

theorem after_stored (h : server.After msgs) {device uid : ℕ} (hdevice : device < server.nBackends)
    (huid : uid ≠ 0) (graph : G) :
    { server with
      storedGraphs := Function.update server.storedGraphs device
        ((if (server.storedGraphs device).uids.card ≥ graphCacheMax then .clear
          else server.storedGraphs device).store uid graph) : Server G }.After
      (msgs ++ [.graphCompute device uid graph]) := by
  have hknown : known (msgs ++ [.graphCompute device uid graph]) =
      Function.update (known msgs) device
        (insert uid (if (known msgs device).card ≥ graphCacheMax then ∅ else known msgs device)) := by
    rw [known_concat, remember, if_neg huid]
  constructor
  · intro d
    rw [hknown]
    by_cases hd : d = device
    · subst hd
      simp only [Function.update_self, StoredGraphs.store, h.uids d]
      split
      · rfl
      · rw [h.uids d]
    · simp only [Function.update_of_ne hd, h.uids d]
  · intro d u hu
    rw [lastSerialized_concat, freedSince_concat]
    by_cases hd : d = device
    · subst hd
      simp only [Function.update_self, StoredGraphs.store]
      by_cases hu' : u = uid
      · subst hu'
        simp
      · rw [hknown, Function.update_self] at hu
        have hold := (Finset.mem_insert.mp hu).resolve_left hu'
        -- the cache was not full, or the uid would be gone
        have hroom : ¬ (known msgs d).card ≥ graphCacheMax := by
          intro hfull
          rw [if_pos hfull] at hold
          exact absurd hold (Finset.notMem_empty u)
        rw [if_neg hroom] at hold
        simp only [h.uids d, if_neg hroom, Function.update_of_ne hu', true_and, if_neg (Ne.symm hu')]
        exact h.graph d u hold
    · rw [hknown, Function.update_of_ne hd] at hu
      have hne : ¬(device = d ∧ uid = u) := fun heq => hd heq.1.symm
      simp only [Function.update_of_ne hd, if_neg hne]
      exact h.graph d u hu
  · intro d u hu
    rw [known_concat] at hu
    rcases mem_remember hu with hold | ⟨-, graph', heq⟩
    · exact h.backend d u hold
    · cases heq
      exact hdevice

theorem graphCompute_after {device uid : ℕ} {graph : G} (h : server.After msgs)
    (hhandle : server.graphCompute device uid graph ok = some server') :
    server'.After (msgs ++ [.graphCompute device uid graph]) := by
  simp only [graphCompute] at hhandle
  by_cases hdevice : device ≥ server.nBackends
  · rw [if_pos hdevice] at hhandle
    exact nomatch hhandle
  rw [if_neg hdevice] at hhandle
  cases ok with
  | false => exact nomatch hhandle
  | true =>
    by_cases huid : uid = 0
    · subst huid
      cases hhandle
      exact after_unnamed h device graph
    · simp only [huid, ne_eq, not_false_eq_true, true_and, if_true, Bool.not_true,
        Bool.false_eq_true, if_false] at hhandle
      cases hhandle
      exact after_stored h (Nat.lt_of_not_le hdevice) huid graph

theorem freeBuffer_after {remotePtr : ℕ} (h : server.After msgs)
    (hhandle : server.freeBuffer remotePtr = some server') :
    server'.After (msgs ++ [.freeBuffer remotePtr]) := by
  simp only [freeBuffer] at hhandle
  split_ifs at hhandle
  cases hhandle
  constructor
  · intro device
    rw [known_concat]
    exact h.uids device
  · intro device uid huid
    rw [freedSince_concat]
    rfl
  · intro device uid huid
    rw [known_concat] at huid
    exact h.backend device uid huid

theorem handle_after {msg : Msg G} (h : server.After msgs)
    (hhandle : server.handle msg ok ptr = some server') : server'.After (msgs ++ [msg]) := by
  have hunchanged : ∀ msg : Msg G, remember (known msgs) msg = known msgs →
      (∀ device uid, lastSerialized (msgs ++ [msg]) device uid = lastSerialized msgs device uid) →
      (∀ device uid, freedSince (msgs ++ [msg]) device uid = freedSince msgs device uid) →
      server'.storedGraphs = server.storedGraphs → server'.nBackends = server.nBackends →
      server'.After (msgs ++ [msg]) :=
    fun msg hknown hlast hfreed hstored hbackends =>
      h.congr hstored hbackends hknown (fun d u _ => hlast d u) fun d u _ => hfreed d u
  cases msg with
  | graphCompute device uid graph => exact graphCompute_after h hhandle
  | freeBuffer remotePtr => exact freeBuffer_after h hhandle
  | graphRecompute device uid =>
    obtain ⟨graph, -, rfl⟩ := Option.map_eq_some_iff.mp hhandle
    exact hunchanged _ rfl (fun d u => lastSerialized_concat msgs _ d u)
      (fun d u => freedSince_concat msgs _ d u) rfl rfl
  | allocBuffer device =>
    simp only [handle, allocBuffer] at hhandle
    split_ifs at hhandle <;> cases hhandle <;>
      exact hunchanged _ rfl (fun d u => lastSerialized_concat msgs _ d u)
        (fun d u => freedSince_concat msgs _ d u) rfl rfl
  | other =>
    simp only [handle] at hhandle
    split_ifs at hhandle
    cases hhandle
    exact hunchanged _ rfl (fun d u => lastSerialized_concat msgs _ d u)
      (fun d u => freedSince_concat msgs _ d u) rfl rfl

theorem graphRecompute_eq {device uid : ℕ} (h : server.After msgs)
    (huid : uid ∈ known msgs device) :
    server.graphRecompute device uid =
      if freedSince msgs device uid then none else lastSerialized msgs device uid := by
  rw [graphRecompute, if_neg (Nat.not_le.mpr (h.backend device uid huid)), StoredGraphs.find,
    h.uids device, if_pos huid]
  exact h.graph device uid huid

end Server

/-! ## The connection -/

namespace Connection

variable {c c' : Connection G} {a : Action G}

/-- The messages pushed so far to a connection that is open. -/
def sent (c : Connection G) : List (Msg G) := c.handled ++ c.channel

/-- The dispatcher knows what the server will know, and asks only for what is known then. -/
structure Inv (c : Connection G) : Prop where
  server : c.server.After c.handled
  client : c.dispatcher.graphUids = known (c.sent ++ c.dispatcher.locked.toList)
  pending : ∀ device uid, c.dispatcher.locked = some (.graphRecompute device uid) →
    uid ∈ known c.sent device
  asked : ∀ before device uid rest, c.sent = before ++ .graphRecompute device uid :: rest →
    uid ∈ known before device

theorem start_inv (nBackends : ℕ) : Inv (start nBackends : Connection G) where
  server := ⟨fun _ => rfl, fun _ _ h => absurd h (Finset.notMem_empty _),
    fun _ _ h => absurd h (Finset.notMem_empty _)⟩
  client := rfl
  pending _ _ h := nomatch h
  asked before _ _ _ h := by
    have hmem : Msg.graphRecompute _ _ ∈ (start nBackends : Connection G).sent :=
      h ▸ List.mem_append_right before List.mem_cons_self
    exact absurd hmem List.not_mem_nil

theorem asked_concat {msgs : List (Msg G)} {msg : Msg G}
    (h : ∀ before device uid rest, msgs = before ++ .graphRecompute device uid :: rest →
      uid ∈ known before device)
    (hmsg : ∀ device uid, msg = .graphRecompute device uid → uid ∈ known msgs device)
    (before : List (Msg G)) (device uid : ℕ) (rest : List (Msg G))
    (heq : msgs ++ [msg] = before ++ .graphRecompute device uid :: rest) :
    uid ∈ known before device := by
  rcases List.eq_nil_or_concat rest with rfl | ⟨rest, last, rfl⟩
  · obtain ⟨rfl, hlast⟩ := List.append_inj' heq rfl
    exact hmsg device uid (List.cons.inj hlast).1
  · rw [List.concat_eq_append, ← List.cons_append, ← List.append_assoc] at heq
    exact h before device uid rest (List.append_inj' heq rfl).1

theorem push_inv (h : Inv c) {msg : Msg G} (hknown : ∀ uids, remember uids msg = uids)
    (hmsg : ∀ device uid, msg ≠ .graphRecompute device uid) : Inv (c.push msg) := by
  have hsent : (c.push msg).sent = c.sent ++ [msg] := (List.append_assoc _ _ _).symm
  have hsame : known (c.sent ++ [msg]) = known c.sent := (known_concat _ _).trans (hknown _)
  refine ⟨h.server, h.client.trans ?_, fun device uid hlocked => ?_, ?_⟩
  · change known (c.sent ++ c.dispatcher.locked.toList) =
      known ((c.push msg).sent ++ c.dispatcher.locked.toList)
    rw [hsent]
    cases c.dispatcher.locked with
    | none => simpa only [Option.toList_none, List.append_nil] using hsame.symm
    | some locked => rw [Option.toList_some, known_concat, known_concat (c.sent ++ [msg]), hsame]
  · rw [hsent, hsame]
    exact h.pending device uid hlocked
  · rw [hsent]
    exact asked_concat h.asked fun device uid heq => absurd heq (hmsg device uid)

theorem graphPush_inv (h : Inv c) {msg : Msg G} (hlocked : c.dispatcher.locked = some msg) :
    Inv { c.push msg with dispatcher := { c.dispatcher with locked := none } } := by
  have hsent : (c.push msg).sent = c.sent ++ [msg] := (List.append_assoc _ _ _).symm
  refine ⟨h.server, ?_, (fun _ _ hnone => nomatch hnone), ?_⟩
  · change c.dispatcher.graphUids = known ((c.push msg).sent ++ [])
    rw [h.client, hlocked, hsent, List.append_nil]
    rfl
  · change ∀ before device uid rest, (c.push msg).sent = _ → _
    rw [hsent]
    exact asked_concat h.asked fun device uid heq => h.pending device uid (heq ▸ hlocked)

theorem graphCompute_inv (h : Inv c) (hlocked : c.dispatcher.locked = none) (device uid : ℕ)
    (graph : G) : Inv { c with dispatcher := c.dispatcher.graphCompute device uid graph } := by
  have hclient : c.dispatcher.graphUids = known c.sent := by
    rw [h.client, hlocked, Option.toList_none, List.append_nil]
  refine ⟨h.server, ?_, fun d u heq => ?_, h.asked⟩
  · change (c.dispatcher.graphCompute device uid graph).graphUids =
      known (c.sent ++ (c.dispatcher.graphCompute device uid graph).locked.toList)
    rw [Dispatcher.graphCompute, hclient]
    by_cases hzero : uid = 0
    · simp [hzero, known_concat, remember]
    · by_cases hknown : uid ∈ known c.sent device
      · simp [hzero, hknown, known_concat, remember]
      · simp [hzero, hknown, known_concat, remember]
  · change (c.dispatcher.graphCompute device uid graph).locked = _ at heq
    change u ∈ known c.sent d
    rw [Dispatcher.graphCompute, hclient] at heq
    by_cases hreuse : uid ≠ 0 ∧ uid ∈ known c.sent device
    · rw [if_pos hreuse] at heq
      cases heq
      exact hreuse.2
    · rw [if_neg hreuse] at heq
      split_ifs at heq <;> exact nomatch heq

theorem serve_inv (h : Inv c) {msg : Msg G} {channel : List (Msg G)} {ok : Bool} {ptr : ℕ}
    {server : Server G} (hchannel : c.channel = msg :: channel)
    (hhandle : c.server.handle msg ok ptr = some server) (lookups : List (Lookup G)) :
    Inv { c with
      channel := channel, server := server, handled := c.handled ++ [msg], lookups := lookups } := by
  have hsent : c.handled ++ [msg] ++ channel = c.sent := by
    rw [sent, hchannel, List.append_assoc, List.singleton_append]
  refine ⟨Server.handle_after h.server hhandle, ?_, ?_, ?_⟩
  · change c.dispatcher.graphUids = known (c.handled ++ [msg] ++ channel ++ _)
    rw [hsent]
    exact h.client
  · change ∀ device uid, _ → uid ∈ known (c.handled ++ [msg] ++ channel) device
    rw [hsent]
    exact h.pending
  · change ∀ before device uid rest, c.handled ++ [msg] ++ channel = _ → _
    rw [hsent]
    exact h.asked

theorem step_inv (h : c.closed = false → Inv c) (hstep : step c a = some c')
    (hclosed : c'.closed = false) : Inv c' := by
  cases a with
  | graphCompute device uid graph =>
    simp only [step] at hstep
    split_ifs at hstep with hlocked
    cases hstep
    exact graphCompute_inv (h hclosed) hlocked device uid graph
  | graphPush =>
    obtain ⟨msg, hlocked, rfl⟩ := Option.map_eq_some_iff.mp hstep
    exact graphPush_inv (h hclosed) hlocked
  | allocBuffer | freeBuffer | other =>
    cases hstep
    exact push_inv (h hclosed) (fun _ => rfl) fun _ _ => nofun
  | serve ok ptr =>
    simp only [step] at hstep
    split at hstep
    next msg channel hopen hchannel =>
      cases hhandle : c.server.handle msg ok ptr with
      | some server =>
        rw [hhandle] at hstep
        cases hstep
        exact serve_inv (h hopen) hchannel hhandle _
      | none =>
        rw [hhandle] at hstep
        cases hstep
        exact nomatch hclosed
    next => exact nomatch hstep

/-! ## Recomputes -/

theorem step_lookups (hstep : step c a = some c') :
    (c'.lookups = c.lookups ∧ ∀ ok ptr, a ≠ .serve ok ptr) ∨
      ∃ ok ptr msg channel, a = .serve ok ptr ∧ c.closed = false ∧
        c.channel = msg :: channel ∧ c'.lookups = c.lookups ++ c.lookupsOf msg := by
  cases a with
  | graphCompute device uid graph =>
    simp only [step] at hstep
    split_ifs at hstep
    cases hstep
    exact .inl ⟨rfl, nofun⟩
  | graphPush =>
    obtain ⟨msg, -, rfl⟩ := Option.map_eq_some_iff.mp hstep
    exact .inl ⟨rfl, nofun⟩
  | allocBuffer | freeBuffer | other =>
    cases hstep
    exact .inl ⟨rfl, nofun⟩
  | serve ok ptr =>
    simp only [step] at hstep
    split at hstep
    next msg channel hopen hchannel =>
      refine .inr ⟨ok, ptr, msg, channel, rfl, hopen, hchannel, ?_⟩
      split at hstep <;> cases hstep <;> rfl
    next => exact nomatch hstep

theorem lookup_agrees_iff (h : Inv c) {device uid : ℕ} {channel : List (Msg G)}
    (hchannel : c.channel = .graphRecompute device uid :: channel) :
    (∃ graph, c.server.graphRecompute device uid = some graph ∧
        lastSerialized c.handled device uid = some graph) ↔
      freedSince c.handled device uid = false := by
  have huid : uid ∈ known c.handled device :=
    h.asked c.handled device uid channel (by rw [sent, hchannel])
  obtain ⟨graph, hlast⟩ := lastSerialized_of_known huid
  rw [Server.graphRecompute_eq h.server huid, hlast]
  cases freedSince c.handled device uid with
  | true => exact iff_of_false (fun ⟨_, hnone, _⟩ => nomatch hnone) nofun
  | false => exact iff_of_true ⟨graph, rfl, rfl⟩ rfl

theorem step_agrees (h : c.closed = false → Inv c) (hagrees : Agrees c)
    (hstep : step c a = some c') : Agrees c' ↔ ¬ ServesFreed c a := by
  rcases step_lookups hstep with ⟨hsame, hserve⟩ | ⟨ok, ptr, msg, channel, rfl, hopen, hchannel, hnew⟩
  · refine iff_of_true (fun lookup hlookup => hagrees lookup (hsame ▸ hlookup)) ?_
    rintro ⟨ok, ptr, -, -, -, ha, -⟩
    exact hserve ok ptr ha
  cases msg with
  | graphCompute | allocBuffer | freeBuffer | other =>
    have hsame : c'.lookups = c.lookups := hnew.trans (List.append_nil _)
    refine iff_of_true (fun lookup hlookup => hagrees lookup (hsame ▸ hlookup)) ?_
    rintro ⟨-, -, device, uid, channel', -, -, hhead, -⟩
    exact nomatch (List.cons.inj (hchannel.symm.trans hhead)).1
  | graphRecompute device uid =>
    have hserved : ServesFreed c (.serve ok ptr) ↔ freedSince c.handled device uid = true := by
      constructor
      · rintro ⟨-, -, device', uid', channel', -, -, hhead, hfreed⟩
        cases hchannel.symm.trans hhead
        exact hfreed
      · exact fun hfreed => ⟨ok, ptr, device, uid, channel, rfl, hopen, hchannel, hfreed⟩
    rw [hserved, Bool.not_eq_true, ← lookup_agrees_iff (h hopen) hchannel, Agrees, hnew]
    constructor
    · exact fun hall => hall _ (List.mem_append_right _ List.mem_cons_self)
    · intro hfound lookup hlookup
      rcases List.mem_append.mp hlookup with hold | hlast
      · exact hagrees lookup hold
      · rw [List.mem_singleton.mp hlast]
        exact hfound

/-- In a run, every recompute finds the graph serialized last precisely when no buffer is freed
between the two messages. -/
theorem recomputes_agree_iff (nBackends : ℕ) (actions : List (Action G)) :
    Along step Agrees (start nBackends) actions ↔
      Meets step (fun c a => ¬ ServesFreed c a) (start nBackends) actions :=
  along_iff_meets_within (I := fun c => c.closed = false → Inv c)
    (fun _ _ _ h hstep => step_inv h hstep) (fun _ _ _ h hagrees hstep => step_agrees h hagrees hstep)
    (fun _ => start_inv nBackends) (fun _ h => absurd h List.not_mem_nil)

/-! ## A buffer freed between two computations -/

/-- Two buffers, a graph over the first of them, and the second one freed before the graph is
computed again. Graphs are the buffers they use. -/
def freeingActions : List (Action (Finset ℕ)) :=
  [.allocBuffer 0, .serve true 1, .allocBuffer 0, .serve true 2,
    .graphCompute 0 5 {1}, .graphPush, .serve true 0,
    .freeBuffer 2, .serve true 0,
    .graphCompute 0 5 {1}, .graphPush, .serve true 0]

theorem recompute_rejected : ∃ c, run step (start 1) freeingActions = some c ∧ c.closed = true ∧
    c.lookups = [⟨0, 5, none, some {1}⟩] ∧ ¬ Agrees c := by
  refine ⟨_, rfl, rfl, rfl, fun h => ?_⟩
  obtain ⟨graph, hfound, -⟩ := h _ (List.mem_singleton.mpr rfl)
  exact nomatch hfound

end Connection

end Rpc
end RocmFpx
