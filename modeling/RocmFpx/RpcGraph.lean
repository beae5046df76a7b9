import RocmFpx.DepthFirst
import RocmFpx.RpcServer

/-!
Graphs on the wire. The client walks the tensors of a graph depth first and writes each of them
once, behind its sources; the server builds the tensors from their ids again, each of them once.
-/

namespace RocmFpx
open ByteReader

namespace RpcGraph

/-! ## The client -/

/-- The buffer of a tensor: of another backend, or of an RPC server, with `dispatcher` and
`remote_ptr` of its context if there is one. -/
inductive ClientBuffer
  | other
  | rpc (context : Option (ℕ × UInt64))

/-- The name of a tensor, as `ggml_set_name` leaves it. -/
structure TensorName where
  chars : List UInt8
  length_lt : chars.length < ggmlMaxName
  nul_notMem : 0 ∉ chars

/-- A tensor of the client. Addresses are numbers, and zero is the null pointer. -/
structure ClientTensor where
  type : UInt32
  buffer : Option ClientBuffer
  ne : Fin 4 → ℕ
  nb : Fin 4 → ℕ
  op : UInt32
  opParams : Fin ggmlMaxOpParams → UInt32
  flags : UInt32
  src : Fin ggmlMaxSrc → UInt64
  viewSrc : UInt64
  viewOffs : UInt64
  data : UInt64
  name : TensorName

/-- The sources and the source of a view. -/
def ClientTensor.children (t : ClientTensor) : List UInt64 := List.ofFn t.src ++ [t.viewSrc]

/-- A graph, with the tensors in memory by their addresses. `useCounts` are those of the tensors in
`visited_hash_set`. -/
structure ClientGraph where
  tensors : List (UInt64 × ClientTensor)
  nodes : List UInt64
  useCounts : UInt64 → Option UInt32
  uid : UInt64
  nodup : (tensors.map Prod.fst).Nodup
  null_notMem : 0 ∉ tensors.map Prod.fst
  closed : ∀ p t, (p, t) ∈ tensors → ∀ q ∈ t.children, q = 0 ∨ q ∈ tensors.map Prod.fst
  nodes_mem : ∀ p ∈ nodes, p ∈ tensors.map Prod.fst
  nodes_nodup : nodes.Nodup

def ClientGraph.tensor (graph : ClientGraph) (p : UInt64) : Option ClientTensor :=
  graph.tensors.lookup p

/-- The handle and the address that are sent: those of a tensor in a buffer of the server. -/
def remoteData (dispatcher : ℕ) (t : ClientTensor) : UInt64 × UInt64 :=
  match t.buffer with
  | some (.rpc (some (owner, remotePtr))) =>
    if owner = dispatcher then (remotePtr, t.data) else (0, 0)
  | _ => (0, 0)

/-- `serialize_tensor`, with the use count that `add_tensor` puts in. -/
def serializeTensor (dispatcher : ℕ) (p : UInt64) (t : ClientTensor) (useCount : UInt32) :
    RpcTensor where
  id := p
  type := t.type
  buffer := (remoteData dispatcher t).1
  ne i := .ofNat (t.ne i)
  nb i := .ofNat (t.nb i)
  op := t.op
  opParams := t.opParams
  flags := t.flags
  src := t.src
  viewSrc := t.viewSrc
  viewOffs := t.viewOffs
  data := (remoteData dispatcher t).2
  name i := t.name.chars[i.val]?.getD 0
  useCount

/-- The tensors visited, and those written. -/
structure Visits where
  visited : List UInt64
  tensors : List RpcTensor

/-- The depth of the recursion is bounded by the fuel; an address without a tensor is `none`. -/
def addTensor (graph : ClientGraph) (dispatcher : ℕ) : ℕ → Visits → UInt64 → Option Visits
  | 0, visits, p => if p = 0 ∨ p ∈ visits.visited then some visits else none
  | fuel + 1, visits, p =>
    if p = 0 ∨ p ∈ visits.visited then some visits
    else do
      let t ← graph.tensor p
      let visits ← t.children.foldlM (addTensor graph dispatcher fuel)
        ⟨visits.visited ++ [p], visits.tensors⟩
      let result := serializeTensor dispatcher p t ((graph.useCounts p).getD 0)
      some ⟨visits.visited, visits.tensors ++ [result]⟩

/-- The message of a graph: device, uid, nodes and tensors, with their numbers in front. -/
def messageBytes (device : UInt32) (uid : UInt64) (nodes : List UInt64)
    (tensors : List RpcTensor) : List UInt8 :=
  let nNodes : UInt32 := .ofNat nodes.length
  let nTensors : UInt32 := .ofNat tensors.length
  RpcTensor.uInt32Bytes device ++ RpcTensor.uInt64Bytes uid ++ RpcTensor.uInt32Bytes nNodes ++
    (nodes.take nNodes.toNat).flatMap RpcTensor.uInt64Bytes ++ RpcTensor.uInt32Bytes nTensors ++
    (tensors.take nTensors.toNat).flatMap RpcTensor.toBytes

/-- `serialize_graph`. -/
def serializeGraph (graph : ClientGraph) (dispatcher : ℕ) (device : UInt32) :
    Option (List UInt8) := do
  let visits ← graph.nodes.foldlM (addTensor graph dispatcher graph.tensors.length) ⟨[], []⟩
  some (messageBytes device graph.uid graph.nodes visits.tensors)

/-! ## The server -/

/-- A tensor in the memory of a graph. Pointers to tensors are positions in it. -/
structure ServerNode extends ServerTensor where
  src : Fin ggmlMaxSrc → Option ℕ
  viewSrc : Option ℕ
  viewOffs : UInt64

/-- The tensors built so far, the number of tensors allocated, and `tensor_map`. -/
structure GraphContext where
  tensors : List ServerNode
  allocated : ℕ
  tensorMap : UInt64 → Option ℕ

/-- What is refused is a null pointer. -/
def orNull {α : Type} : Except RpcError α → Except RpcError (Option α)
  | .ok a => .ok (some a)
  | .error .rejected => .ok none
  | .error .aborted => .error .aborted

/-- `ggml_tensor_overhead()`: the header of an object and a tensor. -/
def ggmlTensorOverhead : ℕ := 368

/-- The checks of `deserialize_tensor` before the tensor is allocated. -/
def checkShape (t : RpcTensor) : Except RpcError Unit := do
  RpcServer.require (t.type.toNat < ggmlTypeCount) .rejected
  RpcServer.require (ggmlBlckSize t.type.toNat ≠ 0) .rejected
  RpcServer.require (RpcServer.elementsFit fun i => (t.ne i).toNat) .aborted

/-- The pointers to the children, and whether all were built; behind one that was not they stay
null. -/
def createChildren (create : GraphContext → UInt64 → Except RpcError (Option ℕ × GraphContext)) :
    GraphContext → List UInt64 → Except RpcError (List (Option ℕ) × Bool × GraphContext)
  | ctx, [] => .ok ([], true, ctx)
  | ctx, id :: ids =>
    if id = 0 then do
      let (rest, built, ctx) ← createChildren create ctx ids
      .ok (none :: rest, built, ctx)
    else do
      let (child, ctx) ← create ctx id
      match child with
      | none => .ok ([], false, ctx)
      | some k => do
        let (rest, built, ctx) ← createChildren create ctx ids
        .ok (some k :: rest, built, ctx)

/-- The tensor with the pointers to its children. -/
def link (tensor : ServerTensor) (children : List (Option ℕ)) (viewOffs : UInt64) : ServerNode :=
  { tensor with
    src := fun i => (children[i.val]?).join
    viewSrc := (children[ggmlMaxSrc]?).join
    viewOffs }

section
variable (server : RpcServer) (memSize graphSize : ℕ) (tensorPtrs : UInt64 → Option RpcTensor)

/-- `create_node`; the null pointer is `none`, and the error is an assertion. The memory holds the
graph and the tensors. Without fuel only what was built before is found. -/
def createNode : ℕ → GraphContext → UInt64 → Except RpcError (Option ℕ × GraphContext)
  | 0, ctx, id => .ok (ctx.tensorMap id, ctx)
  | fuel + 1, ctx, id =>
    match ctx.tensorMap id, tensorPtrs id with
    | some k, _ => .ok (some k, ctx)
    | none, none => .ok (none, ctx)
    | none, some t => do
      match ← orNull (checkShape t) with
      | none => .ok (none, ctx)
      | some () =>
        let allocated := ctx.allocated + 1
        RpcServer.require (graphSize + ggmlTensorOverhead * allocated ≤ memSize) .aborted
        match ← orNull (server.deserializeTensor t) with
        | none => .ok (none, { ctx with allocated })
        | some tensor =>
          if tensor.buffer.isNone ∧ tensor.data ≠ 0 then .ok (none, { ctx with allocated })
          else do
            let k := ctx.tensors.length
            let (children, built, ctx) ← createChildren (createNode fuel)
              { tensors := ctx.tensors ++ [link tensor [] 0]
                allocated
                tensorMap := Function.update ctx.tensorMap id (some k) }
              (List.ofFn t.src ++ [t.viewSrc])
            let node := link tensor children (if built then t.viewOffs else 0)
            .ok (if built then some k else none, { ctx with tensors := ctx.tensors.set k node })

end

/-- The graph that the backend computes. -/
structure ServerGraph where
  tensors : List ServerNode
  nodes : List (Option ℕ)
  useCounts : ℕ → Option UInt32

/-- The graph while its nodes are built. -/
structure Building where
  ctx : GraphContext
  nodes : List (Option ℕ)
  useCounts : ℕ → Option UInt32

/-- One node of the graph. A null pointer is refused unless the id is zero. A node that is there
twice has no place in the hash set, and its use count would be written out of bounds. -/
def addNode (create : GraphContext → UInt64 → Except RpcError (Option ℕ × GraphContext))
    (tensorPtrs : UInt64 → Option RpcTensor) (graph : Building) (id : UInt64) :
    Except RpcError Building := do
  let (node, ctx) ← create graph.ctx id
  match node with
  | none =>
    RpcServer.require (id = 0) .rejected
    .ok { graph with ctx, nodes := graph.nodes ++ [none] }
  | some k =>
    RpcServer.require (graph.useCounts k).isNone .aborted
    .ok { ctx
          nodes := graph.nodes ++ [some k]
          useCounts := Function.update graph.useCounts k ((tensorPtrs id).map RpcTensor.useCount) }

/-- The parts of the message. -/
structure Message where
  device : UInt32
  uid : UInt64
  nodes : List UInt64
  tensors : List RpcTensor

def readMessage (devices : ℕ) : ByteReader RpcError Message := do
  let size ← remaining
  check (¬size < 2 * 4 + 8) .rejected
  let device ← RpcTensor.readUInt32 .rejected
  check (device.toNat < devices) .rejected
  let uid ← RpcTensor.readUInt64 .rejected
  let nNodes ← RpcTensor.readUInt32 .rejected
  check (¬size < 2 * 4 + 8 + nNodes.toNat * 8 + 4) .rejected
  let nodes ← readMany (RpcTensor.readUInt64 .rejected) nNodes.toNat
  let nTensors ← RpcTensor.readUInt32 .rejected
  check (¬size < 2 * 4 + 8 + nNodes.toNat * 8 + 4 + nTensors.toNat * RpcTensor.byteSize) .rejected
  let tensors ← readMany (RpcTensor.read .rejected) nTensors.toNat
  pure ⟨device, uid, nodes, tensors⟩

/-- `graph_compute`, up to the call of the backend. `graphOverhead` is
`ggml_graph_overhead_custom`; the numbers of nodes and tensors are added as `uint32_t`. -/
def graphCompute (server : RpcServer) (graphOverhead : ℕ → ℕ) (devices : ℕ) (input : List UInt8) :
    Except RpcError ServerGraph := do
  let (message, _) ← readMessage devices input
  let nNodes := message.nodes.length
  let nTensors := message.tensors.length
  let graphSize := graphOverhead nNodes
  let memSize := ggmlTensorOverhead * ((nNodes + nTensors) % 2 ^ 32) + graphSize
  let tensorPtrs := fun id => message.tensors.find? fun t => t.id = id
  let create := createNode server memSize graphSize tensorPtrs nTensors
  let graph ← message.nodes.foldlM (addNode create tensorPtrs)
    ⟨⟨[], 0, fun _ => none⟩, [], fun _ => none⟩
  .ok ⟨graph.ctx.tensors, graph.nodes, graph.useCounts⟩

end RpcGraph
end RocmFpx

/-!
The bytes of a graph. The client walks depth first through the children and writes the tensors in
the order in which it leaves them; the server reads the same tensors, and makes of each of them
what it was if its buffer is one of the server's, and a tensor without data otherwise.
-/

namespace RocmFpx
namespace RpcGraph

open ByteReader DepthFirst Fallible

/-! ## The message -/

theorem uInt32Bytes_length (n : UInt32) : (RpcTensor.uInt32Bytes n).length = 4 :=
  leBytes_length 4 n.toNat

theorem uInt64Bytes_length (n : UInt64) : (RpcTensor.uInt64Bytes n).length = 8 :=
  leBytes_length 8 n.toNat

theorem flatMap_length {α : Type} {w : α → List UInt8} {k : ℕ} (h : ∀ a, (w a).length = k)
    (as : List α) : (as.flatMap w).length = as.length * k := by
  rw [List.length_flatMap, List.map_congr_left fun a _ => h a, List.map_const',
    List.sum_replicate_nat]

theorem take_ofNat_length {α : Type} (as : List α) :
    (as.take (UInt32.ofNat as.length).toNat).length = (UInt32.ofNat as.length).toNat := by
  rw [List.length_take, UInt32.toNat_ofNat']
  exact Nat.min_eq_left (Nat.mod_le _ _)

theorem reads_take {α : Type} {r : ByteReader RpcError α} {w : α → List UInt8}
    (h : ∀ a, Reads r (w a) a) (as : List α) :
    Reads (readMany r (UInt32.ofNat as.length).toNat)
      ((as.take (UInt32.ofNat as.length).toNat).flatMap w)
      (as.take (UInt32.ofNat as.length).toNat) := by
  have hread := Reads.readMany fun a (_ : a ∈ as.take (UInt32.ofNat as.length).toNat) => h a
  rwa [take_ofNat_length] at hread

theorem reads_message {devices : ℕ} {device : UInt32} (hdevice : device.toNat < devices)
    (uid : UInt64) (nodes : List UInt64) (tensors : List RpcTensor) :
    Reads (readMessage devices) (messageBytes device uid nodes tensors)
      ⟨device, uid, nodes.take (UInt32.ofNat nodes.length).toNat,
        tensors.take (UInt32.ofNat tensors.length).toNat⟩ := by
  have hlength : (messageBytes device uid nodes tensors).length =
      2 * 4 + 8 + (UInt32.ofNat nodes.length).toNat * 8 + 4 +
        (UInt32.ofNat tensors.length).toNat * RpcTensor.byteSize := by
    simp only [messageBytes, List.length_append, uInt32Bytes_length, uInt64Bytes_length,
      flatMap_length uInt64Bytes_length, flatMap_length RpcTensor.toBytes_length,
      take_ofNat_length]
  refine reads_remaining fun size hsize => ?_
  rw [hlength] at hsize
  simp only [messageBytes, List.append_assoc]
  refine Reads.check (by omega) ((RpcTensor.reads_uInt32 device).bind ?_)
  refine Reads.check hdevice ((RpcTensor.reads_uInt64 uid).bind ?_)
  refine (RpcTensor.reads_uInt32 _).bind (Reads.check (by omega) ?_)
  refine (reads_take RpcTensor.reads_uInt64 nodes).bind ((RpcTensor.reads_uInt32 _).bind ?_)
  refine Reads.check (by omega) ?_
  exact (reads_take RpcTensor.reads_read tensors).map (Message.mk device uid _)

/-! ## What the client writes -/

/-- The children of a tensor that are not null. -/
def ClientGraph.succ (graph : ClientGraph) (p : UInt64) : List UInt64 :=
  ((graph.tensor p).map fun t => t.children.filter (· ≠ 0)).getD []

/-- What is written for a tensor. -/
def ClientGraph.wire (graph : ClientGraph) (dispatcher : ℕ) (p : UInt64) : Option RpcTensor :=
  (graph.tensor p).map fun t => serializeTensor dispatcher p t ((graph.useCounts p).getD 0)

/-- The state of `serialize_graph` at a point of the walk. -/
def ClientGraph.visits (graph : ClientGraph) (dispatcher : ℕ) (w : Walk UInt64) : Visits :=
  ⟨w.entered, w.left.filterMap (graph.wire dispatcher)⟩

def ClientGraph.addresses (graph : ClientGraph) : List UInt64 := graph.tensors.map Prod.fst

theorem ClientGraph.exists_tensor (graph : ClientGraph) {p : UInt64} (h : p ∈ graph.addresses) :
    ∃ t, graph.tensor p = some t ∧ (p, t) ∈ graph.tensors := by
  obtain ⟨e, he, rfl⟩ := List.mem_map.mp h
  obtain ⟨t, ht⟩ := Option.isSome_iff_exists.mp
    (List.lookup_isSome_iff.mpr ⟨e, he, beq_self_eq_true e.1⟩)
  obtain ⟨before, after, heq, -⟩ := List.lookup_eq_some_iff.mp ht
  refine ⟨t, ht, ?_⟩
  rw [heq]
  exact List.mem_append_right _ List.mem_cons_self

theorem ClientGraph.succ_mem (graph : ClientGraph) :
    ∀ p ∈ graph.addresses, ∀ q ∈ graph.succ p, q ∈ graph.addresses := by
  intro p hp q hq
  obtain ⟨t, ht, hmem⟩ := graph.exists_tensor hp
  rw [ClientGraph.succ, ht, Option.map_some, Option.getD_some, List.mem_filter] at hq
  exact (graph.closed p t hmem q hq.1).resolve_left (of_decide_eq_true hq.2)

theorem addTensor_zero (graph : ClientGraph) (dispatcher fuel : ℕ) (visits : Visits) :
    addTensor graph dispatcher fuel visits 0 = some visits := by
  cases fuel with
  | zero => exact if_pos (.inl rfl)
  | succ fuel => exact if_pos (.inl rfl)

theorem foldlM_addTensor {graph : ClientGraph} {dispatcher fuel : ℕ}
    (hadd : ∀ w, ∀ p ∈ graph.addresses,
      addTensor graph dispatcher fuel (graph.visits dispatcher w) p =
        (visit graph.succ fuel w p).map (graph.visits dispatcher))
    (ps : List UInt64) (hps : ∀ p ∈ ps, p = 0 ∨ p ∈ graph.addresses) (w : Walk UInt64) :
    ps.foldlM (addTensor graph dispatcher fuel) (graph.visits dispatcher w) =
      ((ps.filter (· ≠ 0)).foldlM (visit graph.succ fuel) w).map (graph.visits dispatcher) := by
  induction ps generalizing w with
  | nil => rfl
  | cons p ps ih =>
    obtain ⟨hp, hps⟩ := List.forall_mem_cons.mp hps
    by_cases hzero : p = 0
    · rw [List.foldlM_cons, hzero, addTensor_zero, List.filter_cons_of_neg (by simp)]
      exact ih hps w
    · rw [List.foldlM_cons, hadd w p (hp.resolve_left hzero),
        List.filter_cons_of_pos (by simpa using hzero), List.foldlM_cons]
      cases visit graph.succ fuel w p with
      | none => rfl
      | some w' => exact ih hps w'

theorem addTensor_visit (graph : ClientGraph) (dispatcher fuel : ℕ) (w : Walk UInt64) :
    ∀ p ∈ graph.addresses, addTensor graph dispatcher fuel (graph.visits dispatcher w) p =
      (visit graph.succ fuel w p).map (graph.visits dispatcher) := by
  induction fuel generalizing w with
  | zero =>
    intro p hp
    have hne : p ≠ 0 := fun hp0 => graph.null_notMem (hp0 ▸ hp)
    rw [addTensor, visit]
    by_cases hold : p ∈ w.entered
    · rw [if_pos (.inr hold), if_pos hold]
      rfl
    · have hnot : ¬(p = 0 ∨ p ∈ (graph.visits dispatcher w).visited) := not_or.mpr ⟨hne, hold⟩
      rw [if_neg hnot, if_neg hold]
      rfl
  | succ fuel ih =>
    intro p hp
    have hne : p ≠ 0 := fun hp0 => graph.null_notMem (hp0 ▸ hp)
    obtain ⟨t, ht, hmem⟩ := graph.exists_tensor hp
    rw [addTensor, visit]
    by_cases hold : p ∈ w.entered
    · rw [if_pos (.inr hold), if_pos hold]
      rfl
    · have hnot : ¬(p = 0 ∨ p ∈ (graph.visits dispatcher w).visited) := not_or.mpr ⟨hne, hold⟩
      have hsucc : graph.succ p = t.children.filter (· ≠ 0) := by
        rw [ClientGraph.succ, ht, Option.map_some, Option.getD_some]
      have hfold := foldlM_addTensor ih t.children (graph.closed p t hmem)
        ⟨w.entered ++ [p], w.left⟩
      rw [← hsucc] at hfold
      rw [if_neg hnot, if_neg hold, ht]
      simp only [Option.bind_eq_bind, Option.bind_some]
      change (t.children.foldlM (addTensor graph dispatcher fuel)
        (graph.visits dispatcher ⟨w.entered ++ [p], w.left⟩)).bind _ = _
      rw [hfold]
      cases (graph.succ p).foldlM (visit graph.succ fuel) ⟨w.entered ++ [p], w.left⟩ with
      | none => rfl
      | some w' =>
        have hwire : graph.wire dispatcher p =
            some (serializeTensor dispatcher p t ((graph.useCounts p).getD 0)) := by
          rw [ClientGraph.wire, ht, Option.map_some]
        simp only [Option.map_some, Option.bind_some, ClientGraph.visits, List.filterMap_append,
          List.filterMap_cons, hwire, List.filterMap_nil]

theorem exists_serializeGraph (graph : ClientGraph) (dispatcher : ℕ) (device : UInt32) :
    ∃ w more, Grows graph.succ graph.nodes ⟨[], []⟩ w more ∧
      serializeGraph graph dispatcher device =
        some (messageBytes device graph.uid graph.nodes
          (w.left.filterMap (graph.wire dispatcher))) := by
  have hlength : graph.addresses.length ≤ graph.tensors.length := (List.length_map _).le
  obtain ⟨w, more, hw, hgrows⟩ := walk_isSome graph.succ_mem hlength graph.nodes_mem
  refine ⟨w, more, hgrows, ?_⟩
  have hfold := foldlM_addTensor (addTensor_visit graph dispatcher graph.tensors.length) graph.nodes
    (fun p hp => .inr (graph.nodes_mem p hp)) (Walk.mk [] [])
  have hnodes : graph.nodes.filter (· ≠ 0) = graph.nodes := by
    refine List.filter_eq_self.mpr fun p hp => decide_eq_true ?_
    rintro rfl
    exact graph.null_notMem (graph.nodes_mem 0 hp)
  rw [hnodes, hw] at hfold
  change graph.nodes.foldlM _ (Visits.mk [] []) = _ at hfold
  rw [serializeGraph, hfold]
  rfl

theorem find?_wire {graph : ClientGraph} {dispatcher : ℕ} {ps : List UInt64}
    (hps : ∀ p ∈ ps, p ∈ graph.addresses) {id : UInt64} (hmem : id ∈ ps) :
    (ps.filterMap (graph.wire dispatcher)).find? (fun t => t.id = id) =
      graph.wire dispatcher id := by
  induction ps with
  | nil => cases hmem
  | cons p ps ih =>
    obtain ⟨hp, hps⟩ := List.forall_mem_cons.mp hps
    obtain ⟨t, ht, -⟩ := graph.exists_tensor hp
    have hwire : graph.wire dispatcher p =
        some (serializeTensor dispatcher p t ((graph.useCounts p).getD 0)) := by
      rw [ClientGraph.wire, ht, Option.map_some]
    rw [List.filterMap_cons_some hwire]
    by_cases heq : p = id
    · have hid : decide ((serializeTensor dispatcher p t ((graph.useCounts p).getD 0)).id = id) :=
        decide_eq_true heq
      rw [List.find?_cons, hid, ← heq, hwire]
    · have hid : decide ((serializeTensor dispatcher p t ((graph.useCounts p).getD 0)).id = id) =
          false := decide_eq_false heq
      rw [List.find?_cons, hid]
      exact ih hps ((List.mem_cons.mp hmem).resolve_left fun h => heq h.symm)

theorem length_filterMap_wire {graph : ClientGraph} {dispatcher : ℕ} {ps : List UInt64}
    (hps : ∀ p ∈ ps, p ∈ graph.addresses) :
    (ps.filterMap (graph.wire dispatcher)).length = ps.length := by
  induction ps with
  | nil => rfl
  | cons p ps ih =>
    obtain ⟨hp, hps⟩ := List.forall_mem_cons.mp hps
    obtain ⟨t, ht, -⟩ := graph.exists_tensor hp
    rw [List.filterMap_cons_some (by rw [ClientGraph.wire, ht, Option.map_some]),
      List.length_cons, List.length_cons, ih hps]

/-! ## What the server makes of a tensor -/

/-- The type and the shape of a tensor. -/
def ClientTensor.shape (t : ClientTensor) : GgmlTensor := ⟨t.type.toNat, t.ne, t.nb, [], none⟩

/-- A tensor as the library makes it, small enough for the message, and inside its buffer if the
server has that. -/
structure Sendable (server : RpcServer) (dispatcher : ℕ) (t : ClientTensor) : Prop where
  type_lt : t.type.toNat < ggmlTypeCount
  blckSize_ne : ggmlBlckSize t.type.toNat ≠ 0
  elements : RpcServer.elementsFit t.ne
  ne_lt : ∀ i, t.ne i < 2 ^ 32
  nb_lt : ∀ i, t.nb i < 2 ^ 32
  inside : ∀ remotePtr, t.buffer = some (.rpc (some (dispatcher, remotePtr))) → remotePtr ≠ 0 ∧
    ∃ r, server.buffers remotePtr = some r ∧ r.getBase + r.size < 2 ^ 64 ∧
      r.getBase ≤ t.data.toNat ∧ t.data.toNat + t.shape.nbytes ≤ r.getBase + r.size

/-- The region of a tensor in a buffer of the server. -/
def remoteRegion (server : RpcServer) (dispatcher : ℕ) (t : ClientTensor) : Option Region :=
  if (remoteData dispatcher t).1 = 0 then none else server.buffers (remoteData dispatcher t).1

/-- The tensor that the server builds, without its sources. -/
def received (server : RpcServer) (dispatcher : ℕ) (t : ClientTensor) : ServerTensor where
  type := t.type.toNat
  ne := t.ne
  nb := t.nb
  buffer := remoteRegion server dispatcher t
  op := t.op
  opParams := t.opParams
  flags := t.flags
  data := (remoteData dispatcher t).2
  name := t.name.chars

theorem cString_name (name : TensorName) :
    RpcServer.cString (fun i => name.chars[i.val]?.getD 0) = name.chars := by
  have hlt := name.length_lt
  have hofFn : (List.ofFn fun i : Fin ggmlMaxName => name.chars[i.val]?.getD 0) =
      name.chars ++ List.replicate (ggmlMaxName - name.chars.length) 0 := by
    refine List.ext_getElem ?_ fun i hi _ => ?_
    · rw [List.length_ofFn, List.length_append, List.length_replicate]
      omega
    rw [List.getElem_ofFn, List.getElem_append]
    split_ifs with hin
    · rw [List.getElem?_eq_getElem hin, Option.getD_some]
    · rw [List.getElem?_eq_none (not_lt.mp hin), Option.getD_none, List.getElem_replicate]
  have hpos : 0 < ggmlMaxName - name.chars.length := by omega
  have hne : ∀ c ∈ name.chars, (c ≠ 0) = True := fun c hc =>
    eq_true fun hzero => name.nul_notMem (hzero ▸ hc)
  rw [RpcServer.cString, hofFn, List.takeWhile_append_of_pos]
  · obtain ⟨k, hk⟩ := Nat.exists_eq_succ_of_ne_zero hpos.ne'
    rw [hk, List.replicate_succ, List.takeWhile_cons_of_neg (by decide), List.append_nil]
  · intro c hc
    exact decide_eq_true (of_eq_true (hne c hc))

/-- A tensor in a buffer of the server. -/
def InServer (dispatcher : ℕ) (t : ClientTensor) : Prop :=
  ∃ remotePtr, t.buffer = some (.rpc (some (dispatcher, remotePtr)))

theorem remoteData_of_inServer {dispatcher : ℕ} {t : ClientTensor} {remotePtr : UInt64}
    (h : t.buffer = some (.rpc (some (dispatcher, remotePtr)))) :
    remoteData dispatcher t = (remotePtr, t.data) := by
  rw [remoteData, h]
  exact if_pos rfl

theorem remoteData_of_not_inServer {dispatcher : ℕ} {t : ClientTensor}
    (h : ¬InServer dispatcher t) : remoteData dispatcher t = (0, 0) := by
  rw [remoteData]
  split
  · rename_i owner remotePtr heq
    refine if_neg ?_
    rintro rfl
    exact h ⟨remotePtr, heq⟩
  · rfl

section
variable {server : RpcServer} {dispatcher : ℕ} {t : ClientTensor} (h : Sendable server dispatcher t)
  (p : UInt64) (useCount : UInt32)

include h

theorem Sendable.toNat_ne : (fun i => (UInt32.ofNat (t.ne i)).toNat) = t.ne := by
  funext i
  rw [UInt32.toNat_ofNat', Nat.mod_eq_of_lt (h.ne_lt i)]

theorem Sendable.toNat_nb : (fun i => (UInt32.ofNat (t.nb i)).toNat) = t.nb := by
  funext i
  rw [UInt32.toNat_ofNat', Nat.mod_eq_of_lt (h.nb_lt i)]

theorem Sendable.shapeOf_eq :
    RpcServer.shapeOf (serializeTensor dispatcher p t useCount) = t.shape := by
  have hne := h.toNat_ne
  have hnb := h.toNat_nb
  simp only [RpcServer.shapeOf, serializeTensor, ClientTensor.shape, hne, hnb]

theorem Sendable.elementsFit : RpcServer.elementsFit fun i =>
    ((serializeTensor dispatcher p t useCount).ne i).toNat := by
  have hne := h.toNat_ne
  simp only [serializeTensor, hne]
  exact h.elements

theorem Sendable.checkShape : checkShape (serializeTensor dispatcher p t useCount) = .ok () := by
  refine bind_eq_ok.2 ⟨(), RpcServer.require_eq_ok.2 h.type_lt, ?_⟩
  exact bind_eq_ok.2 ⟨(), RpcServer.require_eq_ok.2 h.blckSize_ne,
    RpcServer.require_eq_ok.2 (h.elementsFit p useCount)⟩

theorem Sendable.requireInside :
    RpcServer.requireInside (remoteData dispatcher t).2.toNat t.shape
      (remoteRegion server dispatcher t) = .ok () := by
  by_cases hin : InServer dispatcher t
  · obtain ⟨remotePtr, hbuffer⟩ := hin
    obtain ⟨hne, r, hr, hend, hstart, hsize⟩ := h.inside remotePtr hbuffer
    rw [remoteRegion, remoteData_of_inServer hbuffer, if_neg hne, hr, RpcServer.requireInside]
    split_ifs
    · refine RpcServer.require_eq_ok.2 ?_
      change ¬(wrapSize (t.data.toNat + t.shape.nbytes) < t.data.toNat ∨
        t.data.toNat < r.getBase ∨
        wrapSize (t.data.toNat + t.shape.nbytes) > wrapSize (r.getBase + r.size))
      rw [wrapSize, wrapSize, Nat.mod_eq_of_lt (by omega), Nat.mod_eq_of_lt hend]
      omega
    · rfl
  · rw [remoteRegion, remoteData_of_not_inServer hin, if_pos rfl]
    rfl

theorem Sendable.deserializeTensor :
    server.deserializeTensor (serializeTensor dispatcher p t useCount) =
      .ok (received server dispatcher t) := by
  have hinside := h.requireInside
  rw [← h.shapeOf_eq p useCount] at hinside
  refine bind_eq_ok.2 ⟨(), RpcServer.require_eq_ok.2 h.type_lt, ?_⟩
  refine bind_eq_ok.2 ⟨(), RpcServer.require_eq_ok.2 h.blckSize_ne, ?_⟩
  refine bind_eq_ok.2 ⟨(), RpcServer.require_eq_ok.2 (h.elementsFit p useCount), ?_⟩
  refine bind_eq_ok.2 ⟨(), hinside, congrArg Except.ok ?_⟩
  have hname : (RpcServer.cString (serializeTensor dispatcher p t useCount).name).take
      (ggmlMaxName - 1) = t.name.chars := by
    rw [serializeTensor, cString_name]
    exact List.take_of_length_le (Nat.le_sub_one_of_lt t.name.length_lt)
  rw [h.shapeOf_eq p useCount, hname]
  rfl

theorem Sendable.addressed :
    ¬((received server dispatcher t).buffer.isNone ∧ (received server dispatcher t).data ≠ 0) := by
  rintro ⟨hnone, hdata⟩
  by_cases hin : InServer dispatcher t
  · obtain ⟨remotePtr, hbuffer⟩ := hin
    obtain ⟨hne, r, hr, -⟩ := h.inside remotePtr hbuffer
    simp only [received, remoteRegion, remoteData_of_inServer hbuffer, if_neg hne, hr] at hnone
    cases hnone
  · exact hdata (congrArg Prod.snd (remoteData_of_not_inServer hin))

end

end RpcGraph
end RocmFpx
