import RocmFpx.DynTallocr
import Mathlib.Data.Fintype.Basic

/-!
The graph allocator. A dry run over the graph asks the planning allocators for an address of
every tensor and frees it after its last use; what it found is recorded slot by slot, for the
nodes, their sources and the leafs. A later graph is placed from these slots, without a new
dry run where its tensors fit them.

A tensor is its index in the graph, a buffer type its number; buffers of one type share their
allocator and their memory, so both are kept by type. What a tensor needs in a buffer of a
type is up to the backend and given as `sizes`. `none` is a failing assertion. Memory for the
buffers is always available, and the hash table, a map here, has room for the tensors.
-/

namespace RocmFpx

/-- The operations that `ggml_op_can_inplace` names, `GGML_OP_NONE` and any other. -/
inductive GgmlOp where
  | none | fill | scale | diagMaskZero | diagMaskInf | add | addId | add1 | sub | mul | div | sqr
  | sqrt | log | unary | rope | ropeBack | siluBack | rmsNorm | rmsNormBack | clamp | softMax
  | softMaxBack | other
  deriving DecidableEq, Inhabited

/-- `ggml_op_can_inplace`. -/
def GgmlOp.canInplace : GgmlOp → Bool
  | .none | .other => false
  | _ => true

/-- What `ggml_are_same_layout` compares. -/
structure TensorLayout where
  type : ℕ
  ne : Fin 4 → ℕ
  nb : Fin 4 → ℕ
  deriving DecidableEq

/-- `ggml_tensor`, as far as the allocator reads it; `data` is set if the tensor was allocated
before, `buffer` if it is on a buffer. -/
structure GraphTensor where
  op : GgmlOp
  layout : TensorLayout
  src : Fin 10 → Option ℕ
  viewSrc : Option ℕ
  isInput : Bool
  isOutput : Bool
  data : Option ℕ
  buffer : Bool

instance : Inhabited GraphTensor where
  default := ⟨.none, ⟨0, fun _ => 0, fun _ => 0⟩, fun _ => none, none, false, false, none, false⟩

/-- `ggml_cgraph`. -/
structure CGraph where
  tensors : List GraphTensor
  nodes : List ℕ
  leafs : List ℕ

namespace CGraph

variable (graph : CGraph)

def tensor (t : ℕ) : GraphTensor := graph.tensors.getD t default

/-- The sources that are not null, in order. -/
def srcs (t : ℕ) : List ℕ := (List.finRange 10).filterMap (graph.tensor t).src

/-- The loop down the views, with the number of tensors as its bound. -/
def rootLoop : ℕ → ℕ → ℕ
  | 0, t => t
  | fuel + 1, t =>
    match (graph.tensor t).viewSrc with
    | none => t
    | some v => rootLoop fuel v

def root (t : ℕ) : ℕ := graph.rootLoop graph.tensors.length t

end CGraph

/-- `hash_node`. -/
structure HashNode where
  nChildren : ℤ
  nViews : ℤ
  bufferId : ℕ
  addr : BufferAddress
  allocated : Bool

/-- All zero, after the hash values were cleared. -/
def HashNode.zero : HashNode := ⟨0, 0, 0, ⟨0, 0⟩, false⟩

/-- `tensor_alloc`; `none` are the id -1 and the invalid address. -/
structure TensorAlloc where
  bufferId : Option ℕ
  addr : Option BufferAddress
  sizeMax : ℕ

/-- `node_alloc`, with the sources that are not null. -/
structure NodeAlloc where
  dst : TensorAlloc
  src : List TensorAlloc

/-- `ggml_gallocr`. A vbuffer is the list of its chunk sizes. -/
structure Gallocr where
  bufts : List ℕ
  tallocs : ℕ → DynTallocr
  buffers : ℕ → Option (List ℕ)
  hash : ℕ → HashNode
  nodeAllocs : List NodeAlloc
  leafAllocs : List TensorAlloc
  pinned : List ℕ

namespace Gallocr

variable (graph : CGraph) (sizes : ℕ → ℕ → ℕ) (g : Gallocr)

/-- The type of buffer `id`. -/
def buft (id : ℕ) : ℕ := g.bufts.getD id 0

def setHash (t : ℕ) (hn : HashNode) : Gallocr := { g with hash := Function.update g.hash t hn }

def setTalloc (buft : ℕ) (alloc : DynTallocr) : Gallocr :=
  { g with tallocs := Function.update g.tallocs buft alloc }

/-- `ggml_backend_buft_get_alloc_size` for the buffer with the given id. -/
def allocSize (id t : ℕ) : ℕ := sizes (g.buft id) t

/-! ## The dry run -/

def isPinned (t : ℕ) : Bool := decide (graph.root t ∈ g.pinned)

def isAllocated (t : ℕ) : Bool :=
  (graph.tensor t).data.isSome || (graph.tensor t).buffer || (g.hash t).allocated

/-- `ggml_gallocr_free_extra_space`. -/
def freeExtraSpace (node parent : ℕ) : Option Gallocr :=
  let hn := g.hash node
  let pHn := g.hash parent
  let parentSize := g.allocSize sizes pHn.bufferId parent
  let nodeSize := g.allocSize sizes hn.bufferId node
  if parentSize ≥ nodeSize then
    let pAlloc := g.tallocs (g.buft pHn.bufferId)
    let parentSize := alignedOffset parentSize pAlloc.alignment
    let nodeSize := alignedOffset nodeSize pAlloc.alignment
    if parentSize > nodeSize then do
      let pAlloc ← pAlloc.freeBytes ⟨pHn.addr.chunk, wrapSize (pHn.addr.offset + nodeSize)⟩
        (parentSize - nodeSize)
      some (g.setTalloc (g.buft pHn.bufferId) pAlloc)
    else some g
  else none

/-- The tensor whose memory `node` can take over from the source `parent`: `parent` itself,
or what it is a view of. -/
def reusable (node parent : ℕ) : Option ℕ :=
  if ¬ (g.hash parent).allocated then none
  else if g.isPinned graph parent then none
  else if (graph.tensor parent).isOutput ∨
      (graph.tensor parent).viewSrc.any fun v => (graph.tensor v).isOutput then none
  else if (graph.tensor node).layout ≠ (graph.tensor parent).layout then none
  else if (g.hash parent).nChildren = 1 ∧ (g.hash parent).nViews = 0 then
    match (graph.tensor parent).viewSrc with
    | some v =>
      if (g.hash v).nViews = 1 ∧ (g.hash v).nChildren = 0 ∧
          (graph.tensor v).data = (graph.tensor parent).data then some v
      else none
    | none => some parent
  else none

/-- `ggml_gallocr_allocate_node`. -/
def allocateNode (g : Gallocr) (node bufferId : ℕ) : Option Gallocr :=
  if ¬ g.isAllocated graph node ∧ (graph.tensor node).viewSrc.isNone then
    let g := g.setHash node { g.hash node with allocated := true }
    let reuse :=
      if (graph.tensor node).op.canInplace then
        (graph.srcs node).findSome? fun parent =>
          (g.reusable graph node parent).map fun owner => (parent, owner)
      else none
    match reuse with
    | some (parent, owner) =>
      let g := g.setHash node { g.hash node with
        bufferId := (g.hash parent).bufferId, addr := (g.hash parent).addr }
      let g := g.setHash parent { g.hash parent with allocated := false }
      let g := g.setHash owner { g.hash owner with allocated := false }
      g.freeExtraSpace sizes node owner
    | none => do
      let r ← (g.tallocs (g.buft bufferId)).alloc (g.allocSize sizes bufferId node)
      let g := g.setHash node { g.hash node with bufferId := bufferId, addr := r.2 }
      some (g.setTalloc (g.buft bufferId) r.1)
  else some g

/-- `ggml_gallocr_free_node`. -/
def freeNode (node : ℕ) : Option Gallocr :=
  if (graph.tensor node).isOutput then some g
  else if g.isPinned graph node then some g
  else do
    let hn := g.hash node
    let alloc ← (g.tallocs (g.buft hn.bufferId)).freeBytes hn.addr
      (g.allocSize sizes hn.bufferId node)
    some ((g.setTalloc (g.buft hn.bufferId) alloc).setHash node { hn with allocated := false })

/-- The first loop over the nodes: children and views are counted and inputs allocated. -/
def countNode (nodeBufferIds : ℕ → ℕ) (g : Gallocr) (p : ℕ × ℕ) : Option Gallocr := do
  let (node, i) := p
  let g :=
    match (graph.tensor node).viewSrc with
    | some v =>
      if (graph.tensor node).op ≠ .none then
        g.setHash v { g.hash v with nViews := (g.hash v).nViews + 1 }
      else g
    | none => g
  let g ← if (graph.tensor node).isInput then allocateNode graph sizes g node (nodeBufferIds i)
    else some g
  (graph.srcs node).foldlM (fun g src => do
    let g := g.setHash src { g.hash src with nChildren := (g.hash src).nChildren + 1 }
    if (graph.tensor src).isInput then allocateNode graph sizes g src (nodeBufferIds i)
    else some g) g

/-- A source was used: with its last use its memory is freed, or that of what it is a view
of. -/
def releaseParent (g : Gallocr) (parent : ℕ) : Option Gallocr :=
  let g := g.setHash parent { g.hash parent with nChildren := (g.hash parent).nChildren - 1 }
  if (g.hash parent).nChildren = 0 ∧ (g.hash parent).nViews = 0 then
    match (graph.tensor parent).viewSrc with
    | some v =>
      let g := g.setHash v { g.hash v with nViews := (g.hash v).nViews - 1 }
      if (g.hash v).nViews = 0 ∧ (g.hash v).nChildren = 0 ∧ (g.hash v).allocated then
        g.freeNode graph sizes v
      else some g
    | none => if (g.hash parent).allocated then g.freeNode graph sizes parent else some g
  else some g

/-- The second loop over the nodes. -/
def runNode (nodeBufferIds : ℕ → ℕ) (g : Gallocr) (p : ℕ × ℕ) : Option Gallocr := do
  let (node, i) := p
  let g ← (graph.srcs node).foldlM
    (fun g parent => allocateNode graph sizes g parent (nodeBufferIds i)) g
  let g ← allocateNode graph sizes g node (nodeBufferIds i)
  (graph.srcs node).foldlM (releaseParent graph sizes) g

/-- `ggml_gallocr_alloc_graph_impl`; with null ids all of them are 0. -/
def allocGraphImpl (nodeBufferIds leafBufferIds : ℕ → ℕ) (g : Gallocr) : Option Gallocr := do
  let g := { g with hash := fun _ => HashNode.zero }
  let g ← graph.leafs.zipIdx.foldlM
    (fun g p => allocateNode graph sizes g p.1 (leafBufferIds p.2)) g
  let g ← graph.nodes.zipIdx.foldlM (countNode graph sizes nodeBufferIds) g
  graph.nodes.zipIdx.foldlM (runNode graph sizes nodeBufferIds) g

/-! ## The reservation -/

/-- The slot of a tensor. -/
def record (t : ℕ) : TensorAlloc :=
  if (graph.tensor t).viewSrc.isSome || (graph.tensor t).data.isSome then ⟨none, none, 0⟩
  else
    let hn := g.hash t
    ⟨some hn.bufferId, some hn.addr, g.allocSize sizes hn.bufferId t⟩

def recordNode (node : ℕ) : NodeAlloc :=
  ⟨g.record graph sizes node, (graph.srcs node).map (g.record graph sizes)⟩

/-- `ggml_dyn_tallocr_max_size` of every chunk. -/
def chunkSizes (buft : ℕ) : List ℕ := (g.tallocs buft).chunks.map TallocrChunk.maxSize

/-- A buffer is allocated anew if there is none or if a chunk has become larger. -/
def reallocBuffer (buft : ℕ) : Option (List ℕ) :=
  match g.buffers buft with
  | none => some (g.chunkSizes buft)
  | some cur =>
    if (g.chunkSizes buft).zipIdx.any fun p => decide (p.1 > cur.getD p.2 0) then
      some (g.chunkSizes buft)
    else some cur

/-- `ggml_gallocr_reserve_n`. -/
def reserveN (nodeBufferIds leafBufferIds : ℕ → ℕ) : Option Gallocr := do
  let g := { g with tallocs := fun buft => { g.tallocs buft with chunks := [] } }
  let g ← allocGraphImpl graph sizes nodeBufferIds leafBufferIds g
  let g := { g with
    nodeAllocs := graph.nodes.map (g.recordNode graph sizes)
    leafAllocs := graph.leafs.map (g.record graph sizes) }
  some { g with
    buffers := fun buft => if buft ∈ g.bufts then g.reallocBuffer buft else g.buffers buft }

/-! ## Placing a graph -/

/-- `ggml_gallocr_node_needs_realloc`, which says that the slot still serves. -/
def nodeNeedsRealloc (t : ℕ) (talloc : TensorAlloc) : Bool :=
  if (graph.tensor t).data.isNone && (graph.tensor t).viewSrc.isNone then
    match talloc.bufferId with
    | none => false
    | some id => decide (talloc.sizeMax ≥ g.allocSize sizes id t)
  else decide (talloc.sizeMax ≥ 0)

/-- `ggml_gallocr_needs_realloc`. -/
def needsRealloc : Bool :=
  decide (g.nodeAllocs.length ≠ graph.nodes.length) ||
    decide (g.leafAllocs.length ≠ graph.leafs.length) ||
    !(graph.nodes.zip g.nodeAllocs).all fun p =>
      g.nodeNeedsRealloc graph sizes p.1 p.2.dst &&
        ((graph.srcs p.1).zip p.2.src).all fun q => g.nodeNeedsRealloc graph sizes q.1 q.2

/-- A tensor that was given its address. -/
structure Placement where
  tensor : ℕ
  bufferId : ℕ
  addr : BufferAddress
  sizeMax : ℕ
  deriving DecidableEq

/-- The size of a chunk of a buffer, if both are there. -/
def chunkSize? (id : ℕ) (addr : BufferAddress) : Option ℕ := do
  let chunks ← g.buffers (g.buft id)
  chunks[addr.chunk]?

/-- The assertions of `ggml_backend_tensor_alloc`; only those buffers that are made of other
buffers may be passed at the end. -/
def tensorAllocOk (isMeta : ℕ → Bool) (t id : ℕ) (addr : BufferAddress) : Bool :=
  !(graph.tensor t).buffer &&
    match g.chunkSize? id addr with
    | none => false
    | some size => isMeta (g.buft id) || decide (addr.offset + g.allocSize sizes id t ≤ size)

/-- `ggml_gallocr_init_tensor`. A tensor is left alone if it has its data, placed in an earlier
slot or before; views of tensors on a buffer need the data of these. -/
def initTensor (isMeta : ℕ → Bool) (placed : List Placement) (t : ℕ) (talloc : TensorAlloc) :
    Option (List Placement) :=
  match (graph.tensor t).viewSrc with
  | some v =>
    if !(graph.tensor t).buffer && (graph.tensor v).buffer && (graph.tensor v).data.isNone then none
    else some placed
  | none =>
    if (graph.tensor t).data.isSome || placed.any fun p => decide (p.tensor = t) then some placed
    else
      match talloc.bufferId, talloc.addr with
      | some id, some addr =>
        if g.tensorAllocOk graph sizes isMeta t id addr then
          some (placed ++ [⟨t, id, addr, talloc.sizeMax⟩])
        else none
      | _, _ => none

/-- The slots in the order in which they are used. -/
def slots : List (ℕ × TensorAlloc) :=
  graph.leafs.zip g.leafAllocs ++
    (graph.nodes.zip g.nodeAllocs).flatMap fun p => (graph.srcs p.1).zip p.2.src ++ [(p.1, p.2.dst)]

/-- What has been placed at the end, or when an assertion stops the program. -/
def initTensors (isMeta : ℕ → Bool) : List (ℕ × TensorAlloc) → List Placement → List Placement
  | [], placed => placed
  | slot :: rest, placed =>
    match g.initTensor graph sizes isMeta placed slot.1 slot.2 with
    | none => placed
    | some placed => initTensors isMeta rest placed

/-- `ggml_gallocr_alloc_graph` with the placements it makes; `none` if it returns false. -/
def allocGraph (isMeta : ℕ → Bool) : Option (List Placement) :=
  if g.needsRealloc graph sizes then
    if g.bufts.length = 1 then do
      let g ← g.reserveN graph sizes (fun _ => 0) fun _ => 0
      some (g.initTensors graph sizes isMeta (g.slots graph) [])
    else none
  else some (g.initTensors graph sizes isMeta (g.slots graph) [])

end Gallocr
end RocmFpx

/-!
Placing a graph in the slots that another graph of the same shape reserved. The check that
allows it reads the slots of the nodes and of their sources, not those of the leafs: a leaf
that no node uses is placed unchecked.
-/

namespace RocmFpx.Gallocr

variable (graph : CGraph) (sizes : ℕ → ℕ → ℕ) (isMeta : ℕ → Bool) (g : Gallocr)

/-- Every placed tensor stays within the size that was reserved for it; so it stays clear of
what its reserved range stays clear of, and within its buffer. -/
structure SafePlacements (placed : List Placement) : Prop where
  fits : ∀ p ∈ placed, g.allocSize sizes p.bufferId p.tensor ≤ p.sizeMax
  apart : ∀ p ∈ placed, ∀ q ∈ placed, g.buft p.bufferId = g.buft q.bufferId →
    p.addr.chunk = q.addr.chunk →
    p.addr.offset + p.sizeMax ≤ q.addr.offset ∨ q.addr.offset + q.sizeMax ≤ p.addr.offset →
    p.addr.offset + g.allocSize sizes p.bufferId p.tensor ≤ q.addr.offset ∨
      q.addr.offset + q.sizeMax ≤ p.addr.offset
  inside : ∀ p ∈ placed, isMeta (g.buft p.bufferId) = false →
    ∃ size, g.chunkSize? p.bufferId p.addr = some size ∧
      p.addr.offset + g.allocSize sizes p.bufferId p.tensor ≤ size

/-- The tensor gets its address from the allocator. -/
def Placeable (t : ℕ) : Prop := (graph.tensor t).viewSrc = none ∧ (graph.tensor t).data = none

instance (t : ℕ) : Decidable (Placeable graph t) := instDecidableAnd

/-- A tensor that the check looks at. -/
def Checked (t : ℕ) : Prop := t ∈ graph.nodes ∨ ∃ node ∈ graph.nodes, t ∈ graph.srcs node

/-- No assertion stops the program at the slot `talloc` of `t`. -/
def initOk (t : ℕ) (talloc : TensorAlloc) : Bool :=
  match (graph.tensor t).viewSrc with
  | some v => !(!(graph.tensor t).buffer && (graph.tensor v).buffer && (graph.tensor v).data.isNone)
  | none => (graph.tensor t).data.isSome ||
      match talloc.bufferId, talloc.addr with
      | some id, some addr => g.tensorAllocOk graph sizes isMeta t id addr
      | _, _ => false

variable {graph sizes isMeta g}

/-! ## The slots -/

theorem reserveN_tables {nodeBufferIds leafBufferIds : ℕ → ℕ} {g₀ : Gallocr}
    (h : g₀.reserveN graph sizes nodeBufferIds leafBufferIds = some g) :
    g.nodeAllocs = graph.nodes.map (g.recordNode graph sizes) ∧
      g.leafAllocs = graph.leafs.map (g.record graph sizes) := by
  obtain ⟨g₁, -, h⟩ := Option.bind_eq_some_iff.mp h
  obtain rfl := Option.some.inj h
  exact ⟨rfl, rfl⟩

theorem record_of_placeable {t : ℕ} (h : Placeable graph t) :
    g.record graph sizes t = ⟨some (g.hash t).bufferId, some (g.hash t).addr,
      g.allocSize sizes (g.hash t).bufferId t⟩ := by
  rw [record, if_neg]
  simp [h.1, h.2]

theorem zip_map_right {α β : Type*} (f : α → β) (l : List α) :
    l.zip (l.map f) = l.map fun a => (a, f a) := by
  induction l with
  | nil => rfl
  | cons a l ih => rw [List.map_cons, List.map_cons, List.zip_cons_cons, ih]

/-- The tensors in the order in which their slots are used. -/
def order (graph : CGraph) : List ℕ :=
  graph.leafs ++ graph.nodes.flatMap fun node => graph.srcs node ++ [node]

theorem slots_eq (hnodes : g.nodeAllocs = graph.nodes.map (g.recordNode graph sizes))
    (hleafs : g.leafAllocs = graph.leafs.map (g.record graph sizes)) :
    g.slots graph = (order graph).map fun t => (t, g.record graph sizes t) := by
  rw [slots, hnodes, hleafs, zip_map_right, zip_map_right, order, List.map_append,
    List.map_flatMap, List.flatMap_map]
  congr 2
  funext node
  rw [recordNode, zip_map_right, List.map_append]
  rfl

/-! ## The check -/

theorem nodeNeedsRealloc_of_placeable {sizes' : ℕ → ℕ → ℕ} {t : ℕ} (h : Placeable graph t) :
    g.nodeNeedsRealloc graph sizes' t (g.record graph sizes t) = true ↔
      g.allocSize sizes' (g.hash t).bufferId t ≤ g.allocSize sizes (g.hash t).bufferId t := by
  rw [nodeNeedsRealloc, record_of_placeable h, h.1, h.2]
  simp

theorem needsRealloc_false {sizes' : ℕ → ℕ → ℕ}
    (hnodes : g.nodeAllocs = graph.nodes.map (g.recordNode graph sizes))
    (h : g.needsRealloc graph sizes' = false) {t : ℕ} (ht : Checked graph t)
    (hplace : Placeable graph t) :
    g.allocSize sizes' (g.hash t).bufferId t ≤ g.allocSize sizes (g.hash t).bufferId t := by
  rw [needsRealloc, Bool.or_eq_false_iff, Bool.or_eq_false_iff, Bool.not_eq_false', hnodes,
    zip_map_right, List.all_map, List.all_eq_true] at h
  rw [← nodeNeedsRealloc_of_placeable hplace]
  have hserves : ∀ node ∈ graph.nodes, g.nodeNeedsRealloc graph sizes' node
      (g.record graph sizes node) = true ∧ ∀ src ∈ graph.srcs node,
        g.nodeNeedsRealloc graph sizes' src (g.record graph sizes src) = true := by
    intro node hnode
    have hboth := Bool.and_eq_true_iff.mp (h.2 node hnode)
    refine ⟨hboth.1, fun src hsrc => ?_⟩
    have hall := hboth.2
    simp only [recordNode] at hall
    rw [zip_map_right, List.all_map] at hall
    exact List.all_eq_true.mp hall src hsrc
  rcases ht with hnode | ⟨node, hnode, hsrc⟩
  · exact (hserves t hnode).1
  · exact (hserves node hnode).2 t hsrc

/-! ## The placements -/

/-- The placement of a tensor by its record. -/
def placement (g : Gallocr) (sizes : ℕ → ℕ → ℕ) (t : ℕ) : Placement :=
  ⟨t, (g.hash t).bufferId, (g.hash t).addr, g.allocSize sizes (g.hash t).bufferId t⟩

/-- The tensors before the one at which an assertion stops the program. -/
def reached (g : Gallocr) (graph : CGraph) (sizes sizes' : ℕ → ℕ → ℕ) (isMeta : ℕ → Bool)
    (ts : List ℕ) : List ℕ :=
  ts.takeWhile fun t => g.initOk graph sizes' isMeta t (g.record graph sizes t)

theorem initTensor_record {sizes' : ℕ → ℕ → ℕ} {placed : List Placement} {t : ℕ}
    (hplaced : ∀ p ∈ placed,
      g.initOk graph sizes' isMeta p.tensor (g.record graph sizes p.tensor) = true) :
    g.initTensor graph sizes' isMeta placed t (g.record graph sizes t) =
      if g.initOk graph sizes' isMeta t (g.record graph sizes t) then
        some (if Placeable graph t ∧ ¬ ∃ p ∈ placed, p.tensor = t then
          placed ++ [g.placement sizes t] else placed)
      else none := by
  rw [initTensor, initOk]
  cases hview : (graph.tensor t).viewSrc with
  | some v =>
    simp only [Placeable, hview, reduceCtorEq, false_and, if_false, Bool.not_eq_true']
    split_ifs <;> simp_all
  | none =>
    cases hdata : (graph.tensor t).data with
    | some d => simp [Placeable, hdata]
    | none =>
      have hplace : Placeable graph t := ⟨hview, hdata⟩
      rw [record_of_placeable hplace]
      by_cases hin : ∃ p ∈ placed, p.tensor = t
      · have hok : g.tensorAllocOk graph sizes' isMeta t (g.hash t).bufferId (g.hash t).addr = true := by
          obtain ⟨p, hp, rfl⟩ := hin
          have := hplaced p hp
          rw [initOk, hview, hdata, record_of_placeable hplace] at this
          simpa using this
        have hany : (placed.any fun p => decide (p.tensor = t)) = true := by
          simpa using hin
        simp [hany, hok, hin]
      · have hany : (placed.any fun p => decide (p.tensor = t)) = false := by
          simpa using hin
        simp [hany, hin, hplace, placement]

theorem mem_initTensors {sizes' : ℕ → ℕ → ℕ} (ts : List ℕ) {placed : List Placement}
    (hplaced : ∀ p ∈ placed, p = g.placement sizes p.tensor ∧
      g.initOk graph sizes' isMeta p.tensor (g.record graph sizes p.tensor) = true)
    (p : Placement) :
    p ∈ g.initTensors graph sizes' isMeta (ts.map fun t => (t, g.record graph sizes t)) placed ↔
      p ∈ placed ∨ ∃ t ∈ g.reached graph sizes sizes' isMeta ts,
        Placeable graph t ∧ p = g.placement sizes t := by
  induction ts generalizing placed with
  | nil => simp [initTensors, reached]
  | cons t ts ih =>
    rw [List.map_cons, initTensors, initTensor_record fun p hp => (hplaced p hp).2]
    by_cases hok : g.initOk graph sizes' isMeta t (g.record graph sizes t) = true
    · have hmem : ∀ q, (q ∈ if Placeable graph t ∧ ¬ ∃ p ∈ placed, p.tensor = t then
          placed ++ [g.placement sizes t] else placed) ↔
          q ∈ placed ∨ (Placeable graph t ∧ q = g.placement sizes t) := by
        intro q
        split_ifs with hnew
        · rw [List.mem_append, List.mem_singleton, and_iff_right hnew.1]
        · refine ⟨Or.inl, fun hq => hq.elim id fun ⟨hplace, heq⟩ => ?_⟩
          rw [not_and, not_not] at hnew
          obtain ⟨p, hp, rfl⟩ := hnew hplace
          rw [heq, ← (hplaced p hp).1]
          exact hp
      have hreached : g.reached graph sizes sizes' isMeta (t :: ts) =
          t :: g.reached graph sizes sizes' isMeta ts := List.takeWhile_cons_of_pos hok
      rw [if_pos hok]
      simp only
      rw [ih, hmem, hreached, List.exists_mem_cons_iff, or_assoc]
      intro q hq
      rcases (hmem q).mp hq with hq | ⟨-, rfl⟩
      · exact hplaced q hq
      · exact ⟨rfl, hok⟩
    · have hreached : g.reached graph sizes sizes' isMeta (t :: ts) = [] :=
        List.takeWhile_cons_of_neg hok
      rw [if_neg hok, hreached]
      simp

theorem reached_append (sizes' : ℕ → ℕ → ℕ) (ts us : List ℕ) :
    g.reached graph sizes sizes' isMeta ts ⊆ g.reached graph sizes sizes' isMeta (ts ++ us) ∧
      ∀ t ∈ g.reached graph sizes sizes' isMeta (ts ++ us),
        t ∈ g.reached graph sizes sizes' isMeta ts ∨ t ∈ us := by
  simp only [reached, List.takeWhile_append]
  split_ifs with hall
  · rw [(List.takeWhile_prefix _).eq_of_length hall]
    refine ⟨List.subset_append_left _ _, fun t ht => ?_⟩
    exact (List.mem_append.mp ht).imp_right fun h => (List.takeWhile_sublist _).subset h
  · exact ⟨List.Subset.refl _, fun t ht => .inl ht⟩

theorem checked_of_order {t : ℕ}
    (ht : t ∈ graph.nodes.flatMap fun node => graph.srcs node ++ [node]) : Checked graph t := by
  obtain ⟨node, hnode, ht⟩ := List.mem_flatMap.mp ht
  rcases List.mem_append.mp ht with hsrc | hself
  · exact .inr ⟨node, hnode, hsrc⟩
  · rw [List.mem_singleton.mp hself]
    exact .inl hnode

theorem initOk_inside {sizes' : ℕ → ℕ → ℕ} {t : ℕ} (hplace : Placeable graph t)
    (hok : g.initOk graph sizes' isMeta t (g.record graph sizes t) = true)
    (hmeta : isMeta (g.buft (g.hash t).bufferId) = false) :
    ∃ size, g.chunkSize? (g.hash t).bufferId (g.hash t).addr = some size ∧
      (g.hash t).addr.offset + g.allocSize sizes' (g.hash t).bufferId t ≤ size := by
  rw [initOk, hplace.1, hplace.2, record_of_placeable hplace] at hok
  simp only [Option.isSome_none, Bool.false_or] at hok
  rw [tensorAllocOk, Bool.and_eq_true] at hok
  have hend := hok.2
  cases hsize : g.chunkSize? (g.hash t).bufferId (g.hash t).addr with
  | none => simp [hsize] at hend
  | some size =>
    simp only [hsize, hmeta, Bool.false_or, decide_eq_true_eq] at hend
    exact ⟨size, rfl, hend⟩

/-! ## Reusing a reservation -/

/-- Where the check asks for no new reservation, the placements are safe precisely when no leaf
has grown that the check does not see; leafs behind a failing assertion do not count. -/
theorem allocGraph_safe_iff {nodeBufferIds leafBufferIds : ℕ → ℕ} {g₀ : Gallocr}
    (hreserve : g₀.reserveN graph sizes nodeBufferIds leafBufferIds = some g)
    {sizes' : ℕ → ℕ → ℕ} (hneeds : g.needsRealloc graph sizes' = false) :
    (∃ placed, g.allocGraph graph sizes' isMeta = some placed ∧
        SafePlacements sizes' isMeta g placed) ↔
      ∀ t ∈ g.reached graph sizes sizes' isMeta graph.leafs, Placeable graph t → ¬ Checked graph t →
        g.allocSize sizes' (g.hash t).bufferId t ≤ g.allocSize sizes (g.hash t).bufferId t := by
  obtain ⟨hnodes, hleafs⟩ := reserveN_tables hreserve
  have hrun : g.allocGraph graph sizes' isMeta =
      some (g.initTensors graph sizes' isMeta
        ((order graph).map fun t => (t, g.record graph sizes t)) []) := by
    rw [allocGraph, hneeds, if_neg Bool.false_ne_true, slots_eq hnodes hleafs]
  have hmem := fun p => @mem_initTensors graph sizes isMeta g sizes' (order graph) [] (by simp) p
  simp only [List.not_mem_nil, false_or] at hmem
  constructor
  · rintro ⟨placed, hplaced, hsafe⟩ t ht hplace -
    obtain rfl := Option.some.inj (hrun.symm.trans hplaced)
    refine hsafe.fits (g.placement sizes t) ((hmem _).mpr ⟨t, ?_, hplace, rfl⟩)
    exact (reached_append sizes' _ _).1 ht
  · intro hleaf
    have hfits : ∀ t ∈ g.reached graph sizes sizes' isMeta (order graph), Placeable graph t →
        g.allocSize sizes' (g.hash t).bufferId t ≤ g.allocSize sizes (g.hash t).bufferId t := by
      intro t ht hplace
      by_cases hchecked : Checked graph t
      · exact needsRealloc_false hnodes hneeds hchecked hplace
      · refine hleaf t ?_ hplace hchecked
        exact ((reached_append sizes' _ _).2 t ht).resolve_right fun h =>
          hchecked (checked_of_order h)
    refine ⟨_, hrun, ?_, ?_, ?_⟩
    · intro p hp
      obtain ⟨t, ht, hplace, rfl⟩ := (hmem p).mp hp
      exact hfits t ht hplace
    · intro p hp q _ _ _ hreserved
      obtain ⟨t, ht, hplace, rfl⟩ := (hmem p).mp hp
      refine hreserved.imp_left fun hbefore => le_trans ?_ hbefore
      exact Nat.add_le_add_left (hfits t ht hplace) _
    · intro p hp hmeta
      obtain ⟨t, ht, hplace, rfl⟩ := (hmem p).mp hp
      have hok : g.initOk graph sizes' isMeta t (g.record graph sizes t) = true :=
        List.mem_takeWhile_imp (p := fun t => g.initOk graph sizes' isMeta t _) ht
      exact initOk_inside hplace hok hmeta

/-! ## A leaf that no node uses -/

def plainTensor (op : GgmlOp) (src : Fin 10 → Option ℕ) : GraphTensor :=
  ⟨op, ⟨0, fun _ => 1, fun _ => 4⟩, src, none, false, false, none, false⟩

/-- The node 2 uses the leaf 1, and the leaf 0 is there for the application. -/
def spareLeaf : CGraph where
  tensors := [plainTensor .none fun _ => none, plainTensor .none fun _ => none,
    plainTensor .other fun j => if j = 0 then some 1 else none]
  nodes := [2]
  leafs := [0, 1]

/-- One buffer type with an alignment of 32 bytes. -/
def freshGallocr : Gallocr where
  bufts := [0]
  tallocs := fun _ => ⟨32, sizeMax, []⟩
  buffers := fun _ => none
  hash := fun _ => HashNode.zero
  nodeAllocs := []
  leafAllocs := []
  pinned := []

def reservedGallocr : Gallocr :=
  (freshGallocr.reserveN spareLeaf (fun _ _ => 32) (fun _ => 0) fun _ => 0).get
    (by decide +kernel)

theorem reserveN_spareLeaf :
    freshGallocr.reserveN spareLeaf (fun _ _ => 32) (fun _ => 0) (fun _ => 0) =
      some reservedGallocr :=
  (Option.some_get _).symm

/-- The leaf 0 has grown to 64 bytes. -/
def grownSizes (_ t : ℕ) : ℕ := if t = 0 then 64 else 32

/-- No new reservation is asked for, and the leaf 0 reaches over the leaf 1. -/
theorem allocGraph_overruns : ¬ ∀ (g₀ g : Gallocr) (graph : CGraph) (sizes sizes' : ℕ → ℕ → ℕ)
    (nodeBufferIds leafBufferIds : ℕ → ℕ) (placed : List Placement),
    g₀.reserveN graph sizes nodeBufferIds leafBufferIds = some g →
    g.needsRealloc graph sizes' = false →
    g.allocGraph graph sizes' (fun _ => false) = some placed →
    SafePlacements sizes' (fun _ => false) g placed := by
  intro hall
  have hplaced : reservedGallocr.allocGraph spareLeaf grownSizes (fun _ => false) =
      some [⟨0, 0, ⟨0, 0⟩, 32⟩, ⟨1, 0, ⟨0, 32⟩, 32⟩, ⟨2, 0, ⟨0, 64⟩, 32⟩] := by decide +kernel
  have hsafe := hall _ _ _ _ _ _ _ _ reserveN_spareLeaf (by decide +kernel) hplaced
  exact absurd (hsafe.fits _ List.mem_cons_self) (by decide +kernel)

/-- The graph that made the reservation is placed again. -/
theorem allocGraph_safe_spareLeaf :
    (∃ placed, reservedGallocr.allocGraph spareLeaf (fun _ _ => 32) (fun _ => false) = some placed ∧
        SafePlacements (fun _ _ => 32) (fun _ => false) reservedGallocr placed) ↔
      ∀ t ∈ reservedGallocr.reached spareLeaf (fun _ _ => 32) (fun _ _ => 32) (fun _ => false)
        spareLeaf.leafs, Placeable spareLeaf t → ¬ Checked spareLeaf t →
        reservedGallocr.allocSize (fun _ _ => 32) (reservedGallocr.hash t).bufferId t ≤
          reservedGallocr.allocSize (fun _ _ => 32) (reservedGallocr.hash t).bufferId t :=
  allocGraph_safe_iff reserveN_spareLeaf (by decide +kernel)

end RocmFpx.Gallocr
