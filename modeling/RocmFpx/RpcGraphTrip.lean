import RocmFpx.RpcGraph

/-!
What the server builds from the bytes of a graph is the graph. The server walks depth first through
the same children as the client, and numbers the tensors in the order in which it enters them.
-/

namespace RocmFpx
namespace RpcGraph

open ByteReader DepthFirst Fallible

/-! ## Building depth first -/

/-- The children as `create_node` asks for them. -/
def rpcChildren (t : RpcTensor) : List UInt64 := List.ofFn t.src ++ [t.viewSrc]

/-- The pointers to children that have their numbers. -/
def pointers (entered ids : List UInt64) : List (Option ℕ) :=
  ids.map fun id => if id = 0 then none else some (entered.idxOf id)

theorem pointers_append {entered ids : List UInt64} (more : List UInt64)
    (h : ∀ id ∈ ids, id = 0 ∨ id ∈ entered) : pointers (entered ++ more) ids = pointers entered ids := by
  refine List.map_congr_left fun id hid => ?_
  rcases h id hid with rfl | hmem
  · rfl
  · rw [List.idxOf_append_of_mem hmem]

section
variable (server : RpcServer) (memSize graphSize : ℕ) (tensorPtrs : UInt64 → Option RpcTensor)
  (succ : UInt64 → List UInt64)

/-- A tensor that the server can build. -/
structure Buildable (id : UInt64) (t : RpcTensor) (tensor : ServerTensor) : Prop where
  ptr : tensorPtrs id = some t
  shape : checkShape t = .ok ()
  deserialized : server.deserializeTensor t = .ok tensor
  addressed : ¬(tensor.buffer.isNone ∧ tensor.data ≠ 0)
  succ_eq : succ id = (rpcChildren t).filter (· ≠ 0)

/-- The memory of the server at a point of the walk. -/
structure Built (w : Walk UInt64) (ctx : GraphContext) : Prop where
  length : ctx.tensors.length = w.entered.length
  allocated : ctx.allocated = w.entered.length
  tensorMap : ∀ id, ctx.tensorMap id = if id ∈ w.entered then some (w.entered.idxOf id) else none
  left_mem : ∀ id ∈ w.left, id ∈ w.entered ∧ ∀ c ∈ succ id, c ∈ w.entered
  linked : ∀ id ∈ w.left, ∀ t tensor, Buildable server tensorPtrs succ id t tensor →
    ctx.tensors[w.entered.idxOf id]? =
      some (link tensor (pointers w.entered (rpcChildren t)) t.viewOffs)

end

section
variable {server : RpcServer} {memSize graphSize : ℕ} {tensorPtrs : UInt64 → Option RpcTensor}
  {succ : UInt64 → List UInt64} {w w' : Walk UInt64} {ctx : GraphContext} {fuel : ℕ} {id : UInt64}
  {t : RpcTensor} {tensor : ServerTensor}

theorem Buildable.children (h : Buildable server tensorPtrs succ id t tensor)
    (hsucc : ∀ c ∈ succ id, c ∈ w.entered) : ∀ c ∈ rpcChildren t, c = 0 ∨ c ∈ w.entered := by
  intro c hc
  by_cases hzero : c = 0
  · exact .inl hzero
  · refine .inr (hsucc c ?_)
    rw [h.succ_eq]
    exact List.mem_filter.mpr ⟨hc, decide_eq_true hzero⟩

theorem Built.enter (h : Built server tensorPtrs succ w ctx) (hnew : id ∉ w.entered)
    (node : ServerNode) :
    Built server tensorPtrs succ ⟨w.entered ++ [id], w.left⟩
      ⟨ctx.tensors ++ [node], ctx.allocated + 1,
        Function.update ctx.tensorMap id (some ctx.tensors.length)⟩ where
  length := by rw [List.length_append, List.length_append, h.length]; rfl
  allocated := by rw [List.length_append, h.allocated]; rfl
  tensorMap x := by
    change Function.update ctx.tensorMap id (some ctx.tensors.length) x =
      if x ∈ w.entered ++ [id] then some ((w.entered ++ [id]).idxOf x) else none
    by_cases hx : x = id
    · rw [hx, Function.update_self, if_pos (by simp), List.idxOf_append_of_notMem hnew, h.length,
        List.idxOf_cons_self, Nat.add_zero]
    · rw [Function.update_of_ne hx, h.tensorMap]
      by_cases hmem : x ∈ w.entered
      · rw [if_pos hmem, if_pos (List.mem_append_left _ hmem), List.idxOf_append_of_mem hmem]
      · rw [if_neg hmem, if_neg]
        rw [List.mem_append, List.mem_singleton]
        exact not_or.mpr ⟨hmem, hx⟩
  left_mem x hx := by
    obtain ⟨hmem, hsucc⟩ := h.left_mem x hx
    exact ⟨List.mem_append_left _ hmem, fun c hc => List.mem_append_left _ (hsucc c hc)⟩
  linked x hx t tensor hbuild := by
    obtain ⟨hmem, hsucc⟩ := h.left_mem x hx
    rw [List.idxOf_append_of_mem hmem, pointers_append [id] (hbuild.children hsucc),
      ← h.linked x hx t tensor hbuild]
    exact List.getElem?_append_left (h.length ▸ List.idxOf_lt_length_of_mem hmem)

theorem Built.leave (h : Built server tensorPtrs succ w ctx) (hmem : id ∈ w.entered)
    (hsucc : ∀ c ∈ succ id, c ∈ w.entered) (hbuild : Buildable server tensorPtrs succ id t tensor) :
    Built server tensorPtrs succ ⟨w.entered, w.left ++ [id]⟩
      ⟨ctx.tensors.set (w.entered.idxOf id)
        (link tensor (pointers w.entered (rpcChildren t)) t.viewOffs), ctx.allocated,
        ctx.tensorMap⟩ where
  length := by rw [List.length_set, h.length]
  allocated := h.allocated
  tensorMap := h.tensorMap
  left_mem x hx := by
    rcases List.mem_append.mp hx with hx | hx
    · exact h.left_mem x hx
    · rw [List.mem_singleton.mp hx]
      exact ⟨hmem, hsucc⟩
  linked x hx t' tensor' hbuild' := by
    have hlt := h.length ▸ List.idxOf_lt_length_of_mem hmem
    by_cases heq : x = id
    · obtain rfl := heq
      obtain rfl := Option.some.inj (hbuild.ptr.symm.trans hbuild'.ptr)
      obtain rfl := Except.ok.inj (hbuild.deserialized.symm.trans hbuild'.deserialized)
      exact List.getElem?_set_self hlt
    · have hx' : x ∈ w.left := (List.mem_append.mp hx).resolve_right fun hx =>
        heq (List.mem_singleton.mp hx)
      have hne : w.entered.idxOf id ≠ w.entered.idxOf x := fun hidx =>
        heq ((List.idxOf_inj (h.left_mem x hx').1).mp hidx.symm)
      rw [List.getElem?_set_ne hne]
      exact h.linked x hx' t' tensor' hbuild'

/-- What `create_node` does at a node of the walk. -/
def Follows (server : RpcServer) (tensorPtrs : UInt64 → Option RpcTensor)
    (succ : UInt64 → List UInt64) (room : ℕ) (ids : List UInt64)
    (create : GraphContext → UInt64 → Except RpcError (Option ℕ × GraphContext))
    (step : Walk UInt64 → UInt64 → Option (Walk UInt64)) : Prop :=
  ∀ w w' ctx, ∀ id ∈ ids, Built server tensorPtrs succ w ctx → step w id = some w' →
    w'.entered.length ≤ room → ∃ ctx', create ctx id = .ok (some (w'.entered.idxOf id), ctx') ∧
      Built server tensorPtrs succ w' ctx'

theorem createChildren_follows {room : ℕ} {ids : List UInt64}
    {create : GraphContext → UInt64 → Except RpcError (Option ℕ × GraphContext)}
    (hcreate : Follows server tensorPtrs succ room ids create (visit succ fuel))
    {children : List UInt64} (hchildren : ∀ c ∈ children, c = 0 ∨ c ∈ ids)
    (h : Built server tensorPtrs succ w ctx)
    (hwalk : (children.filter (· ≠ 0)).foldlM (visit succ fuel) w = some w')
    (hroom : w'.entered.length ≤ room) :
    ∃ ctx', createChildren create ctx children = .ok (pointers w'.entered children, true, ctx') ∧
      Built server tensorPtrs succ w' ctx' := by
  induction children generalizing w ctx with
  | nil =>
    obtain rfl := Option.some.inj hwalk
    exact ⟨ctx, rfl, h⟩
  | cons c children ih =>
    obtain ⟨hc, hchildren⟩ := List.forall_mem_cons.mp hchildren
    by_cases hzero : c = 0
    · rw [List.filter_cons_of_neg (by simpa using hzero)] at hwalk
      obtain ⟨ctx', hctx, hbuilt⟩ := ih hchildren h hwalk
      refine ⟨ctx', ?_, hbuilt⟩
      rw [createChildren, if_pos hzero, hctx, hzero]
      rfl
    · rw [List.filter_cons_of_pos (by simpa using hzero), List.foldlM_cons] at hwalk
      obtain ⟨mid, hmid, hrest⟩ := Option.bind_eq_some_iff.mp hwalk
      obtain ⟨more, hmore⟩ := visit_grows hmid
      obtain ⟨more', hmore'⟩ := walk_grows hrest
      have hle := hmore'.isPrefix.length_le.trans hroom
      obtain ⟨ctx', hctx, hbuilt⟩ := hcreate w mid ctx c (hc.resolve_left hzero) h hmid hle
      obtain ⟨ctx'', hctx', hbuilt'⟩ := ih hchildren hbuilt hrest
      refine ⟨ctx'', ?_, hbuilt'⟩
      have hmem : c ∈ mid.entered := hmore.roots_mem c (List.mem_singleton_self c)
      have hidx : w'.entered.idxOf c = mid.entered.idxOf c := by
        rw [hmore'.entered, List.idxOf_append_of_mem hmem]
      have hpointers : pointers w'.entered (c :: children) =
          some (mid.entered.idxOf c) :: pointers w'.entered children := by
        rw [pointers, List.map_cons, if_neg hzero, hidx, ← pointers]
      rw [createChildren, if_neg hzero, hctx, hpointers]
      change (createChildren create ctx' children).bind _ = _
      rw [hctx']
      rfl

theorem createNode_follows {room : ℕ} {ids : List UInt64}
    (hbuildable : ∀ id ∈ ids, ∃ t tensor, Buildable server tensorPtrs succ id t tensor)
    (hsucc : ∀ id ∈ ids, ∀ c ∈ succ id, c ∈ ids)
    (hroom : graphSize + ggmlTensorOverhead * room ≤ memSize) (fuel : ℕ) :
    Follows server tensorPtrs succ room ids
      (createNode server memSize graphSize tensorPtrs fuel) (visit succ fuel) := by
  induction fuel with
  | zero =>
    intro w w' ctx id _ h hvisit _
    rw [visit] at hvisit
    split_ifs at hvisit with hmem
    obtain rfl := Option.some.inj hvisit
    refine ⟨ctx, ?_, h⟩
    rw [createNode, h.tensorMap, if_pos hmem]
  | succ fuel ih =>
    intro w w' ctx id hid h hvisit hle
    rw [visit] at hvisit
    split_ifs at hvisit with hmem
    · obtain rfl := Option.some.inj hvisit
      refine ⟨ctx, ?_, h⟩
      rw [createNode, h.tensorMap, if_pos hmem]
    · obtain ⟨t, tensor, hbuild⟩ := hbuildable id hid
      obtain ⟨mid, hmid, hleave⟩ := Option.bind_eq_some_iff.mp hvisit
      obtain rfl := Option.some.inj hleave
      obtain ⟨more, hmore⟩ := walk_grows hmid
      have hmemid : id ∈ mid.entered := hmore.mem (by simp)
      have hidx : mid.entered.idxOf id = ctx.tensors.length := by
        rw [hmore.entered, List.idxOf_append_of_mem (by simp), List.idxOf_append_of_notMem hmem,
          h.length, List.idxOf_cons_self, Nat.add_zero]
      have hspace : graphSize + ggmlTensorOverhead * (ctx.allocated + 1) ≤ memSize := by
        have hlength : ctx.allocated + 1 ≤ mid.entered.length := by
          rw [h.allocated, hmore.entered, List.length_append, List.length_append]
          exact Nat.le_add_right _ _
        have hmul := Nat.mul_le_mul_left ggmlTensorOverhead (hlength.trans hle)
        omega
      have hchildren : ∀ c ∈ rpcChildren t, c = 0 ∨ c ∈ ids := fun c hc => by
        by_cases hzero : c = 0
        · exact .inl hzero
        · refine .inr (hsucc id hid c ?_)
          rw [hbuild.succ_eq]
          exact List.mem_filter.mpr ⟨hc, decide_eq_true hzero⟩
      rw [hbuild.succ_eq] at hmid
      obtain ⟨ctx', hctx, hbuilt⟩ := createChildren_follows ih hchildren
        (h.enter hmem (link tensor [] 0)) hmid hle
      have hsuccs : ∀ c ∈ succ id, c ∈ mid.entered := hmore.roots_mem
      refine ⟨_, ?_, hbuilt.leave hmemid hsuccs hbuild⟩
      rw [createNode, h.tensorMap, if_neg hmem, hbuild.ptr]
      simp only [hbuild.shape, hbuild.deserialized, orNull]
      refine bind_eq_ok.2 ⟨some (), rfl, ?_⟩
      refine bind_eq_ok.2 ⟨(), RpcServer.require_eq_ok.2 hspace, ?_⟩
      refine bind_eq_ok.2 ⟨some tensor, rfl, (if_neg hbuild.addressed).trans ?_⟩
      refine bind_eq_ok.2 ⟨_, hctx, ?_⟩
      rw [hidx]
      rfl

theorem createNode_aborts (hmap : ctx.tensorMap id = none) (hptr : tensorPtrs id = some t)
    (h : checkShape t = .error .aborted ∨ checkShape t = .ok () ∧
      memSize < graphSize + ggmlTensorOverhead * (ctx.allocated + 1)) :
    createNode server memSize graphSize tensorPtrs (fuel + 1) ctx id = .error .aborted := by
  rw [createNode, hmap, hptr]
  rcases h with hshape | ⟨hshape, hfull⟩
  · simp only [hshape, orNull]
    rfl
  · simp only [hshape, orNull]
    change (RpcServer.require _ _).bind _ = _
    rw [RpcServer.require, if_neg (Nat.not_le.mpr hfull)]
    rfl

/-! ## The nodes -/

/-- The graph with some of its nodes built. -/
structure NodesBuilt (server : RpcServer) (tensorPtrs : UInt64 → Option RpcTensor)
    (succ : UInt64 → List UInt64) (w : Walk UInt64) (done : List UInt64) (graph : Building) :
    Prop where
  ctx : Built server tensorPtrs succ w graph.ctx
  mem : ∀ id ∈ done, id ∈ w.entered
  nodes : graph.nodes = done.map fun id => some (w.entered.idxOf id)
  useCounts : ∀ id ∈ done,
    graph.useCounts (w.entered.idxOf id) = (tensorPtrs id).map RpcTensor.useCount
  unused : ∀ id ∈ w.entered, id ∉ done → graph.useCounts (w.entered.idxOf id) = none
  beyond : ∀ k, w.entered.length ≤ k → graph.useCounts k = none

theorem addNode_follows {room : ℕ} {ids done : List UInt64} {graph : Building}
    {create : GraphContext → UInt64 → Except RpcError (Option ℕ × GraphContext)}
    (hcreate : Follows server tensorPtrs succ room ids create (visit succ fuel)) (hid : id ∈ ids)
    (hnew : id ∉ done) (h : NodesBuilt server tensorPtrs succ w done graph)
    (hvisit : visit succ fuel w id = some w') (hroom : w'.entered.length ≤ room) :
    ∃ graph', addNode create tensorPtrs graph id = .ok graph' ∧
      NodesBuilt server tensorPtrs succ w' (done ++ [id]) graph' := by
  obtain ⟨ctx', hctx, hbuilt⟩ := hcreate w w' graph.ctx id hid h.ctx hvisit hroom
  obtain ⟨more, hmore⟩ := visit_grows hvisit
  have hmem : id ∈ w'.entered := hmore.roots_mem id (List.mem_singleton_self id)
  have hidx : ∀ x ∈ w.entered, w'.entered.idxOf x = w.entered.idxOf x := fun x hx => by
    rw [hmore.entered, List.idxOf_append_of_mem hx]
  have hlate : ∀ x ∉ w.entered, w.entered.length ≤ w'.entered.idxOf x := fun x hx => by
    rw [hmore.entered, List.idxOf_append_of_notMem hx]
    exact Nat.le_add_right _ _
  have hfree : graph.useCounts (w'.entered.idxOf id) = none := by
    by_cases hold : id ∈ w.entered
    · rw [hidx id hold]
      exact h.unused id hold hnew
    · exact h.beyond _ (hlate id hold)
  have hother : ∀ x ∈ w'.entered, x ≠ id → w'.entered.idxOf x ≠ w'.entered.idxOf id :=
    fun x hx hne heq => hne ((List.idxOf_inj hx).mp heq)
  refine ⟨⟨ctx', graph.nodes ++ [some (w'.entered.idxOf id)],
    Function.update graph.useCounts (w'.entered.idxOf id)
      ((tensorPtrs id).map RpcTensor.useCount)⟩, ?_, hbuilt, ?_, ?_, ?_, ?_, ?_⟩
  · refine bind_eq_ok.2 ⟨_, hctx, ?_⟩
    exact bind_eq_ok.2 ⟨(), RpcServer.require_eq_ok.2 (by rw [hfree]; rfl), rfl⟩
  · intro x hx
    rcases List.mem_append.mp hx with hx | hx
    · exact hmore.mem (h.mem x hx)
    · rwa [List.mem_singleton.mp hx]
  · change graph.nodes ++ _ = _
    rw [h.nodes, List.map_append, List.map_singleton]
    refine congrArg (· ++ _) (List.map_congr_left fun x hx => ?_)
    rw [hidx x (h.mem x hx)]
  · intro x hx
    change Function.update graph.useCounts _ _ _ = _
    by_cases heq : x = id
    · rw [heq, Function.update_self]
    · have hdone : x ∈ done := (List.mem_append.mp hx).resolve_right fun hx =>
        heq (List.mem_singleton.mp hx)
      rw [Function.update_of_ne (hother x (hmore.mem (h.mem x hdone)) heq),
        hidx x (h.mem x hdone), h.useCounts x hdone]
  · intro x hx hnot
    rw [List.mem_append, List.mem_singleton, not_or] at hnot
    change Function.update graph.useCounts _ _ _ = _
    rw [Function.update_of_ne (hother x hx hnot.2)]
    by_cases hold : x ∈ w.entered
    · rw [hidx x hold]
      exact h.unused x hold hnot.1
    · exact h.beyond _ (hlate x hold)
  · intro k hk
    change Function.update graph.useCounts _ _ _ = _
    rw [Function.update_of_ne ((List.idxOf_lt_length_of_mem hmem).trans_le hk).ne']
    exact h.beyond k (hmore.isPrefix.length_le.trans hk)

theorem foldlM_addNode {room : ℕ} {ids done nodes : List UInt64} {graph : Building}
    {create : GraphContext → UInt64 → Except RpcError (Option ℕ × GraphContext)}
    (hcreate : Follows server tensorPtrs succ room ids create (visit succ fuel))
    (hids : ∀ id ∈ nodes, id ∈ ids) (hnodup : (done ++ nodes).Nodup)
    (h : NodesBuilt server tensorPtrs succ w done graph)
    (hwalk : nodes.foldlM (visit succ fuel) w = some w') (hroom : w'.entered.length ≤ room) :
    ∃ graph', nodes.foldlM (addNode create tensorPtrs) graph = .ok graph' ∧
      NodesBuilt server tensorPtrs succ w' (done ++ nodes) graph' := by
  induction nodes generalizing w done graph with
  | nil =>
    obtain rfl := Option.some.inj hwalk
    exact ⟨graph, rfl, by rwa [List.append_nil]⟩
  | cons id nodes ih =>
    obtain ⟨hid, hids⟩ := List.forall_mem_cons.mp hids
    rw [List.foldlM_cons] at hwalk
    obtain ⟨mid, hmid, hrest⟩ := Option.bind_eq_some_iff.mp hwalk
    obtain ⟨more, hmore⟩ := walk_grows hrest
    have hnew : id ∉ done := fun hmem =>
      (List.nodup_append.mp hnodup).2.2 id hmem id List.mem_cons_self rfl
    obtain ⟨graph', hgraph, hbuilt⟩ :=
      addNode_follows hcreate hid hnew h hmid (hmore.isPrefix.length_le.trans hroom)
    have hassoc : done ++ id :: nodes = (done ++ [id]) ++ nodes := by
      rw [List.append_assoc, List.singleton_append]
    obtain ⟨graph'', hgraph', hbuilt'⟩ := ih hids (hassoc ▸ hnodup) hbuilt hrest
    refine ⟨graph'', ?_, hassoc ▸ hbuilt'⟩
    rw [List.foldlM_cons]
    exact bind_eq_ok.2 ⟨graph', hgraph, hgraph'⟩

end

/-! ## The graph that arrives -/

theorem pointers_src (entered : List UInt64) (t : RpcTensor) (i : Fin ggmlMaxSrc) :
    (pointers entered (rpcChildren t))[i.val]? =
      some (if t.src i = 0 then none else some (entered.idxOf (t.src i))) := by
  have hlt : i.val < (List.ofFn t.src).length := by rw [List.length_ofFn]; exact i.isLt
  rw [pointers, List.getElem?_map, rpcChildren, List.getElem?_append_left hlt,
    List.getElem?_eq_getElem hlt, List.getElem_ofFn]
  rfl

theorem pointers_viewSrc (entered : List UInt64) (t : RpcTensor) :
    (pointers entered (rpcChildren t))[ggmlMaxSrc]? =
      some (if t.viewSrc = 0 then none else some (entered.idxOf t.viewSrc)) := by
  have hlength : (List.ofFn t.src).length = ggmlMaxSrc := List.length_ofFn
  rw [pointers, List.getElem?_map, rpcChildren, List.getElem?_append_right hlength.le, hlength]
  rfl

/-- A tensor of the server that is one of the client, with its pointers. -/
structure SameTensor (dispatcher : ℕ) (index : UInt64 → ℕ) (t : ClientTensor) (node : ServerNode) :
    Prop where
  type : node.type = t.type.toNat
  ne : node.ne = t.ne
  nb : node.nb = t.nb
  op : node.op = t.op
  opParams : node.opParams = t.opParams
  flags : node.flags = t.flags
  name : node.name = t.name.chars
  src : ∀ i, node.src i = if t.src i = 0 then none else some (index (t.src i))
  viewSrc : node.viewSrc = if t.viewSrc = 0 then none else some (index t.viewSrc)
  viewOffs : node.viewOffs = t.viewOffs
  data_kept : InServer dispatcher t → node.data = t.data
  data_null : ¬InServer dispatcher t → node.data = 0

theorem sameTensor_link (server : RpcServer) (dispatcher : ℕ) (entered : List UInt64) (p : UInt64)
    (t : ClientTensor) (useCount : UInt32) :
    SameTensor dispatcher entered.idxOf t (link (received server dispatcher t)
      (pointers entered (rpcChildren (serializeTensor dispatcher p t useCount))) t.viewOffs) where
  type := rfl
  ne := rfl
  nb := rfl
  op := rfl
  opParams := rfl
  flags := rfl
  name := rfl
  src i := congrArg Option.join (pointers_src entered (serializeTensor dispatcher p t useCount) i)
  viewSrc := congrArg Option.join
    (pointers_viewSrc entered (serializeTensor dispatcher p t useCount))
  viewOffs := rfl
  data_kept := by
    rintro ⟨remotePtr, h⟩
    exact congrArg Prod.snd (remoteData_of_inServer h)
  data_null h := congrArg Prod.snd (remoteData_of_not_inServer h)

/-- A tensor that can be reached from a node of the graph. -/
def ClientGraph.Reaches (graph : ClientGraph) (p : UInt64) : Prop :=
  ∃ r ∈ graph.nodes, Reachable graph.succ r p

/-- The graph of the server is that of the client, each tensor that is reached at its index. -/
structure Isomorphic (graph : ClientGraph) (dispatcher : ℕ) (result : ServerGraph)
    (index : UInt64 → ℕ) : Prop where
  injective : ∀ p q, graph.Reaches p → graph.Reaches q → index p = index q → p = q
  surjective : ∀ k < result.tensors.length, ∃ p, graph.Reaches p ∧ index p = k
  nodes : result.nodes = graph.nodes.map fun p => some (index p)
  tensors : ∀ p t, graph.Reaches p → graph.tensor p = some t →
    ∃ node, result.tensors[index p]? = some node ∧ SameTensor dispatcher index t node
  useCounts : ∀ p ∈ graph.nodes, result.useCounts (index p) = some ((graph.useCounts p).getD 0)

/-- The tensors written: all that the server will look for. -/
structure Written (graph : ClientGraph) (ps : List UInt64) : Prop where
  addresses : ∀ p ∈ ps, p ∈ graph.addresses
  closed : ∀ p ∈ ps, ∀ q ∈ graph.succ p, q ∈ ps
  nodes : ∀ p ∈ graph.nodes, p ∈ ps
  length_le : ps.length ≤ graph.tensors.length

theorem exists_written (graph : ClientGraph) (dispatcher : ℕ) (device : UInt32) :
    ∃ ps, Written graph ps ∧ serializeGraph graph dispatcher device =
      some (messageBytes device graph.uid graph.nodes (ps.filterMap (graph.wire dispatcher))) := by
  obtain ⟨w, more, hgrows, hbytes⟩ := exists_serializeGraph graph dispatcher device
  obtain ⟨later, hleft, hperm⟩ := hgrows.left
  have hentered : w.entered = more := by rw [hgrows.entered, List.nil_append]
  have hmem : ∀ p, p ∈ w.left ↔ p ∈ w.entered := fun p => by
    rw [hleft, List.nil_append, hentered]
    exact hperm.mem_iff
  have hwithin : Within graph.addresses w :=
    Within.grows graph.succ_mem ⟨List.nodup_nil, fun _ h => (List.not_mem_nil h).elim⟩ hgrows
      graph.nodes_mem
  refine ⟨w.left, ⟨fun p hp => hwithin.subset p ((hmem p).mp hp), fun p hp q hq => ?_,
    fun p hp => (hmem p).mpr (hgrows.roots_mem p hp), ?_⟩, hbytes⟩
  · exact (hmem q).mpr (hgrows.closed p (hentered ▸ (hmem p).mp hp) q hq)
  · have hle := (List.subperm_of_subset hwithin.nodup hwithin.subset).length_le
    rw [ClientGraph.addresses, List.length_map] at hle
    rw [hleft, List.nil_append, hperm.length_eq, ← hentered]
    exact hle

theorem Written.buildable {server : RpcServer} {graph : ClientGraph} {dispatcher : ℕ}
    {ps : List UInt64} (h : Written graph ps)
    (hsendable : ∀ p t, (p, t) ∈ graph.tensors → Sendable server dispatcher t) {p : UInt64}
    (hp : p ∈ ps) {t : ClientTensor} (ht : graph.tensor p = some t) :
    Buildable server
      (fun id => (ps.filterMap (graph.wire dispatcher)).find? fun t => t.id = id) graph.succ p
      (serializeTensor dispatcher p t ((graph.useCounts p).getD 0)) (received server dispatcher t) := by
  obtain ⟨t', ht', hmem⟩ := graph.exists_tensor (h.addresses p hp)
  obtain rfl := Option.some.inj (ht.symm.trans ht')
  have hsend := hsendable p t hmem
  refine ⟨?_, hsend.checkShape p _, hsend.deserializeTensor p _, hsend.addressed, ?_⟩
  · rw [find?_wire h.addresses hp, ClientGraph.wire, ht, Option.map_some]
  · rw [ClientGraph.succ, ht, Option.map_some, Option.getD_some]
    rfl

theorem graphCompute_written {server : RpcServer} {graph : ClientGraph} {dispatcher : ℕ}
    {graphOverhead : ℕ → ℕ} {devices : ℕ} {device : UInt32} {ps : List UInt64}
    (h : Written graph ps)
    (hsendable : ∀ p t, (p, t) ∈ graph.tensors → Sendable server dispatcher t)
    (hcount : graph.nodes.length + ps.length < 2 ^ 32) (hdevice : device.toNat < devices) :
    ∃ result index, graphCompute server graphOverhead devices (messageBytes device graph.uid
      graph.nodes (ps.filterMap (graph.wire dispatcher))) = .ok result ∧
        Isomorphic graph dispatcher result index := by
  obtain ⟨w, more, hw, hgrows⟩ := walk_isSome h.closed le_rfl h.nodes
  have hwithin : Within ps w :=
    Within.grows h.closed ⟨List.nodup_nil, fun _ h => (List.not_mem_nil h).elim⟩ hgrows h.nodes
  have hroom := (List.subperm_of_subset hwithin.nodup hwithin.subset).length_le
  have hlength : (ps.filterMap (graph.wire dispatcher)).length = ps.length :=
    length_filterMap_wire h.addresses
  have hread := reads_message hdevice graph.uid graph.nodes (ps.filterMap (graph.wire dispatcher)) []
  rw [List.append_nil, hlength, UInt32.toNat_ofNat', UInt32.toNat_ofNat',
    Nat.mod_eq_of_lt (by omega), Nat.mod_eq_of_lt (by omega), List.take_length,
    List.take_of_length_le hlength.le] at hread
  have hfollows := @createNode_follows server
    (ggmlTensorOverhead * ((graph.nodes.length + ps.length) % 2 ^ 32) +
      graphOverhead graph.nodes.length) (graphOverhead graph.nodes.length)
    (fun id => (ps.filterMap (graph.wire dispatcher)).find? fun t => t.id = id) graph.succ
    ps.length ps
    (fun p hp => by
      obtain ⟨t, ht, -⟩ := graph.exists_tensor (h.addresses p hp)
      exact ⟨_, _, h.buildable hsendable hp ht⟩)
    h.closed
    (by
      rw [Nat.mod_eq_of_lt hcount, Nat.mul_add]
      omega)
    ps.length
  have hempty : NodesBuilt server
      (fun id => (ps.filterMap (graph.wire dispatcher)).find? fun t => t.id = id) graph.succ
      ⟨[], []⟩ [] ⟨⟨[], 0, fun _ => none⟩, [], fun _ => none⟩ := by
    refine ⟨⟨rfl, rfl, fun id => rfl, ?_, ?_⟩, ?_, rfl, ?_, ?_, fun _ _ => rfl⟩ <;>
      exact fun id hid => (List.not_mem_nil hid).elim
  have hnodup : ([] ++ graph.nodes).Nodup := graph.nodes_nodup
  obtain ⟨built, hfold, hbuilt⟩ := foldlM_addNode hfollows h.nodes hnodup hempty hw hroom
  rw [← hlength] at hfold
  refine ⟨⟨built.ctx.tensors, built.nodes, built.useCounts⟩, w.entered.idxOf,
    bind_eq_ok.2 ⟨_, hread, bind_eq_ok.2 ⟨built, hfold, rfl⟩⟩, ?_⟩
  have hleft : ∀ p ∈ w.entered, p ∈ w.left := fun p hp => by
    obtain ⟨later, hlater, hperm⟩ := hgrows.left
    rw [hlater]
    rw [hgrows.entered] at hp
    exact hperm.mem_iff.mpr hp
  refine ⟨fun p q hp _ heq => (List.idxOf_inj (hgrows.mem_iff.mpr hp)).mp heq, fun k hk => ?_,
    hbuilt.nodes, fun p t hp ht => ?_, fun p hp => ?_⟩
  · have hk' : k < w.entered.length := hbuilt.ctx.length ▸ hk
    exact ⟨w.entered[k], hgrows.mem_iff.mp (List.getElem_mem hk'), hwithin.nodup.idxOf_getElem k hk'⟩
  · have hentered := hgrows.mem_iff.mpr hp
    refine ⟨_, hbuilt.ctx.linked p (hleft p hentered) _ _
      (h.buildable hsendable (hwithin.subset p hentered) ht), ?_⟩
    exact sameTensor_link server dispatcher w.entered p t _
  · obtain ⟨t, ht, -⟩ := graph.exists_tensor (graph.nodes_mem p hp)
    refine (hbuilt.useCounts p hp).trans ?_
    rw [(h.buildable hsendable (h.nodes p hp) ht).ptr]
    rfl

/-- The server builds from the bytes of a graph the graph. -/
theorem graphCompute_serializeGraph {server : RpcServer} {graph : ClientGraph} {dispatcher : ℕ}
    {graphOverhead : ℕ → ℕ} {devices : ℕ} {device : UInt32}
    (hsendable : ∀ p t, (p, t) ∈ graph.tensors → Sendable server dispatcher t)
    (hcount : graph.nodes.length + graph.tensors.length < 2 ^ 32)
    (hdevice : device.toNat < devices) :
    ∃ bytes result index, serializeGraph graph dispatcher device = some bytes ∧
      graphCompute server graphOverhead devices bytes = .ok result ∧
      Isomorphic graph dispatcher result index := by
  obtain ⟨ps, hwritten, hbytes⟩ := exists_written graph dispatcher device
  have hlt : graph.nodes.length + ps.length < 2 ^ 32 :=
    (Nat.add_le_add_left hwritten.length_le _).trans_lt hcount
  obtain ⟨result, index, hresult, hiso⟩ := graphCompute_written hwritten hsendable hlt hdevice
  exact ⟨_, result, index, hbytes, hresult, hiso⟩

/-- Four numbers. -/
def vectorTensor (buffer : Option ClientBuffer) (data : UInt64) (src : Fin ggmlMaxSrc → UInt64)
    (viewSrc : UInt64) : ClientTensor where
  type := 0
  buffer
  ne := ![4, 1, 1, 1]
  nb := ![4, 16, 16, 16]
  op := 2
  opParams _ := 0
  flags := 0
  src
  viewSrc
  viewOffs := 0
  data
  name := ⟨[0x78], by decide, by decide⟩

/-- Two nodes over a tensor in the buffer of the server and one in a buffer of the host. The second
node reads the first and is a view of it. -/
def sharedGraph : ClientGraph where
  tensors := [(1, vectorTensor (some (.rpc (some (0, 1)))) 4096 (fun _ => 0) 0),
    (2, vectorTensor (some .other) 77 (fun _ => 0) 0),
    (3, vectorTensor none 0 ![1, 2, 0, 0, 0, 0, 0, 0, 0, 0] 0),
    (4, vectorTensor none 0 ![3, 1, 0, 0, 0, 0, 0, 0, 0, 0] 3)]
  nodes := [3, 4]
  useCounts p := if p = 4 then some 0 else some 2
  uid := 5
  nodup := by decide
  null_notMem := by decide
  closed p t h := by
    simp only [List.mem_cons, Prod.mk.injEq, List.not_mem_nil, or_false] at h
    rcases h with ⟨rfl, rfl⟩ | ⟨rfl, rfl⟩ | ⟨rfl, rfl⟩ | ⟨rfl, rfl⟩ <;>
      simp [ClientTensor.children, vectorTensor]
  nodes_mem := by simp
  nodes_nodup := by decide

theorem sendable_sharedGraph :
    ∀ p t, (p, t) ∈ sharedGraph.tensors → Sendable RpcServer.oneBuffer 0 t := by
  have hshape : ∀ buffer data src viewSrc, (∀ remotePtr,
      buffer = some (.rpc (some (0, remotePtr))) → remotePtr = 1 ∧ data = 4096) →
      Sendable RpcServer.oneBuffer 0 (vectorTensor buffer data src viewSrc) := by
    intro buffer data src viewSrc h
    have hne : ∀ i, (![4, 1, 1, 1] : Fin 4 → ℕ) i < 2 ^ 32 := by decide
    have hnb : ∀ i, (![4, 16, 16, 16] : Fin 4 → ℕ) i < 2 ^ 32 := by decide
    have hfit : RpcServer.elementsFit ![4, 1, 1, 1] := by decide
    have hnbytes : GgmlTensor.nbytes ⟨0, ![4, 1, 1, 1], ![4, 16, 16, 16], [], none⟩ = 16 := by
      decide
    refine ⟨Nat.zero_lt_succ _, Nat.one_ne_zero, hfit, hne, hnb, fun remotePtr hbuffer => ?_⟩
    obtain ⟨rfl, rfl⟩ := h remotePtr hbuffer
    refine ⟨by decide, RpcServer.wholeBuffer, rfl, by decide, le_rfl, ?_⟩
    have hend : 4096 + 16 ≤ RpcServer.wholeBuffer.getBase + RpcServer.wholeBuffer.size := by decide
    exact (congrArg (4096 + ·) hnbytes).trans_le hend
  intro p t h
  simp only [sharedGraph, List.mem_cons, Prod.mk.injEq, List.not_mem_nil, or_false] at h
  rcases h with ⟨rfl, rfl⟩ | ⟨rfl, rfl⟩ | ⟨rfl, rfl⟩ | ⟨rfl, rfl⟩
  · refine hshape _ _ _ _ fun remotePtr h => ?_
    simp only [Option.some.injEq, ClientBuffer.rpc.injEq, Prod.mk.injEq] at h
    exact ⟨h.2.symm, rfl⟩
  · exact hshape _ _ _ _ fun _ h => nomatch h
  · exact hshape _ _ _ _ fun _ h => nomatch h
  · exact hshape _ _ _ _ fun _ h => nomatch h

theorem graphCompute_sharedGraph :
    ∃ bytes result index, serializeGraph sharedGraph 0 0 = some bytes ∧
      graphCompute RpcServer.oneBuffer (fun _ => 0) 1 bytes = .ok result ∧
      Isomorphic sharedGraph 0 result index :=
  graphCompute_serializeGraph sendable_sharedGraph (by decide) (by decide)

/-! ## Chains of views -/

/-- A tensor without data. -/
def plainTensor (ne : Fin 4 → ℕ) (viewSrc : UInt64) : ClientTensor where
  type := 0
  buffer := none
  ne
  nb _ := 0
  op := 0
  opParams _ := 0
  flags := 0
  src _ := 0
  viewSrc
  viewOffs := 0
  data := 0
  name := ⟨[], by decide, by decide⟩

theorem mem_children_plainTensor {ne : Fin 4 → ℕ} {viewSrc q : UInt64}
    (h : q ∈ (plainTensor ne viewSrc).children) : q = 0 ∨ q = viewSrc := by
  rcases List.mem_append.mp h with h | h
  · obtain ⟨i, rfl⟩ := List.mem_ofFn.mp h
    exact .inl rfl
  · exact .inr (List.mem_singleton.mp h)

/-- The tensors at the addresses up to `n`, each a view of the one before. -/
def chainTensors (ne : Fin 4 → ℕ) (n : ℕ) : List (UInt64 × ClientTensor) :=
  (List.range n).map fun i => (.ofNat (i + 1), plainTensor ne (.ofNat i))

theorem mem_chainTensors {ne : Fin 4 → ℕ} {n : ℕ} {p : UInt64} {t : ClientTensor} :
    (p, t) ∈ chainTensors ne n ↔
      ∃ i < n, p = .ofNat (i + 1) ∧ t = plainTensor ne (.ofNat i) := by
  simp [chainTensors, eq_comm]

theorem mem_chain_addresses {ne : Fin 4 → ℕ} {n : ℕ} {p : UInt64} :
    p ∈ (chainTensors ne n).map Prod.fst ↔ ∃ i < n, p = .ofNat (i + 1) := by
  simp [chainTensors, eq_comm]

theorem ofNat_succ_inj {n i j : ℕ} (hn : n < 2 ^ 64) (hi : i < n) (hj : j < n)
    (h : UInt64.ofNat (i + 1) = .ofNat (j + 1)) : i = j := by
  have hnat := congrArg UInt64.toNat h
  rw [UInt64.toNat_ofNat', UInt64.toNat_ofNat'] at hnat
  omega

/-- The chain of `n` tensors, with the last for its node. -/
def chainGraph (ne : Fin 4 → ℕ) (n : ℕ) (hpos : 0 < n) (hn : n < 2 ^ 64) : ClientGraph where
  tensors := chainTensors ne n
  nodes := [.ofNat n]
  useCounts _ := none
  uid := 0
  nodup := by
    rw [chainTensors, List.map_map]
    exact List.Nodup.map_on (fun i hi j hj h => ofNat_succ_inj hn (List.mem_range.mp hi)
      (List.mem_range.mp hj) h) List.nodup_range
  null_notMem := by
    rw [mem_chain_addresses]
    rintro ⟨i, hi, h⟩
    have hnat := congrArg UInt64.toNat h
    rw [UInt64.toNat_ofNat'] at hnat
    simp at hnat
    omega
  closed p t h q hq := by
    obtain ⟨i, hi, rfl, rfl⟩ := mem_chainTensors.1 h
    rcases mem_children_plainTensor hq with rfl | rfl
    · exact .inl rfl
    · cases i with
      | zero => exact .inl rfl
      | succ i => exact .inr (mem_chain_addresses.2 ⟨i, by omega, rfl⟩)
  nodes_mem p hp := by
    rw [List.mem_singleton.mp hp]
    exact mem_chain_addresses.2 ⟨n - 1, by omega, by rw [Nat.sub_add_cancel hpos]⟩
  nodes_nodup := List.nodup_singleton _

/-- A graph of small tensors outside of all buffers, without cycles: every tensor lies above its
children. -/
structure Plain (graph : ClientGraph) : Prop where
  small : ∀ p t, (p, t) ∈ graph.tensors → (∀ i, t.ne i < 2 ^ 32) ∧ ∀ i, t.nb i < 2 ^ 32
  buffer : ∀ p t, (p, t) ∈ graph.tensors → t.buffer = none
  acyclic : ∀ p t, (p, t) ∈ graph.tensors → ∀ q ∈ t.children, q < p

section
variable {ne : Fin 4 → ℕ} {n : ℕ} (hpos : 0 < n) (hn : n < 2 ^ 64)

theorem plain_chainGraph (hne : ∀ i, ne i < 2 ^ 32) : Plain (chainGraph ne n hpos hn) where
  small p t h := by
    obtain ⟨i, -, rfl, rfl⟩ := mem_chainTensors.1 h
    exact ⟨hne, fun _ => Nat.two_pow_pos 32⟩
  buffer p t h := by
    obtain ⟨i, -, rfl, rfl⟩ := mem_chainTensors.1 h
    rfl
  acyclic p t h q hq := by
    obtain ⟨i, hi, rfl, rfl⟩ := mem_chainTensors.1 h
    refine UInt64.lt_iff_toNat_lt.mpr ?_
    rw [UInt64.toNat_ofNat', Nat.mod_eq_of_lt (by omega)]
    rcases mem_children_plainTensor hq with rfl | rfl
    · exact Nat.succ_pos i
    · rw [UInt64.toNat_ofNat', Nat.mod_eq_of_lt (by omega)]
      exact Nat.lt_succ_self i

theorem ne_of_mem_chainGraph {p : UInt64} {t : ClientTensor}
    (h : (p, t) ∈ (chainGraph ne n hpos hn).tensors) : t.ne = ne := by
  obtain ⟨i, -, rfl, rfl⟩ := mem_chainTensors.1 h
  rfl

theorem count_chainGraph : (chainGraph ne n hpos hn).nodes.length +
    (chainGraph ne n hpos hn).tensors.length = 1 + n :=
  congrArg (1 + ·) ((List.length_map _).trans List.length_range)

theorem tensor_chainGraph {i : ℕ} (hi : i < n) :
    (chainGraph ne n hpos hn).tensor (.ofNat (i + 1)) = some (plainTensor ne (.ofNat i)) := by
  obtain ⟨t, ht, hmem⟩ := (chainGraph ne n hpos hn).exists_tensor
    (mem_chain_addresses.2 ⟨i, hi, rfl⟩)
  obtain ⟨j, hj, hij, rfl⟩ := mem_chainTensors.1 hmem
  obtain rfl := ofNat_succ_inj hn hi hj hij
  exact ht

theorem Written.length_chain {ps : List UInt64} (h : Written (chainGraph ne n hpos hn) ps) :
    ps.length = n := by
  have hlength : (chainGraph ne n hpos hn).addresses.length = n := by
    rw [ClientGraph.addresses, List.length_map]
    exact (List.length_map _).trans List.length_range
  have hmem : ∀ k < n, .ofNat (n - k) ∈ ps := by
    intro k hk
    induction k with
    | zero => exact h.nodes _ (List.mem_singleton_self _)
    | succ k ih =>
      refine h.closed _ (ih (by omega)) _ ?_
      have htensor := @tensor_chainGraph ne n hpos hn (n - (k + 1)) (by omega)
      rw [show n - (k + 1) + 1 = n - k by omega] at htensor
      rw [ClientGraph.succ, htensor, Option.map_some, Option.getD_some, List.mem_filter]
      refine ⟨List.mem_append_right _ (List.mem_singleton_self _), decide_eq_true fun hzero => ?_⟩
      have hnat := congrArg UInt64.toNat hzero
      rw [UInt64.toNat_ofNat', Nat.mod_eq_of_lt (by omega)] at hnat
      simp at hnat
      omega
  have hsubset : ∀ p ∈ (chainGraph ne n hpos hn).addresses, p ∈ ps := by
    intro p hp
    obtain ⟨i, hi, rfl⟩ := mem_chain_addresses.1 hp
    have hi' := hmem (n - (i + 1)) (by omega)
    rwa [show n - (n - (i + 1)) = i + 1 by omega] at hi'
  have hle := (List.subperm_of_subset (chainGraph ne n hpos hn).nodup hsubset).length_le
  have hge := h.length_le
  rw [ClientGraph.addresses, List.length_map] at hlength
  rw [List.length_map, hlength] at hle
  omega

omit hpos hn in
theorem checkShape_plainTensor (hne : ∀ i, ne i < 2 ^ 32) (dispatcher : ℕ) (p q : UInt64)
    (useCount : UInt32) :
    checkShape (serializeTensor dispatcher p (plainTensor ne q) useCount) =
      RpcServer.require (RpcServer.elementsFit ne) .aborted := by
  have htoNat : (fun i => (UInt32.ofNat (ne i)).toNat) = ne := by
    funext i
    rw [UInt32.toNat_ofNat', Nat.mod_eq_of_lt (hne i)]
  have hfit : (fun i => ((serializeTensor dispatcher p (plainTensor ne q) useCount).ne i).toNat) =
      ne := htoNat
  rw [checkShape, hfit]
  rfl

theorem graphCompute_chainGraph {server : RpcServer} {dispatcher devices : ℕ}
    {graphOverhead : ℕ → ℕ} {device : UInt32} (hdevice : device.toNat < devices)
    (hlt : n < 2 ^ 32) (hne : ∀ i, ne i < 2 ^ 32)
    (h : ¬RpcServer.elementsFit ne ∨ RpcServer.elementsFit ne ∧ (1 + n) % 2 ^ 32 = 0) :
    ∃ bytes, serializeGraph (chainGraph ne n hpos hn) dispatcher device = some bytes ∧
      graphCompute server graphOverhead devices bytes = .error .aborted := by
  obtain ⟨ps, hwritten, hbytes⟩ := exists_written (chainGraph ne n hpos hn) dispatcher device
  have hps := hwritten.length_chain hpos hn
  have hlength := @length_filterMap_wire _ dispatcher _ hwritten.addresses
  rw [hps] at hlength
  have hnodes : (chainGraph ne n hpos hn).nodes.take
      ((chainGraph ne n hpos hn).nodes.length % 2 ^ 32) = [.ofNat n] := rfl
  have hread := reads_message hdevice (chainGraph ne n hpos hn).uid (chainGraph ne n hpos hn).nodes
    (ps.filterMap ((chainGraph ne n hpos hn).wire dispatcher)) []
  rw [List.append_nil, hlength, UInt32.toNat_ofNat', UInt32.toNat_ofNat', hnodes,
    Nat.mod_eq_of_lt hlt, List.take_of_length_le hlength.le] at hread
  have hptr : (ps.filterMap ((chainGraph ne n hpos hn).wire dispatcher)).find?
      (fun t => t.id = .ofNat n) = some (serializeTensor dispatcher (.ofNat n)
        (plainTensor ne (.ofNat (n - 1))) 0) := by
    have htensor := @tensor_chainGraph ne n hpos hn (n - 1) (by omega)
    rw [Nat.sub_add_cancel hpos] at htensor
    rw [find?_wire hwritten.addresses (hwritten.nodes _ (List.mem_singleton_self _)),
      ClientGraph.wire, htensor]
    rfl
  have hcreate := @createNode_aborts server
    (ggmlTensorOverhead * ((1 + n) % 2 ^ 32) + graphOverhead 1) (graphOverhead 1)
    (fun id => (ps.filterMap ((chainGraph ne n hpos hn).wire dispatcher)).find? fun t => t.id = id)
    ⟨[], 0, fun _ => none⟩ (n - 1) (.ofNat n) _ rfl hptr (by
      rw [checkShape_plainTensor hne]
      refine h.imp (fun hno => if_neg hno) fun hboth => ⟨if_pos hboth.1, ?_⟩
      rw [hboth.2, ggmlTensorOverhead]
      omega)
  rw [Nat.sub_add_cancel hpos] at hcreate
  refine ⟨_, hbytes, ?_⟩
  have hmessage : ∀ {β : Type} (f : Message × List UInt8 → Except RpcError β),
      (readMessage devices _ >>= f) = f _ := fun f => by rw [hread]; rfl
  rw [graphCompute, hmessage]
  simp only [hlength, List.length_singleton, List.foldlM_cons, addNode]
  rw [hcreate]
  rfl

end

/-- A graph of 2^32 - 1 tensors, for which the server sets no memory aside, and an empty tensor in
the order of dimensions of a permutation, whose product does not fit before the zero. -/
theorem graphCompute_aborts :
    (∃ graph, Plain graph ∧ (∀ p t, (p, t) ∈ graph.tensors → t.ne = fun _ => 1) ∧
      graph.nodes.length + graph.tensors.length = 2 ^ 32 ∧
      ∃ bytes, serializeGraph graph 0 0 = some bytes ∧
        graphCompute RpcServer.oneBuffer (fun _ => 0) 1 bytes = .error .aborted) ∧
    ∃ graph, Plain graph ∧ graph.tensors.length = 1 ∧
      ∃ bytes, serializeGraph graph 0 0 = some bytes ∧
        graphCompute RpcServer.oneBuffer (fun _ => 0) 1 bytes = .error .aborted := by
  refine ⟨⟨chainGraph (fun _ => 1) (2 ^ 32 - 1) (by decide) (by decide),
    plain_chainGraph _ _ fun _ => Nat.one_lt_two_pow (by decide), fun p t h => ?_, ?_, ?_⟩,
    chainGraph ![2 ^ 31, 2 ^ 31, 2 ^ 31, 0] 1 (by decide) (by decide),
    plain_chainGraph _ _ (by decide), rfl, ?_⟩
  · exact ne_of_mem_chainGraph _ _ h
  · exact (count_chainGraph _ _).trans (by decide)
  · exact graphCompute_chainGraph _ _ (by decide) (by decide)
      (fun _ => Nat.one_lt_two_pow (by decide))
      (.inr ⟨by decide, by decide⟩)
  · exact graphCompute_chainGraph _ _ (by decide) (by decide) (by decide) (.inl (by decide))

end RpcGraph
end RocmFpx
