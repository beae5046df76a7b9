import RocmFpx.AddressRange
import RocmFpx.Fallible
import RocmFpx.GgmlTensor
import RocmFpx.RpcTensor

/-!
The requests of an RPC server that touch the memory of its buffers, each with the checks it makes
before it calls the backend. What a request returns here are the accesses of the backend call.
-/

namespace RocmFpx
open ByteReader

/-- A request is refused, with `nullptr` or `false`, or an assertion ends the server. -/
inductive RpcError
  | rejected
  | aborted
  deriving DecidableEq

/-- The buffers of `rpc_server` by their handles. `cachedFile` is `get_cached_file`. -/
structure RpcServer where
  buffers : UInt64 → Option Region
  disjoint : ∀ p q r s, p ≠ q → buffers p = some r → buffers q = some s → r.Disjoint s
  memsetTensor : UInt64 → Bool
  cachedFile : UInt64 → Option (List UInt8)

/-- `ggml_backend_buffer_get_base`. -/
def Region.getBase (r : Region) : ℕ := if r.size = 0 then 0 else r.base

/-- A tensor as `deserialize_tensor` leaves it: without sources. -/
structure ServerTensor where
  type : ℕ
  ne : Fin 4 → ℕ
  nb : Fin 4 → ℕ
  buffer : Option Region
  op : UInt32
  opParams : Fin ggmlMaxOpParams → UInt32
  flags : UInt32
  data : UInt64
  name : List UInt8

/-- Bytes that the backend reads or writes for a tensor. -/
structure Access where
  buffer : Region
  start : ℕ
  size : ℕ

namespace RpcServer

/-- `INT64_MAX`. -/
def int64Max : ℕ := 2 ^ 63 - 1

def require (p : Prop) [Decidable p] (e : RpcError) : Except RpcError Unit :=
  if p then .ok () else .error e

/-- The assertions of `ggml_new_tensor_4d` on the number of elements. -/
def elementsFit (ne : Fin 4 → ℕ) : Bool :=
  let check := fun current i =>
    current.bind fun n =>
      if 1 < ne i then (if int64Max / ne i > n then some (n * ne i) else none) else some n
  ([1, 2, 3].foldl check (some (ne 0))).isSome

/-- The characters before the first NUL. -/
def cString (name : Fin ggmlMaxName → UInt8) : List UInt8 :=
  (List.ofFn name).takeWhile (· ≠ 0)

/-- `ggml_nelements` and `ggml_nbytes` of a shape. -/
def shapeOf (t : RpcTensor) : GgmlTensor where
  type := t.type.toNat
  ne i := (t.ne i).toNat
  nb i := (t.nb i).toNat
  name := []
  data := none

/-- The tensor data does not go beyond the buffer end. -/
def requireInside (data : ℕ) (shape : GgmlTensor) : Option Region → Except RpcError Unit
  | none => pure ()
  | some buffer =>
    if shape.nelements > 0 then
      let tensorSize := shape.nbytes
      let bufferStart := buffer.getBase
      let bufferSize := buffer.size
      require (¬(wrapSize (data + tensorSize) < data ∨ data < bufferStart ∨
        wrapSize (data + tensorSize) > wrapSize (bufferStart + bufferSize))) .rejected
    else pure ()

def deserializeTensor (server : RpcServer) (t : RpcTensor) : Except RpcError ServerTensor := do
  require (t.type.toNat < ggmlTypeCount) .rejected
  require (ggmlBlckSize t.type.toNat ≠ 0) .rejected
  require (elementsFit (fun i => (t.ne i).toNat)) .aborted
  let shape := shapeOf t
  let buffer := if t.buffer = 0 then none else server.buffers t.buffer
  requireInside t.data.toNat shape buffer
  pure { type := shape.type, ne := shape.ne, nb := shape.nb, buffer, op := t.op
         opParams := t.opParams, flags := t.flags, data := t.data
         name := (cString t.name).take (ggmlMaxName - 1) }

end RpcServer

namespace ServerTensor

variable (tensor : ServerTensor)

def nbytes : ℕ :=
  GgmlTensor.nbytes ⟨tensor.type, tensor.ne, tensor.nb, tensor.name, none⟩

/-- `ggml_backend_tensor_set`, `ggml_backend_tensor_get` and `ggml_backend_tensor_memset`. -/
def backendCall (buffer : Region) (offset size : ℕ) : Except RpcError (List Access) := do
  if size = 0 then pure []
  else
    RpcServer.require (tensor.data ≠ 0) .aborted
    RpcServer.require (wrapSize (offset + size) ≤ tensor.nbytes) .aborted
    pure [⟨buffer, wrapSize (tensor.data.toNat + offset), size⟩]

/-- `ggml_backend_tensor_set_2d` and `ggml_backend_tensor_get_2d`; the access is what spans the
rows, with exact arithmetic. -/
def backendCall2d (buffer : Region) (offset size nCopies stride : ℕ) :
    Except RpcError (List Access) := do
  if size = 0 then pure []
  else
    let rows := sizeSub nCopies 1
    RpcServer.require (tensor.data ≠ 0) .aborted
    RpcServer.require (wrapSize (offset + rows * stride + size) ≤ tensor.nbytes) .aborted
    pure [⟨buffer, wrapSize (tensor.data.toNat + offset), rows * stride + size⟩]

end ServerTensor

namespace RpcServer

variable (server : RpcServer)

/-- The tensor of a request with its buffer. -/
def deserializeInBuffer (t : RpcTensor) : Except RpcError (ServerTensor × Region) := do
  let tensor ← server.deserializeTensor t
  match tensor.buffer with
  | none => .error .rejected
  | some buffer => pure (tensor, buffer)

def memsetTensorRequest (t : RpcTensor) (offset size : UInt64) :
    Except RpcError (List Access) := do
  let (tensor, buffer) ← server.deserializeInBuffer t
  let offset := offset.toNat
  let size := size.toNat
  let tensorSize := tensor.nbytes
  require (¬(offset > tensorSize ∨ size > tensorSize - offset)) .rejected
  let bufferStart := buffer.getBase
  let bufferSize := buffer.size
  require (¬ t.data.toNat < bufferStart) .rejected
  let dataOffset := t.data.toNat - bufferStart
  require (¬(dataOffset > bufferSize ∨ offset > bufferSize - dataOffset ∨
    size > bufferSize - dataOffset - offset)) .rejected
  require (server.memsetTensor t.buffer) .rejected
  tensor.backendCall buffer offset size

/-- The check that `set_tensor`, `set_tensor_hash` and `get_tensor` make of a region, and the
call. -/
def checkedCall (t : RpcTensor) (offset : UInt64) (size : ℕ) : Except RpcError (List Access) := do
  let (tensor, buffer) ← server.deserializeInBuffer t
  let p0 := buffer.getBase
  let p1 := wrapSize (p0 + buffer.size)
  let start := wrapSize (t.data.toNat + offset.toNat)
  require (¬(start < p0 ∨ start ≥ p1 ∨ size > sizeSub p1 start)) .rejected
  tensor.backendCall buffer offset.toNat size

/-- The check that `set_tensor_2d` and `get_tensor_2d` make of a span, and the call. -/
def checkedCall2d (t : RpcTensor) (offset size nCopies stride : UInt64) :
    Except RpcError (List Access) := do
  let (tensor, buffer) ← server.deserializeInBuffer t
  let data := t.data.toNat
  let offset := offset.toNat
  let rows := sizeSub nCopies.toNat 1
  require (¬(stride ≠ 0 ∧ rows > (sizeMax - size.toNat) / stride.toNat)) .rejected
  let span := wrapSize (rows * stride.toNat + size.toNat)
  let p0 := buffer.getBase
  let p1 := wrapSize (p0 + buffer.size)
  require (¬(data < p0 ∨ data > p1 ∨ offset > p1 - data ∨ span > p1 - data - offset)) .rejected
  require (¬(offset > tensor.nbytes ∨ span > tensor.nbytes - offset)) .rejected
  tensor.backendCall2d buffer offset size.toNat nCopies.toNat stride.toNat

def setTensor (input : List UInt8) : Except RpcError (List Access) := do
  let headerSize := RpcTensor.byteSize + 1 + 8
  require (¬ input.length < headerSize) .rejected
  let (inTensor, rest) ← RpcTensor.read .rejected input
  let (_cacheFlag, rest) ← RpcTensor.readUInt8 .rejected rest
  let (offset, data) ← RpcTensor.readUInt64 .rejected rest
  server.checkedCall inTensor offset data.length

def setTensor2d (input : List UInt8) : Except RpcError (List Access) := do
  require (¬ input.length < RpcTensor.byteSize + 4 * 8) .rejected
  let (inTensor, rest) ← RpcTensor.read .rejected input
  let (offset, rest) ← RpcTensor.readUInt64 .rejected rest
  let (size, rest) ← RpcTensor.readUInt64 .rejected rest
  let (nCopies, rest) ← RpcTensor.readUInt64 .rejected rest
  let (stride, data) ← RpcTensor.readUInt64 .rejected rest
  require (¬(nCopies = 0 ∨ size = 0 ∨ size.toNat > data.length / nCopies.toNat ∨
    wrapSize (size.toNat * nCopies.toNat) ≠ data.length)) .rejected
  server.checkedCall2d inTensor offset size nCopies stride

def setTensorHash (t : RpcTensor) (offset hash : UInt64) : Except RpcError (List Access) :=
  match server.cachedFile hash with
  | none => pure []
  | some cachedFile => server.checkedCall t offset cachedFile.length

def getTensor (t : RpcTensor) (offset size : UInt64) : Except RpcError (List Access) :=
  server.checkedCall t offset size.toNat

def getTensor2d (t : RpcTensor) (offset size nCopies stride : UInt64) :
    Except RpcError (List Access) := do
  -- the source makes these checks after it has the tensor
  let _ ← server.deserializeInBuffer t
  require (¬(nCopies = 0 ∨ size = 0 ∨ size.toNat > sizeMax / nCopies.toNat)) .rejected
  server.checkedCall2d t offset size nCopies stride

def copyTensor (requestSrc requestDst : RpcTensor) : Except RpcError (List Access) := do
  let src ← server.deserializeTensor requestSrc
  let dst ← server.deserializeTensor requestDst
  match src.buffer, dst.buffer with
  | some srcBuffer, some dstBuffer =>
    let srcSize := src.nbytes
    let dstData := dst.data.toNat
    let dstBase := dstBuffer.getBase
    let dstBufSz := dstBuffer.size
    require (¬ wrapSize (dstData + srcSize) > wrapSize (dstBase + dstBufSz)) .rejected
    pure [⟨srcBuffer, src.data.toNat, srcSize⟩, ⟨dstBuffer, dstData, srcSize⟩]
  | _, _ => .error .rejected

/-- A request with its content. -/
inductive Request
  | memsetTensor (tensor : RpcTensor) (offset size : UInt64) (value : UInt8)
  | setTensor (input : List UInt8)
  | setTensor2d (input : List UInt8)
  | setTensorHash (tensor : RpcTensor) (offset hash : UInt64)
  | getTensor (tensor : RpcTensor) (offset size : UInt64)
  | getTensor2d (tensor : RpcTensor) (offset size nCopies stride : UInt64)
  | copyTensor (src dst : RpcTensor)

/-- The tensors of a request. -/
def Request.tensors : Request → List RpcTensor
  | .memsetTensor t _ _ _ => [t]
  | .setTensor input => ((RpcTensor.read RpcError.rejected input).toOption.map Prod.fst).toList
  | .setTensor2d input => ((RpcTensor.read RpcError.rejected input).toOption.map Prod.fst).toList
  | .setTensorHash t _ _ => [t]
  | .getTensor t _ _ => [t]
  | .getTensor2d t _ _ _ _ => [t]
  | .copyTensor src dst => [src, dst]

/-- The accesses of the backend call that a request reaches. -/
def handle : Request → Except RpcError (List Access)
  | .memsetTensor t offset size _ => server.memsetTensorRequest t offset size
  | .setTensor input => server.setTensor input
  | .setTensor2d input => server.setTensor2d input
  | .setTensorHash t offset hash => server.setTensorHash t offset hash
  | .getTensor t offset size => server.getTensor t offset size
  | .getTensor2d t offset size nCopies stride => server.getTensor2d t offset size nCopies stride
  | .copyTensor src dst => server.copyTensor src dst

end RpcServer
end RocmFpx

/-!
Which requests keep the accesses of the backend inside the buffers that their tensors name: all
but copies to a tensor that begins below its buffer, or whose end wraps around the address space.
-/

namespace RocmFpx
open Fallible

theorem Region.contains_of_getBase {r : Region} {start size : ℕ} (hbase : r.getBase ≤ start)
    (hend : start + size ≤ r.getBase + r.size) : r.Contains start size := by
  rcases Nat.eq_zero_or_pos size with rfl | hpos
  · exact r.contains_zero
  · have hsize : r.size ≠ 0 := by omega
    rw [getBase, if_neg hsize] at hbase hend
    exact contains_of_le hbase hend

theorem Region.contains_iff_getBase {r : Region} {start size : ℕ} (hstart : start < 2 ^ 64)
    (hsize : 0 < size) (hlt : size < 2 ^ 64) :
    r.Contains start size ↔ r.getBase ≤ start ∧ start + size ≤ r.getBase + r.size := by
  refine ⟨fun h => ?_, fun h => contains_of_getBase h.1 h.2⟩
  have hin := (contains_iff hstart hsize hlt).mp h
  have hne : r.size ≠ 0 := by omega
  rwa [getBase, if_neg hne]

theorem Region.getBase_end_le (r : Region) : r.getBase + r.size ≤ 2 ^ 64 := by
  have h := r.end_le
  rw [getBase]
  split_ifs <;> omega

theorem GgmlTensor.nbytes_le (t : GgmlTensor) : t.nbytes ≤ sizeMax := by
  rw [nbytes]
  split_ifs
  · exact Nat.zero_le _
  · exact wrapSize_le _
  · exact wrapSize_le _

theorem GgmlTensor.nelements_pos {t : GgmlTensor} (h : 0 < t.nbytes) : 0 < t.nelements := by
  rw [nbytes] at h
  split_ifs at h with hzero
  · exact absurd h (Nat.lt_irrefl 0)
  all_goals
    push Not at hzero
    have hpos (i : Fin 4) : 0 < t.ne i := Nat.pos_of_ne_zero (hzero i)
    exact Nat.mul_pos (Nat.mul_pos (Nat.mul_pos (hpos 0) (hpos 1)) (hpos 2)) (hpos 3)

namespace RpcServer

variable {server : RpcServer}

theorem require_eq_ok {p : Prop} [Decidable p] {e : RpcError} {u : Unit} :
    require p e = .ok u ↔ p := by
  unfold require
  split_ifs with h
  · exact iff_of_true rfl h
  · exact iff_of_false nofun h

/-- What `deserialize_tensor` promises of a tensor. -/
structure Deserialized (server : RpcServer) (t : RpcTensor) (tensor : ServerTensor) : Prop where
  data : tensor.data = t.data
  nbytes : tensor.nbytes = (shapeOf t).nbytes
  buffer : ∀ r, tensor.buffer = some r → server.buffers t.buffer = some r
  inside : ∀ r, tensor.buffer = some r → 0 < (shapeOf t).nbytes →
    r.getBase ≤ t.data.toNat ∧ t.data.toNat + (shapeOf t).nbytes ≤ r.getBase + r.size

theorem bounds_of_check {data size base limit : ℕ} (hdata : data < 2 ^ 64) (hsize : size ≤ sizeMax)
    (h : ¬(wrapSize (data + size) < data ∨ data < base ∨ wrapSize (data + size) > wrapSize limit)) :
    base ≤ data ∧ data + size ≤ limit := by
  unfold wrapSize at h
  rw [sizeMax] at hsize
  omega

theorem requireInside_ok {data : ℕ} {shape : GgmlTensor} {r : Region} {u : Unit}
    (hdata : data < 2 ^ 64) (h : requireInside data shape (some r) = .ok u)
    (hpos : 0 < shape.nbytes) :
    r.getBase ≤ data ∧ data + shape.nbytes ≤ r.getBase + r.size := by
  rw [requireInside, if_pos (GgmlTensor.nelements_pos hpos), require_eq_ok] at h
  exact bounds_of_check hdata shape.nbytes_le h

theorem deserializeTensor_spec {t : RpcTensor} {tensor : ServerTensor}
    (h : server.deserializeTensor t = .ok tensor) : Deserialized server t tensor := by
  simp only [deserializeTensor, bind_eq_ok, pure_eq_ok] at h
  obtain ⟨-, -, -, -, -, -, u, hinside, rfl⟩ := h
  refine ⟨rfl, rfl, fun r hr => ?_, fun r hr hpos => ?_⟩
  · split_ifs at hr
    exact hr
  · have hsome : (if t.buffer = 0 then none else server.buffers t.buffer) = some r := hr
    rw [hsome] at hinside
    exact requireInside_ok t.data.toNat_lt hinside hpos

theorem deserializeInBuffer_spec {t : RpcTensor} {tensor : ServerTensor} {r : Region}
    (h : server.deserializeInBuffer t = .ok (tensor, r)) :
    Deserialized server t tensor ∧ tensor.buffer = some r := by
  obtain ⟨tensor', htensor, hmatch⟩ := bind_eq_ok.1 h
  split at hmatch
  · exact nomatch hmatch
  next buffer hbuffer =>
    cases hmatch
    exact ⟨deserializeTensor_spec htensor, hbuffer⟩

/-- An access lies in the live buffer that a tensor of the request names. -/
def Inside (server : RpcServer) (request : Request) (a : Access) : Prop :=
  ∃ t ∈ request.tensors, server.buffers t.buffer = some a.buffer ∧
    a.buffer.Contains a.start a.size

/-- The same for the access of one tensor. -/
def InsideOf (server : RpcServer) (t : RpcTensor) (a : Access) : Prop :=
  server.buffers t.buffer = some a.buffer ∧ a.buffer.Contains a.start a.size

theorem backendCall_inside {t : RpcTensor} {tensor : ServerTensor} {r : Region}
    (htensor : Deserialized server t tensor) (hbuffer : tensor.buffer = some r)
    {offset size : ℕ} (hinside : r.Contains (wrapSize (t.data.toNat + offset)) size)
    {accesses : List Access} (h : tensor.backendCall r offset size = .ok accesses) :
    ∀ a ∈ accesses, InsideOf server t a := by
  unfold ServerTensor.backendCall at h
  split_ifs at h
  · cases h
    exact fun a ha => absurd ha List.not_mem_nil
  · simp only [bind_eq_ok, pure_eq_ok] at h
    obtain ⟨-, -, -, -, rfl⟩ := h
    intro a ha
    obtain rfl := List.mem_singleton.mp ha
    rw [htensor.data]
    exact ⟨htensor.buffer r hbuffer, hinside⟩

theorem backendCall2d_inside {t : RpcTensor} {tensor : ServerTensor} {r : Region}
    (htensor : Deserialized server t tensor) (hbuffer : tensor.buffer = some r)
    {offset size nCopies stride : ℕ}
    (hinside : r.Contains (wrapSize (t.data.toNat + offset)) (sizeSub nCopies 1 * stride + size))
    {accesses : List Access}
    (h : tensor.backendCall2d r offset size nCopies stride = .ok accesses) :
    ∀ a ∈ accesses, InsideOf server t a := by
  unfold ServerTensor.backendCall2d at h
  split_ifs at h
  · cases h
    exact fun a ha => absurd ha List.not_mem_nil
  · simp only [bind_eq_ok, pure_eq_ok] at h
    obtain ⟨-, -, -, -, rfl⟩ := h
    intro a ha
    obtain rfl := List.mem_singleton.mp ha
    rw [htensor.data]
    exact ⟨htensor.buffer r hbuffer, hinside⟩

/-! ## One handler after the other -/

variable {accesses : List Access}

theorem memsetTensorRequest_inside {t : RpcTensor} {offset size : UInt64}
    (h : server.memsetTensorRequest t offset size = .ok accesses) :
    ∀ a ∈ accesses, InsideOf server t a := by
  simp only [memsetTensorRequest, bind_eq_ok, require_eq_ok] at h
  obtain ⟨⟨tensor, r⟩, hspec, -, -, -, hbase, -, hregion, -, -, hcall⟩ := h
  obtain ⟨htensor, hbuffer⟩ := deserializeInBuffer_spec hspec
  refine backendCall_inside htensor hbuffer ?_ hcall
  have hend := r.getBase_end_le
  have hdata := t.data.toNat_lt
  have hle : r.getBase ≤ t.data.toNat ∧
      t.data.toNat + offset.toNat + size.toNat ≤ r.getBase + r.size := by
    simp only at hbase hregion
    omega
  rcases Nat.eq_zero_or_pos size.toNat with hzero | hpos
  · rw [hzero]
    exact r.contains_zero
  · rw [wrapSize, Nat.mod_eq_of_lt (by omega)]
    exact Region.contains_of_getBase (by omega) hle.2

theorem checkedCall_inside {t : RpcTensor} {offset : UInt64} {size : ℕ}
    (h : server.checkedCall t offset size = .ok accesses) :
    ∀ a ∈ accesses, InsideOf server t a := by
  simp only [checkedCall, bind_eq_ok, require_eq_ok] at h
  obtain ⟨⟨tensor, r⟩, hspec, -, hcheck, hcall⟩ := h
  obtain ⟨htensor, hbuffer⟩ := deserializeInBuffer_spec hspec
  refine backendCall_inside htensor hbuffer ?_ hcall
  have hend := r.getBase_end_le
  have hstart := wrapSize_le (t.data.toNat + offset.toNat)
  generalize wrapSize (t.data.toNat + offset.toNat) = start at hcheck hstart ⊢
  have hlimit := wrapSize_le (r.getBase + r.size)
  have hwrap : wrapSize (r.getBase + r.size) ≤ r.getBase + r.size := Nat.mod_le _ _
  simp only at hcheck
  push Not at hcheck
  obtain ⟨hbase, hbefore, hsize⟩ := hcheck
  rw [sizeSub_eq hbefore.le hlimit] at hsize
  exact Region.contains_of_getBase hbase (by omega)

theorem span_eq {rows size stride : ℕ} (hsize : size ≤ sizeMax)
    (h : ¬(stride ≠ 0 ∧ rows > (sizeMax - size) / stride)) :
    wrapSize (rows * stride + size) = rows * stride + size := by
  refine wrapSize_eq ?_
  rcases Nat.eq_zero_or_pos stride with rfl | hpos
  · rwa [Nat.mul_zero, Nat.zero_add]
  · have hle : rows ≤ (sizeMax - size) / stride := Nat.not_lt.mp fun hlt => h ⟨by omega, hlt⟩
    have hmul := (Nat.le_div_iff_mul_le hpos).mp hle
    omega

theorem checkedCall2d_inside {t : RpcTensor} {offset size nCopies stride : UInt64}
    (h : server.checkedCall2d t offset size nCopies stride = .ok accesses) :
    ∀ a ∈ accesses, InsideOf server t a := by
  simp only [checkedCall2d, bind_eq_ok, require_eq_ok] at h
  obtain ⟨⟨tensor, r⟩, hspec, -, hstride, -, hcheck, -, -, hcall⟩ := h
  obtain ⟨htensor, hbuffer⟩ := deserializeInBuffer_spec hspec
  refine backendCall2d_inside htensor hbuffer ?_ hcall
  have hend := r.getBase_end_le
  have hdata := t.data.toNat_lt
  have hsize : size.toNat ≤ sizeMax := Nat.le_sub_one_of_lt size.toNat_lt
  have hwrap : wrapSize (r.getBase + r.size) ≤ r.getBase + r.size := Nat.mod_le _ _
  rw [span_eq hsize fun hover => hstride ⟨fun hzero => hover.1 (by rw [hzero]; rfl), hover.2⟩]
    at hcheck
  generalize sizeSub nCopies.toNat 1 * stride.toNat + size.toNat = span at hcheck ⊢
  have hle : r.getBase ≤ t.data.toNat ∧
      t.data.toNat + offset.toNat + span ≤ r.getBase + r.size := by
    simp only at hcheck
    omega
  rcases Nat.eq_zero_or_pos span with hzero | hpos
  · rw [hzero]
    exact r.contains_zero
  · rw [wrapSize, Nat.mod_eq_of_lt (by omega)]
    exact Region.contains_of_getBase (by omega) hle.2

theorem getTensor2d_inside {t : RpcTensor} {offset size nCopies stride : UInt64}
    (h : server.getTensor2d t offset size nCopies stride = .ok accesses) :
    ∀ a ∈ accesses, InsideOf server t a := by
  simp only [getTensor2d, bind_eq_ok] at h
  obtain ⟨-, -, -, -, hcall⟩ := h
  exact checkedCall2d_inside hcall

theorem setTensorHash_inside {t : RpcTensor} {offset hash : UInt64}
    (h : server.setTensorHash t offset hash = .ok accesses) :
    ∀ a ∈ accesses, InsideOf server t a := by
  unfold setTensorHash at h
  split at h
  · cases h
    exact fun a ha => absurd ha List.not_mem_nil
  · exact checkedCall_inside h

theorem setTensor_inside {input : List UInt8} (h : server.setTensor input = .ok accesses) :
    ∃ t ∈ (Request.setTensor input).tensors, ∀ a ∈ accesses, InsideOf server t a := by
  simp only [setTensor, bind_eq_ok] at h
  obtain ⟨-, -, ⟨t, rest⟩, hread, ⟨_, _⟩, -, ⟨_, _⟩, -, hcall⟩ := h
  exact ⟨t, by simp [Request.tensors, hread, Except.toOption], checkedCall_inside hcall⟩

theorem setTensor2d_inside {input : List UInt8} (h : server.setTensor2d input = .ok accesses) :
    ∃ t ∈ (Request.setTensor2d input).tensors, ∀ a ∈ accesses, InsideOf server t a := by
  simp only [setTensor2d, bind_eq_ok] at h
  obtain ⟨-, -, ⟨t, rest⟩, hread, ⟨_, _⟩, -, ⟨_, _⟩, -, ⟨_, _⟩, -, ⟨_, _⟩, -, -, -, hcall⟩ := h
  exact ⟨t, by simp [Request.tensors, hread, Except.toOption], checkedCall2d_inside hcall⟩

/-! ## Copies -/

/-- A copy has no bytes, or its destination does not begin below its buffer and does not wrap
around before the end of it. -/
def CopyFits (server : RpcServer) : Request → Prop
  | .copyTensor src dst => (shapeOf src).nbytes = 0 ∨
      ∀ r, server.buffers dst.buffer = some r → r.getBase ≤ dst.data.toNat ∧
        (dst.data.toNat + (shapeOf src).nbytes < 2 ^ 64 ∨
          dst.data.toNat + (shapeOf src).nbytes = r.getBase + r.size)
  | _ => True

theorem copy_contains_iff {r : Region} {data size : ℕ} (hdata : data < 2 ^ 64)
    (hsize : size ≤ sizeMax) (h : ¬ wrapSize (data + size) > wrapSize (r.getBase + r.size)) :
    r.Contains data size ↔ size = 0 ∨
      r.getBase ≤ data ∧ (data + size < 2 ^ 64 ∨ data + size = r.getBase + r.size) := by
  have hend := r.getBase_end_le
  rw [sizeMax] at hsize
  rcases Nat.eq_zero_or_pos size with rfl | hpos
  · exact iff_of_true r.contains_zero (.inl rfl)
  · rw [Region.contains_iff_getBase hdata hpos (by omega)]
    unfold wrapSize at h
    omega

theorem copyTensor_spec {src dst : RpcTensor} (h : server.copyTensor src dst = .ok accesses) :
    ∃ r r', server.buffers src.buffer = some r ∧ server.buffers dst.buffer = some r' ∧
      r.Contains src.data.toNat (shapeOf src).nbytes ∧
      ¬ wrapSize (dst.data.toNat + (shapeOf src).nbytes) > wrapSize (r'.getBase + r'.size) ∧
      accesses = [⟨r, src.data.toNat, (shapeOf src).nbytes⟩,
        ⟨r', dst.data.toNat, (shapeOf src).nbytes⟩] := by
  simp only [copyTensor, bind_eq_ok] at h
  obtain ⟨tensor, hsrc, tensor', hdst, h⟩ := h
  have hsrc := deserializeTensor_spec hsrc
  have hdst := deserializeTensor_spec hdst
  split at h
  next r r' hr hr' =>
    simp only [bind_eq_ok, require_eq_ok, pure_eq_ok] at h
    obtain ⟨-, hcheck, rfl⟩ := h
    rw [hsrc.nbytes, hdst.data] at hcheck
    rw [hsrc.nbytes, hsrc.data, hdst.data]
    refine ⟨r, r', hsrc.buffer r hr, hdst.buffer r' hr', ?_, hcheck, rfl⟩
    rcases Nat.eq_zero_or_pos (shapeOf src).nbytes with hzero | hpos
    · rw [hzero]
      exact r.contains_zero
    · obtain ⟨hbase, hend⟩ := hsrc.inside r hr hpos
      exact Region.contains_of_getBase hbase hend
  next => exact nomatch h

theorem copyTensor_inside_iff {src dst : RpcTensor}
    (h : server.copyTensor src dst = .ok accesses) :
    (∀ a ∈ accesses, Inside server (.copyTensor src dst) a) ↔
      CopyFits server (.copyTensor src dst) := by
  obtain ⟨r, r', hr, hr', hsrc, hcheck, rfl⟩ := copyTensor_spec h
  have hiff := copy_contains_iff dst.data.toNat_lt (shapeOf src).nbytes_le hcheck
  constructor
  · intro hall
    obtain ⟨t, -, -, hcontains⟩ := hall ⟨r', dst.data.toNat, (shapeOf src).nbytes⟩ (by simp)
    refine (hiff.mp hcontains).imp_right fun hfits s hs => ?_
    cases hr'.symm.trans hs
    exact hfits
  · intro hfits a ha
    rcases List.mem_cons.mp ha with rfl | ha
    · exact ⟨src, by simp [Request.tensors], hr, hsrc⟩
    · obtain rfl := List.mem_singleton.mp ha
      exact ⟨dst, by simp [Request.tensors], hr', hiff.mpr (hfits.imp_right fun h => h r' hr')⟩

theorem inside_of_insideOf {request : Request} {t : RpcTensor} (ht : t ∈ request.tensors)
    (h : ∀ a ∈ accesses, InsideOf server t a) : ∀ a ∈ accesses, Inside server request a :=
  fun a ha => ⟨t, ht, h a ha⟩

/-- Exactly the requests that fit keep the accesses of their backend call inside the live buffers
that their tensors name. -/
theorem handle_inside_iff (server : RpcServer) (request : Request) (accesses : List Access)
    (h : server.handle request = .ok accesses) :
    (∀ a ∈ accesses, Inside server request a) ↔ CopyFits server request := by
  cases request with
  | memsetTensor t offset size value =>
    exact iff_of_true
      (inside_of_insideOf (List.mem_singleton.mpr rfl) (memsetTensorRequest_inside h)) trivial
  | setTensor input =>
    obtain ⟨t, ht, hinside⟩ := setTensor_inside h
    exact iff_of_true (inside_of_insideOf ht hinside) trivial
  | setTensor2d input =>
    obtain ⟨t, ht, hinside⟩ := setTensor2d_inside h
    exact iff_of_true (inside_of_insideOf ht hinside) trivial
  | setTensorHash t offset hash =>
    exact iff_of_true
      (inside_of_insideOf (List.mem_singleton.mpr rfl) (setTensorHash_inside h)) trivial
  | getTensor t offset size =>
    exact iff_of_true
      (inside_of_insideOf (List.mem_singleton.mpr rfl) (checkedCall_inside h)) trivial
  | getTensor2d t offset size nCopies stride =>
    exact iff_of_true
      (inside_of_insideOf (List.mem_singleton.mpr rfl) (getTensor2d_inside h)) trivial
  | copyTensor src dst => exact copyTensor_inside_iff h

/-! ## A copy outside the buffers -/

/-- A buffer of 4096 bytes at address 4096. -/
def wholeBuffer : Region := ⟨4096, 4096, by decide, by decide⟩

def oneBuffer : RpcServer where
  buffers handle := if handle = 1 then some wholeBuffer else none
  disjoint := by
    intro p q r s hne hp hq
    split_ifs at hp hq with hone hone'
    exact absurd (hone.trans hone'.symm) hne
  memsetTensor _ := true
  cachedFile _ := none

/-- An `F32` tensor in the buffer with handle 1. -/
def floats (ne0 : UInt32) (data : UInt64) : RpcTensor where
  id := 1
  type := 0
  buffer := 1
  ne := ![ne0, 1, 1, 1]
  nb := ![4, 4, 4, 4]
  op := 0
  opParams _ := 0
  flags := 0
  src _ := 0
  viewSrc := 0
  viewOffs := 0
  data := data
  name _ := 0
  useCount := 0

/-- A tensor with no elements may lie anywhere, also below the buffer that is written. -/
theorem copy_below_buffer :
    ∃ accesses, oneBuffer.handle (.copyTensor (floats 1 4096) (floats 0 16)) = .ok accesses ∧
      ¬∀ a ∈ accesses, Inside oneBuffer (.copyTensor (floats 1 4096) (floats 0 16)) a := by
  refine ⟨[⟨wholeBuffer, 4096, 4⟩, ⟨wholeBuffer, 16, 4⟩], rfl, fun h => ?_⟩
  obtain ⟨-, -, -, hcontains⟩ := h ⟨wholeBuffer, 16, 4⟩ (by simp)
  exact absurd (hcontains 0 (by decide)).1 (by decide)

theorem handle_inside_copy :
    (∀ a ∈ [Access.mk wholeBuffer 4096 4, ⟨wholeBuffer, 4096, 4⟩],
      Inside oneBuffer (.copyTensor (floats 1 4096) (floats 1 4096)) a) ↔
      CopyFits oneBuffer (.copyTensor (floats 1 4096) (floats 1 4096)) :=
  handle_inside_iff oneBuffer (.copyTensor (floats 1 4096) (floats 1 4096)) _ rfl

end RpcServer
end RocmFpx
