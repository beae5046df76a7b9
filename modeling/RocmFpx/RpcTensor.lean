import Mathlib.Data.Fin.Tuple.Basic
import RocmFpx.ByteReader

/-!
`rpc_tensor`, the packed form of a tensor on the wire, and its bytes.
-/

namespace RocmFpx
open ByteReader

/-- `GGML_MAX_OP_PARAMS / sizeof(int32_t)`. -/
abbrev ggmlMaxOpParams : ℕ := 16

/-- `GGML_MAX_SRC`. -/
abbrev ggmlMaxSrc : ℕ := 10

/-- `GGML_MAX_NAME`. -/
abbrev ggmlMaxName : ℕ := 64

/-- `rpc_tensor`; signed fields are given by their bits. -/
structure RpcTensor where
  id : UInt64
  type : UInt32
  buffer : UInt64
  ne : Fin 4 → UInt32
  nb : Fin 4 → UInt32
  op : UInt32
  opParams : Fin ggmlMaxOpParams → UInt32
  flags : UInt32
  src : Fin ggmlMaxSrc → UInt64
  viewSrc : UInt64
  viewOffs : UInt64
  data : UInt64
  name : Fin ggmlMaxName → UInt8
  useCount : UInt32

namespace RpcTensor

/-- `sizeof(rpc_tensor)`. -/
def byteSize : ℕ := 296

variable {ε : Type} (e : ε)

def readUInt8 : ByteReader ε UInt8 := do
  let n ← readNat e 1
  pure (.ofNat n)

def readUInt32 : ByteReader ε UInt32 := do
  let n ← readNat e 4
  pure (.ofNat n)

def readUInt64 : ByteReader ε UInt64 := do
  let n ← readNat e 8
  pure (.ofNat n)

def readArray {α : Type} (r : ByteReader ε α) : (n : ℕ) → ByteReader ε (Fin n → α)
  | 0 => pure Fin.elim0
  | n + 1 => do
    let a ← r
    let as ← readArray r n
    pure (Fin.cons a as)

def read : ByteReader ε RpcTensor := do
  let id ← readUInt64 e
  let type ← readUInt32 e
  let buffer ← readUInt64 e
  let ne ← readArray (readUInt32 e) 4
  let nb ← readArray (readUInt32 e) 4
  let op ← readUInt32 e
  let opParams ← readArray (readUInt32 e) ggmlMaxOpParams
  let flags ← readUInt32 e
  let src ← readArray (readUInt64 e) ggmlMaxSrc
  let viewSrc ← readUInt64 e
  let viewOffs ← readUInt64 e
  let data ← readUInt64 e
  let name ← readArray (readUInt8 e) ggmlMaxName
  let useCount ← readUInt32 e
  pure { id, type, buffer, ne, nb, op, opParams, flags, src, viewSrc, viewOffs, data, name,
         useCount }

/-! ## Bytes -/

def uInt8Bytes (n : UInt8) : List UInt8 := leBytes 1 n.toNat

def uInt32Bytes (n : UInt32) : List UInt8 := leBytes 4 n.toNat

def uInt64Bytes (n : UInt64) : List UInt8 := leBytes 8 n.toNat

def arrayBytes {α : Type} (w : α → List UInt8) {n : ℕ} (as : Fin n → α) : List UInt8 :=
  (List.ofFn as).flatMap w

/-- The bytes of the packed structure. -/
def toBytes (t : RpcTensor) : List UInt8 :=
  uInt64Bytes t.id ++ (uInt32Bytes t.type ++ (uInt64Bytes t.buffer ++
    (arrayBytes uInt32Bytes t.ne ++ (arrayBytes uInt32Bytes t.nb ++ (uInt32Bytes t.op ++
    (arrayBytes uInt32Bytes t.opParams ++ (uInt32Bytes t.flags ++ (arrayBytes uInt64Bytes t.src ++
    (uInt64Bytes t.viewSrc ++ (uInt64Bytes t.viewOffs ++ (uInt64Bytes t.data ++
    (arrayBytes uInt8Bytes t.name ++ uInt32Bytes t.useCount))))))))))))

variable {e}

theorem reads_uInt8 (n : UInt8) : Reads (readUInt8 e) (uInt8Bytes n) n := by
  have h := (@reads_nat _ e 1 n.toNat n.toNat_lt).map UInt8.ofNat
  rwa [UInt8.ofNat_toNat] at h

theorem reads_uInt32 (n : UInt32) : Reads (readUInt32 e) (uInt32Bytes n) n := by
  have h := (@reads_nat _ e 4 n.toNat n.toNat_lt).map UInt32.ofNat
  rwa [UInt32.ofNat_toNat] at h

theorem reads_uInt64 (n : UInt64) : Reads (readUInt64 e) (uInt64Bytes n) n := by
  have h := (@reads_nat _ e 8 n.toNat n.toNat_lt).map UInt64.ofNat
  rwa [UInt64.ofNat_toNat] at h

theorem reads_array {α : Type} {r : ByteReader ε α} {w : α → List UInt8}
    (h : ∀ a, Reads r (w a) a) {n : ℕ} (as : Fin n → α) :
    Reads (readArray r n) (arrayBytes w as) as := by
  induction n with
  | zero => exact (Subsingleton.elim Fin.elim0 as) ▸ reads_pure Fin.elim0
  | succ n ih =>
    rw [arrayBytes, List.ofFn_succ, List.flatMap_cons]
    have htail := (ih fun i => as i.succ).map fun rest => (Fin.cons (as 0) rest : Fin (n + 1) → α)
    have hcons : Reads (readArray r (n + 1)) (w (as 0) ++ arrayBytes w fun i => as i.succ)
        (Fin.cons (as 0) fun i => as i.succ) := (h (as 0)).bind htail
    rwa [show (Fin.cons (as 0) fun i => as i.succ) = as from Fin.cons_self_tail as] at hcons

theorem reads_read (t : RpcTensor) : Reads (read e) t.toBytes t :=
  (reads_uInt64 t.id).bind <| (reads_uInt32 t.type).bind <| (reads_uInt64 t.buffer).bind <|
    (reads_array reads_uInt32 t.ne).bind <| (reads_array reads_uInt32 t.nb).bind <|
    (reads_uInt32 t.op).bind <| (reads_array reads_uInt32 t.opParams).bind <|
    (reads_uInt32 t.flags).bind <| (reads_array reads_uInt64 t.src).bind <|
    (reads_uInt64 t.viewSrc).bind <| (reads_uInt64 t.viewOffs).bind <|
    (reads_uInt64 t.data).bind <| (reads_array reads_uInt8 t.name).bind <|
    (reads_uInt32 t.useCount).map fun useCount => { t with useCount }

theorem arrayBytes_length {α : Type} {w : α → List UInt8} {k : ℕ} (h : ∀ a, (w a).length = k)
    {n : ℕ} (as : Fin n → α) : (arrayBytes w as).length = n * k := by
  rw [arrayBytes, List.length_flatMap, List.map_congr_left fun a _ => h a, List.map_const',
    List.sum_replicate_nat, List.length_ofFn]

theorem toBytes_length (t : RpcTensor) : t.toBytes.length = byteSize := by
  have h8 (n : UInt8) : (uInt8Bytes n).length = 1 := leBytes_length 1 n.toNat
  have h32 (n : UInt32) : (uInt32Bytes n).length = 4 := leBytes_length 4 n.toNat
  have h64 (n : UInt64) : (uInt64Bytes n).length = 8 := leBytes_length 8 n.toNat
  simp only [toBytes, List.length_append, arrayBytes_length h8, arrayBytes_length h32,
    arrayBytes_length h64, h32, h64]
  rfl

end RpcTensor
end RocmFpx
