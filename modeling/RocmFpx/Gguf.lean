import RocmFpx.ByteReader
import RocmFpx.GgmlTensor
import RocmFpx.Swa

/-!
The reader of GGUF files. What the bytes of a file do to it ends in a context, in a null pointer
or in a failed assertion.
-/

namespace RocmFpx

open ByteReader

inductive GgufType where
  | uint8 | int8 | uint16 | int16 | uint32 | int32 | float32 | bool | string | array
  | uint64 | int64 | float64
  deriving DecidableEq, Repr

namespace GgufType

/-- `gguf_type_size`. -/
def size : GgufType → ℕ
  | uint8 | int8 | bool => 1
  | uint16 | int16 => 2
  | uint32 | int32 | float32 => 4
  | string | array => 0
  | uint64 | int64 | float64 => 8

/-- The number that stands for a type in a file. -/
def id : GgufType → ℕ
  | uint8 => 0 | int8 => 1 | uint16 => 2 | int16 => 3 | uint32 => 4 | int32 => 5 | float32 => 6
  | bool => 7 | string => 8 | array => 9 | uint64 => 10 | int64 => 11 | float64 => 12

def ofId : ℕ → Option GgufType
  | 0 => some uint8 | 1 => some int8 | 2 => some uint16 | 3 => some int16 | 4 => some uint32
  | 5 => some int32 | 6 => some float32 | 7 => some bool | 8 => some string | 9 => some array
  | 10 => some uint64 | 11 => some int64 | 12 => some float64 | _ => none

end GgufType

/-- `gguf_kv`. -/
structure GgufKv where
  key : List UInt8
  isArray : Bool
  type : GgufType
  data : List UInt8
  dataString : List (List UInt8)
  deriving DecidableEq, Repr

/-- `gguf_tensor_info`. -/
structure GgufTensorInfo where
  t : GgmlTensor
  offset : ℕ

/-- `gguf_context`; `data` is the blob of tensor data when it has been loaded. -/
structure GgufContext where
  version : ℕ
  kv : List GgufKv
  info : List GgufTensorInfo
  alignment : ℕ
  offset : ℕ
  size : ℕ
  data : Option (List UInt8)

namespace Gguf

/-- A null pointer is returned, or an assertion fails. -/
inductive Failure where
  | null
  | abort
  deriving DecidableEq, Repr

abbrev Reader := ByteReader Failure

/-- `GGUF_VERSION`. -/
def version : ℕ := 3

/-- `GGUF_DEFAULT_ALIGNMENT`. -/
def defaultAlignment : ℕ := 32

/-- `GGUF_MAGIC`. -/
def magic : List UInt8 := [0x47, 0x47, 0x55, 0x46]

/-- `GGUF_KEY_GENERAL_ALIGNMENT`, the text `general.alignment`. -/
def keyGeneralAlignment : List UInt8 :=
  [0x67, 0x65, 0x6E, 0x65, 0x72, 0x61, 0x6C, 0x2E, 0x61, 0x6C, 0x69, 0x67, 0x6E, 0x6D, 0x65, 0x6E,
    0x74]

/-- `GGUF_MAX_STRING_LENGTH`. -/
def maxStringLength : ℕ := 1024 * 1024 * 1024

/-- `GGUF_MAX_ARRAY_ELEMENTS`. -/
def maxArrayElements : ℕ := 1024 * 1024 * 1024

/-- `GGML_MAX_NAME`. -/
def maxName : ℕ := 64

/-- `GGML_MAX_DIMS`. -/
def maxDims : ℕ := 4

def int64Max : ℕ := 2 ^ 63 - 1

/-- `sizeof(gguf_tensor_info)` and `sizeof(gguf_kv)`. -/
def sizeofTensorInfo : ℕ := 344
def sizeofKv : ℕ := 88

/-- What `c_str` shows of a string. -/
def cStr (s : List UInt8) : List UInt8 := s.takeWhile (· ≠ 0)

/-! ## Values -/

def readString : Reader (List UInt8) := do
  let size ← readNat .null 8
  check (size ≤ maxStringLength) .null
  readBytes .null size

/-- One element that is not a string; a `bool` is set to whether the byte is not zero. -/
def readElem (type : GgufType) : Reader (List UInt8) := do
  let bytes ← readBytes .null type.size
  pure (if type = .bool then bytes.map (if · ≠ 0 then 1 else 0) else bytes)

/-- `gr.read(value, n)`. -/
def readVector (type : GgufType) (n : ℕ) : Reader (List UInt8) := do
  check (n ≤ maxArrayElements) .null
  let left ← remaining
  check (n * type.size ≤ left) .null
  let elems ← readMany (readElem type) n
  pure elems.flatten

def readStrings (n : ℕ) : Reader (List (List UInt8)) := do
  check (n ≤ maxArrayElements) .null
  let left ← remaining
  check (n * 8 ≤ left) .null
  readMany readString n

/-- `gguf_read_emplace_helper`. -/
def readEmplace (key : List UInt8) (isArray : Bool) (type : GgufType) (n : ℕ) : Reader GgufKv :=
  if type = .string then do
    let strings ← if isArray then readStrings n else readMany readString 1
    pure ⟨key, isArray, type, [], strings⟩
  else do
    let bytes ← if isArray then readVector type n else readElem type
    pure ⟨key, isArray, type, bytes, []⟩

/-- The type of a value; a number that is no type goes to the same error as a nested array. -/
def readType : Reader GgufType := do
  let id ← readNat .null 4
  match GgufType.ofId id with
  | some type => pure type
  | none => fail .null

scoped instance lawfulBEq_key : LawfulBEq (List UInt8) := inferInstance

def readKv (seen : List (List UInt8)) : Reader GgufKv := do
  let key ← readString
  check (key ≠ []) .null
  check (key ∉ seen) .null
  let type ← readType
  if type = .array then
    let elemType ← readType
    let n ← readNat .null 8
    check (elemType ≠ .array) .null
    readEmplace key true elemType n
  else readEmplace key false type 1

/-! ## Alignment -/

/-- `gguf_find_key`, `none` for -1. -/
def findKey (kv : List GgufKv) (key : List UInt8) : Option ℕ :=
  kv.findIdx? fun entry => cStr entry.key = key

/-- The index of the alignment key goes through an `int`. -/
def alignmentIdx (kv : List GgufKv) : ℤ :=
  match findKey kv keyGeneralAlignment with
  | none => -1
  | some i => int32 i

/-- `gguf_get_val_u32`. -/
def getValU32 (entry : GgufKv) : ℕ := ofLeBytes (entry.data.take 4)

def readAlignment (kv : List GgufKv) : Except Failure ℕ :=
  if alignmentIdx kv = -1 then .ok defaultAlignment
  else
    match (if 0 ≤ alignmentIdx kv then kv[(alignmentIdx kv).toNat]? else none) with
    | none => .error .abort
    | some entry =>
      if entry.isArray ∨ entry.type ≠ .uint32 then .error .null
      else if isPowerOfTwo (getValU32 entry) then .ok (getValU32 entry)
      else .error .null

/-! ## Tensor infos -/

/-- A dimension is an `int64_t` that must not be negative. -/
def readDim : Reader ℕ := do
  let ne ← readNat .null 8
  check (ne ≤ int64Max) .null
  pure ne

/-- The check that the number of elements is representable; `current` is what it has come to. -/
def elementsFit (current : ℕ) : List ℕ → Bool
  | [] => true
  | ne :: rest => !(1 < ne && int64Max / ne < current) && elementsFit (current * ne) rest

/-- The shape from the dimensions that are written; the others are 1. -/
def shapeOf (dims : List ℕ) (i : Fin 4) : ℕ := dims.getD i 1

def readShape : Reader (Fin 4 → ℕ) := do
  let nDims ← readNat .null 4
  check (nDims ≤ maxDims) .null
  let dims ← readMany readDim nDims
  let ne := shapeOf dims
  check (elementsFit (ne 0) [ne 1, ne 2, ne 3] = true) .null
  pure ne

/-- A type is an `int32_t`; a negative one is as far out of range as one from `GGML_TYPE_COUNT` on. -/
def readGgmlType (ne : Fin 4 → ℕ) : Reader ℕ := do
  let type ← readNat .null 4
  check (type < ggmlTypeCount) .null
  check (type ≠ legacyAmbiguous) .null
  check (ggmlBlckSize type ≠ 0 ∧ ne 0 % ggmlBlckSize type = 0) .null
  check (ne 0 * ne 1 * ne 2 * ne 3 / ggmlBlckSize type ≤ sizeMax / ggmlTypeSize type) .null
  pure type

/-- One tensor info, beside the name as the file has it. -/
def readTensorInfo (seen : List (List UInt8)) : Reader (List UInt8 × GgufTensorInfo) := do
  let name ← readString
  check (name.length < maxName) .null
  check (name ∉ seen) .null
  let ne ← readShape
  let type ← readGgmlType ne
  let offset ← readNat .null 8
  pure (name, ⟨⟨type, ne, contiguousNb type ne, cStr name, none⟩, offset⟩)

/-! ## The data section -/

/-- The loop that adds up the size of the data section, from the size `size` on. -/
def dataSize (alignment : ℕ) : ℕ → List GgufTensorInfo → Option ℕ
  | size, [] => some size
  | size, ti :: rest =>
    if ti.offset ≠ size then none
    else if sizeMax - (alignment - 1) < ti.t.nbytes then none
    else if sizeMax - size < ggmlPad ti.t.nbytes alignment then none
    else dataSize alignment (wrapSize (size + ggmlPad ti.t.nbytes alignment)) rest

/-- `gguf_init_params`. -/
structure InitParams where
  ctx : Bool
  noAlloc : Bool

/-- `ggml_tensor_overhead`. -/
def tensorOverhead : ℕ := 368

/-- Loads the tensor data if that is asked for. `init` says whether a `ggml_context` of the given
size can be had. -/
def load (init : ℕ → Bool) (params : InitParams) (ctx : GgufContext) (rest : List UInt8) :
    Except Failure GgufContext :=
  let nTensors := ctx.info.length
  if !params.ctx then .ok ctx
  else if params.noAlloc then
    if nTensors ≠ 0 ∧ sizeMax / nTensors < tensorOverhead then .error .null
    else if init (nTensors * tensorOverhead) then .ok ctx else .error .null
  else if sizeMax / (nTensors + 1) < tensorOverhead then .error .null
  else if sizeMax - (nTensors + 1) * tensorOverhead < ctx.size then .error .null
  else if init ((nTensors + 1) * tensorOverhead + ctx.size) then
    if ctx.size ≤ rest.length then .ok { ctx with data := some (rest.take ctx.size) }
    else .error .null
  else .error .null

/-! ## The whole file -/

/-- Magic, version and the numbers of tensors and of key-value pairs. -/
def readHeader : Reader (ℕ × ℕ × ℕ) := do
  let bytes ← readBytes .null 4
  check (bytes = magic) .null
  let v ← readNat .null 4
  check (v ≠ 0 ∧ v % 2 ^ 16 ≠ 0 ∧ v ≠ 1 ∧ v ≤ version) .null
  let nTensors ← readNat .null 8
  check (nTensors ≤ sizeMax / sizeofTensorInfo) .null
  let nKv ← readNat .null 8
  check (nKv ≤ sizeMax / sizeofKv) .null
  pure (v, nTensors, nKv)

/-- What a file says before its tensor data. -/
structure Meta where
  version : ℕ
  kv : List GgufKv
  alignment : ℕ
  infos : List (List UInt8 × GgufTensorInfo)

def readMeta : Reader Meta := do
  let (v, nTensors, nKv) ← readHeader
  let kv ← readSeen GgufKv.key readKv nKv []
  match readAlignment kv with
  | .error e => fail e
  | .ok alignment =>
    let infos ← readSeen Prod.fst readTensorInfo nTensors []
    pure ⟨v, kv, alignment, infos⟩

/-- `gguf_init_from_buffer`. -/
def initFromBuffer (init : ℕ → Bool) (params : InitParams) (bytes : List UInt8) :
    Except Failure GgufContext :=
  match readMeta bytes with
  | .error e => .error e
  | .ok (m, rest) =>
    let tell := bytes.length - rest.length
    let offset := if m.infos = [] then tell else ggmlPad tell m.alignment
    if bytes.length < offset then .error .null
    else
      match dataSize m.alignment 0 (m.infos.map Prod.snd) with
      | none => .error .null
      | some size =>
        load init params ⟨m.version, m.kv, m.infos.map Prod.snd, m.alignment, offset, size, none⟩
          (bytes.drop offset)

end Gguf
end RocmFpx
