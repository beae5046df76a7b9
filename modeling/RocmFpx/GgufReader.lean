import RocmFpx.Gguf
import RocmFpx.GgufSizes
import RocmFpx.ReadProgram

/-!
The reader behind the three ways to open a GGUF file. It keeps a position and a count of the
bytes that are left, and gets its bytes in chunks from a callback, which may serve fewer than
it was asked for. A callback takes its user data, a position and a length.
-/

namespace RocmFpx.Gguf

/-! ## What is read -/

abbrev Program := ReadProgram Failure

namespace Program

open ReadProgram

def readString : Program (List UInt8) := do
  let size ← readNat .null 8
  check (size ≤ maxStringLength) .null
  readBytes .null size

def readElem (type : GgufType) : Program (List UInt8) := do
  let bytes ← readBytes .null type.size
  pure (if type = .bool then bytes.map (if · ≠ 0 then 1 else 0) else bytes)

/-- `gr.read(dst, n)` for elements of `size` bytes in memory, each read by `r`. -/
def readVector {α : Type} (r : Program α) (size n : ℕ) : Program (List α) := do
  check (n ≤ maxArrayElements) .null
  require .null (n * size) (readMany r n)

/-- `gguf_read_emplace_helper`. -/
def readEmplace (key : List UInt8) (isArray : Bool) (type : GgufType) (n : ℕ) : Program GgufKv :=
  if type = .string then do
    let strings ← if isArray then readVector readString 8 n else readMany readString 1
    pure ⟨key, isArray, type, [], strings⟩
  else do
    let bytes ← if isArray then
        (do let elems ← readVector (readElem type) type.size n; pure elems.flatten)
      else readElem type
    pure ⟨key, isArray, type, bytes, []⟩

def readType : Program GgufType := do
  let id ← readNat .null 4
  match GgufType.ofId id with
  | some type => pure type
  | none => fail .null

def readKv (seen : List (List UInt8)) : Program GgufKv := do
  let key ← readString
  check (key ≠ []) .null
  check (key ∉ seen) .null
  let type ← readType
  if type = .array then
    let elemType ← readType
    let n ← readNat .null 8
    check (elemType ≠ .array) .null
    readEmplace key true elemType n
  else readEmplace key false type 1

def readDim : Program ℕ := do
  let ne ← readNat .null 8
  check (ne ≤ int64Max) .null
  pure ne

def readShape : Program (Fin 4 → ℕ) := do
  let nDims ← readNat .null 4
  check (nDims ≤ maxDims) .null
  let dims ← readMany readDim nDims
  let ne := shapeOf dims
  check (elementsFit (ne 0) [ne 1, ne 2, ne 3] = true) .null
  pure ne

def readGgmlType (ne : Fin 4 → ℕ) : Program ℕ := do
  let type ← readNat .null 4
  check (type < ggmlTypeCount) .null
  check (type ≠ legacyAmbiguous) .null
  check (ggmlBlckSize type ≠ 0 ∧ ne 0 % ggmlBlckSize type = 0) .null
  check (ne 0 * ne 1 * ne 2 * ne 3 / ggmlBlckSize type ≤ sizeMax / ggmlTypeSize type) .null
  pure type

def readTensorInfo (seen : List (List UInt8)) : Program (List UInt8 × GgufTensorInfo) := do
  let name ← readString
  check (name.length < maxName) .null
  check (name ∉ seen) .null
  let ne ← readShape
  let type ← readGgmlType ne
  let offset ← readNat .null 8
  pure (name, ⟨⟨type, ne, contiguousNb type ne, cStr name, none⟩, offset⟩)

/-- The magic is read as a vector of four characters. -/
def readMagic : Program (List UInt8) := do
  let chars ← readVector (readBytes .null 1) 1 4
  pure chars.flatten

def readHeader : Program (ℕ × ℕ × ℕ) := do
  let bytes ← readMagic
  check (bytes = magic) .null
  let v ← readNat .null 4
  check (v ≠ 0 ∧ v % 2 ^ 16 ≠ 0 ∧ v ≠ 1 ∧ v ≤ version) .null
  let nTensors ← readNat .null 8
  check (nTensors ≤ sizeMax / sizeofTensorInfo) .null
  let nKv ← readNat .null 8
  check (nKv ≤ sizeMax / sizeofKv) .null
  pure (v, nTensors, nKv)

def readMeta : Program Meta := do
  let (v, nTensors, nKv) ← readHeader
  let kv ← readSeen GgufKv.key readKv nKv []
  match readAlignment kv with
  | .error e => fail e
  | .ok alignment =>
    let infos ← readSeen Prod.fst readTensorInfo nTensors []
    pure ⟨v, kv, alignment, infos⟩

end Program

/-! ## The reader -/

/-- `gguf_reader_callback_t`; the bytes it wrote, and its user data. -/
abbrev Callback (σ : Type) := σ → ℕ → ℕ → List UInt8 × σ

/-- The constant members of `gguf_reader`. -/
structure GgufReader (σ : Type) where
  callback : Callback σ
  maxChunkRead : ℕ
  startOffset : ℕ

/-- The mutable ones, and the user data. -/
structure ReaderState (σ : Type) where
  userdata : σ
  dataOffset : ℕ
  nbytesRemain : ℕ

namespace GgufReader

variable {σ : Type} (gr : GgufReader σ)

/-- The loop of `read_raw` with the bytes so far; it says whether the end was reached. -/
def readLoop (dataOffset size : ℕ) : ℕ → σ → List UInt8 → List UInt8 × Bool × σ
  | 0, u, acc => (acc, false, u)
  | fuel + 1, u, acc =>
    if acc.length < size then
      let chunkSize := min gr.maxChunkRead (size - acc.length)
      if wrapSize (dataOffset + acc.length) < dataOffset then (acc, false, u)
      else
        let r := gr.callback u (dataOffset + acc.length) chunkSize
        if r.1.length ≠ chunkSize then (acc ++ r.1, true, r.2)
        else readLoop dataOffset size fuel r.2 (acc ++ r.1)
    else (acc, false, u)

/-- `read_raw`; every round but the last reads something. -/
def readRaw (size : ℕ) (s : ReaderState σ) : Except Failure (List UInt8) × ReaderState σ :=
  let r := gr.readLoop s.dataOffset size size s.userdata []
  let dataOffset := wrapSize (s.dataOffset + r.1.length)
  if r.1.length ≤ s.nbytesRemain then
    (.ok r.1, ⟨r.2.2, dataOffset, if r.2.1 then 0 else s.nbytesRemain - r.1.length⟩)
  else (.error .abort, ⟨r.2.2, dataOffset, s.nbytesRemain⟩)

/-- The `read` functions. -/
def run {α : Type} : ReadProgram Failure α → ReaderState σ → Except Failure α × ReaderState σ
  | .done a, s => (.ok a, s)
  | .fail e, s => (.error e, s)
  | .require e n k, s => if s.nbytesRemain < n then (.error e, s) else run k s
  | .read e n k, s =>
    if n > s.nbytesRemain then (.error e, s)
    else
      match gr.readRaw n s with
      | (.error e, s) => (.error e, s)
      | (.ok bytes, s) => if bytes.length = n then run (k bytes) s else (.error e, s)

def seek (absoluteOffset : ℕ) (s : ReaderState σ) : Option (ReaderState σ) :=
  let endOffset := wrapSize (s.dataOffset + s.nbytesRemain)
  if absoluteOffset > endOffset then none
  else some ⟨s.userdata, absoluteOffset, endOffset - absoluteOffset⟩

/-- The tensor data is read if that is asked for. -/
def load (init : ℕ → Bool) (params : InitParams) (ctx : GgufContext) (s : ReaderState σ) :
    Except Failure GgufContext × ReaderState σ :=
  let nTensors := ctx.info.length
  if !params.ctx then (.ok ctx, s)
  else if params.noAlloc then
    if nTensors ≠ 0 ∧ sizeMax / nTensors < tensorOverhead then (.error .null, s)
    else if init (nTensors * tensorOverhead) then (.ok ctx, s) else (.error .null, s)
  else if sizeMax / (nTensors + 1) < tensorOverhead then (.error .null, s)
  else if sizeMax - (nTensors + 1) * tensorOverhead < ctx.size then (.error .null, s)
  else if init ((nTensors + 1) * tensorOverhead + ctx.size) then
    match gr.run (ReadProgram.readBytes .null ctx.size) s with
    | (.error e, s) => (.error e, s)
    | (.ok bytes, s) => (.ok { ctx with data := some bytes }, s)
  else (.error .null, s)

/-- `gguf_init_from_reader`. -/
def initFromReader (init : ℕ → Bool) (params : InitParams) (s : ReaderState σ) :
    Except Failure GgufContext × ReaderState σ :=
  match gr.run Program.readMeta s with
  | (.error e, s) => (.error e, s)
  | (.ok m, s) =>
    let sought :=
      if m.infos = [] then some s
      else seek (wrapSize (gr.startOffset +
        ggmlPad (sizeSub s.dataOffset gr.startOffset) m.alignment)) s
    match sought with
    | none => (.error .null, s)
    | some s =>
      match dataSize m.alignment 0 (m.infos.map Prod.snd) with
      | none => (.error .null, s)
      | some size =>
        gr.load init params
          ⟨m.version, m.kv, m.infos.map Prod.snd, m.alignment, s.dataOffset, size, none⟩ s

end GgufReader

/-! ## The three sources -/

/-- `gguf_init_from_callback`. -/
def initFromCallback {σ : Type} (callback : Callback σ) (userdata : σ)
    (maxChunkRead maxExpectedSize : ℕ) (init : ℕ → Bool) (params : InitParams) :
    Except Failure GgufContext × ReaderState σ :=
  let gr : GgufReader σ := ⟨callback, if maxChunkRead = 0 then sizeMax else maxChunkRead, 0⟩
  gr.initFromReader init params ⟨userdata, 0, maxExpectedSize⟩

/-- An open file and where it stands; positions are 64-bit numbers with a sign. -/
structure CFile where
  contents : List UInt8
  pos : ℕ
  length_le : contents.length ≤ int64Max

/-- `gguf_file_reader`. -/
structure FileReader where
  file : CFile
  offset : ℕ

/-- `fread` of single bytes, beside the file. -/
def CFile.fread (file : CFile) (len : ℕ) : List UInt8 × CFile :=
  let bytes := (file.contents.drop file.pos).take len
  (bytes, { file with pos := file.pos + bytes.length })

/-- `gguf_file_reader_callback`. -/
def fileReaderCallback : Callback FileReader := fun reader offset len =>
  if reader.offset ≠ offset ∧ offset > int64Max then ([], reader)
  else
    let reader : FileReader :=
      if reader.offset ≠ offset then ⟨{ reader.file with pos := offset }, offset⟩ else reader
    let r := reader.file.fread len
    (r.1, ⟨r.2, reader.offset + r.1.length⟩)

/-- `file_remain`. -/
def fileRemain (file : CFile) : ℕ := wrapSize (file.contents.length + (sizeMax + 1 - file.pos))

/-- `gguf_init_from_file_ptr`. -/
def initFromFilePtr (file : CFile) (init : ℕ → Bool) (params : InitParams) :
    Except Failure GgufContext × ReaderState FileReader :=
  let gr : GgufReader FileReader := ⟨fileReaderCallback, sizeMax, file.pos⟩
  gr.initFromReader init params ⟨⟨file, file.pos⟩, file.pos, fileRemain file⟩

/-- `gguf_buffer_reader_callback`. -/
def bufferReaderCallback : Callback (List UInt8) := fun data offset len =>
  if offset > data.length ∨ len > data.length - offset then ([], data)
  else ((data.drop offset).take (min len (data.length - offset)), data)

/-- `gguf_init_from_buffer`, with the reader it leaves if it made one. -/
def initFromBufferReader (data : List UInt8) (init : ℕ → Bool) (params : InitParams) :
    Except Failure GgufContext × ReaderState (List UInt8) :=
  let s : ReaderState (List UInt8) := ⟨data, 0, data.length⟩
  if data.length = 0 then (.error .null, s)
  else
    let gr : GgufReader (List UInt8) := ⟨bufferReaderCallback, sizeMax, 0⟩
    gr.initFromReader init params s

end RocmFpx.Gguf

/-!
Neither the chunks in which the bytes come nor the place of a GGUF file in a larger one changes
what is read. The bytes between the start and the end that was declared are all the reader ever
counts.
-/

namespace RocmFpx.Gguf

/-! ## The programs on a byte string -/

namespace Program

open ReadProgram

theorem onBytes_readString : readString.onBytes = Gguf.readString := by
  simp only [readString, Gguf.readString, onBytes_bind, onBytes_check, onBytes_readNat,
    onBytes_readBytes]

theorem onBytes_readElem (type : GgufType) : (readElem type).onBytes = Gguf.readElem type := by
  simp only [readElem, Gguf.readElem, onBytes_bind, onBytes_readBytes, onBytes_pure]

theorem onBytes_readVector {α : Type} {r : Program α} {r' : Reader α} (h : r.onBytes = r')
    (size n : ℕ) : (readVector r size n).onBytes = (do
      ByteReader.check (n ≤ maxArrayElements) .null
      let left ← ByteReader.remaining
      ByteReader.check (n * size ≤ left) .null
      ByteReader.readMany r' n) := by
  simp only [readVector, onBytes_bind, onBytes_check, onBytes, onBytes_readMany h]

theorem onBytes_readEmplace (key : List UInt8) (isArray : Bool) (type : GgufType) (n : ℕ) :
    (readEmplace key isArray type n).onBytes = Gguf.readEmplace key isArray type n := by
  unfold readEmplace Gguf.readEmplace
  split_ifs with htype
  all_goals
    cases isArray <;>
      simp only [onBytes_bind, onBytes_pure, onBytes_readVector onBytes_readString,
        onBytes_readVector (onBytes_readElem type), onBytes_readMany onBytes_readString,
        onBytes_readElem, readStrings, Gguf.readVector, bind_assoc, pure_bind]

theorem onBytes_readType : readType.onBytes = Gguf.readType := by
  simp only [readType, Gguf.readType, onBytes_bind, onBytes_readNat]
  congr 1
  funext id
  cases GgufType.ofId id <;> rfl

theorem onBytes_readKv (seen : List (List UInt8)) : (readKv seen).onBytes = Gguf.readKv seen := by
  simp only [readKv, Gguf.readKv, onBytes_bind, onBytes_check, onBytes_readString,
    onBytes_readType, onBytes_readNat, apply_ite onBytes, onBytes_readEmplace]

theorem onBytes_readDim : readDim.onBytes = Gguf.readDim := by
  simp only [readDim, Gguf.readDim, onBytes_bind, onBytes_check, onBytes_readNat, onBytes_pure]

theorem onBytes_readShape : readShape.onBytes = Gguf.readShape := by
  simp only [readShape, Gguf.readShape, onBytes_bind, onBytes_check, onBytes_readNat,
    onBytes_readMany onBytes_readDim, onBytes_pure]

theorem onBytes_readGgmlType (ne : Fin 4 → ℕ) :
    (readGgmlType ne).onBytes = Gguf.readGgmlType ne := by
  simp only [readGgmlType, Gguf.readGgmlType, onBytes_bind, onBytes_check, onBytes_readNat,
    onBytes_pure]

theorem onBytes_readTensorInfo (seen : List (List UInt8)) :
    (readTensorInfo seen).onBytes = Gguf.readTensorInfo seen := by
  simp only [readTensorInfo, Gguf.readTensorInfo, onBytes_bind, onBytes_check, onBytes_readNat,
    onBytes_readString, onBytes_readShape, onBytes_readGgmlType, onBytes_pure]

theorem onBytes_readMagic : readMagic.onBytes = ByteReader.readBytes .null 4 := by
  rw [readMagic, onBytes_bind, onBytes_readVector (onBytes_readBytes .null 1)]
  funext bs
  match bs with
  | [] | [_] | [_, _] | [_, _, _] => rfl
  | a :: b :: c :: d :: rest => rfl

theorem onBytes_readHeader : readHeader.onBytes = Gguf.readHeader := by
  simp only [readHeader, Gguf.readHeader, onBytes_bind, onBytes_check, onBytes_readNat,
    onBytes_readMagic, onBytes_pure]

theorem onBytes_readMeta : readMeta.onBytes = Gguf.readMeta := by
  simp only [readMeta, Gguf.readMeta, onBytes_bind, onBytes_readHeader,
    onBytes_readSeen onBytes_readKv]
  congr 1
  funext header
  congr 1
  funext kv
  cases readAlignment kv with
  | error e => rfl
  | ok alignment =>
    simp only [onBytes_bind, onBytes_readSeen onBytes_readTensorInfo, onBytes_pure]

end Program

/-- The context of the same bytes when they start at `start`. -/
def shifted (start : ℕ) (ctx : GgufContext) : GgufContext := { ctx with offset := start + ctx.offset }

theorem ggmlPad_le {x n : ℕ} : ggmlPad x n ≤ x + n - 1 :=
  Nat.and_le_left.trans (Nat.mod_le _ _)

/-! ## A callback that serves a byte string -/

/-- What lies at `start` is `bytes`; `I` holds of the user data and is kept. -/
structure Serves {σ : Type} (callback : Callback σ) (I : σ → Prop) (start : ℕ)
    (bytes : List UInt8) : Prop where
  serve : ∀ u k len, I u → 0 < len → k + len ≤ bytes.length →
    (callback u (start + k) len).1 = (bytes.drop k).take len
  keep : ∀ u k len, I u → 0 < len → k + len ≤ bytes.length → I (callback u (start + k) len).2

namespace GgufReader

variable {σ α : Type} {gr : GgufReader σ} {I : σ → Prop} {start : ℕ} {bytes : List UInt8}

/-- The reader stands at byte `k` and takes the end of the bytes for the end. -/
structure Stands (I : σ → Prop) (start : ℕ) (bytes : List UInt8) (k : ℕ) (s : ReaderState σ) :
    Prop where
  userdata : I s.userdata
  dataOffset : s.dataOffset = start + k
  nbytesRemain : k + s.nbytesRemain = bytes.length

theorem Stands.length_drop {k : ℕ} {s : ReaderState σ} (h : Stands I start bytes k s) :
    (bytes.drop k).length = s.nbytesRemain := by
  rw [List.length_drop, ← h.nbytesRemain, Nat.add_sub_cancel_left]

theorem readLoop_serves (hserves : Serves gr.callback I start bytes) (hchunk : 0 < gr.maxChunkRead)
    (hfit : start + bytes.length ≤ sizeMax) {k size : ℕ} (hsize : k + size ≤ bytes.length)
    (fuel : ℕ) {u : σ} (hu : I u) {acc : List UInt8} (hacc : acc.length ≤ size)
    (hfuel : size ≤ fuel + acc.length) :
    ∃ u', I u' ∧ gr.readLoop (start + k) size fuel u acc =
      (acc ++ (bytes.drop (k + acc.length)).take (size - acc.length), false, u') := by
  induction fuel generalizing u acc with
  | zero =>
    have hall : size - acc.length = 0 := by omega
    exact ⟨u, hu, by rw [readLoop, hall, List.take_zero, List.append_nil]⟩
  | succ fuel ih =>
    rw [readLoop]
    by_cases hlt : acc.length < size
    · let chunkSize := min gr.maxChunkRead (size - acc.length)
      have hpos : 0 < chunkSize := lt_min hchunk (Nat.sub_pos_of_lt hlt)
      have hle : chunkSize ≤ size - acc.length := min_le_right _ _
      have hend : k + acc.length + chunkSize ≤ bytes.length := by omega
      have hwrap : ¬wrapSize (start + k + acc.length) < start + k := by
        rw [wrapSize_eq (by omega)]
        exact Nat.not_lt.mpr (Nat.le_add_right _ _)
      have hserve := hserves.serve u (k + acc.length) chunkSize hu hpos hend
      have hkeep := hserves.keep u (k + acc.length) chunkSize hu hpos hend
      rw [← Nat.add_assoc] at hserve hkeep
      have hlen : ((bytes.drop (k + acc.length)).take chunkSize).length = chunkSize := by
        rw [List.length_take, List.length_drop]
        omega
      have hlen' : (acc ++ (bytes.drop (k + acc.length)).take chunkSize).length =
          acc.length + chunkSize := by rw [List.length_append, hlen]
      obtain ⟨u', hu', heq⟩ := ih hkeep (by rw [hlen']; omega) (by rw [hlen']; omega)
      refine ⟨u', hu', ?_⟩
      have hsum : size - acc.length = chunkSize + (size - (acc.length + chunkSize)) := by omega
      rw [if_pos hlt, if_neg hwrap]
      dsimp only
      rw [hserve, hlen, if_neg (not_not.mpr rfl), heq, hlen', List.append_assoc, hsum,
        List.take_add, List.drop_drop, Nat.add_assoc]
    · have hall : size - acc.length = 0 := by omega
      exact ⟨u, hu, by rw [if_neg hlt, hall, List.take_zero, List.append_nil]⟩

theorem readRaw_serves (hserves : Serves gr.callback I start bytes) (hchunk : 0 < gr.maxChunkRead)
    (hfit : start + bytes.length ≤ sizeMax) {k size : ℕ} {s : ReaderState σ}
    (h : Stands I start bytes k s) (hsize : size ≤ s.nbytesRemain) :
    ∃ s', Stands I start bytes (k + size) s' ∧
      gr.readRaw size s = (.ok ((bytes.drop k).take size), s') := by
  obtain ⟨u, dataOffset, nbytesRemain⟩ := s
  obtain ⟨hu, rfl, hremain⟩ := h
  dsimp only at hu hremain hsize
  have hend : k + size ≤ bytes.length := by omega
  have hnil : ([] : List UInt8).length ≤ size := Nat.zero_le size
  obtain ⟨u', hu', heq⟩ := readLoop_serves hserves hchunk hfit hend size hu hnil (Nat.le_refl size)
  have hlen : ((bytes.drop k).take size).length = size := by
    rw [List.length_take, List.length_drop]
    omega
  refine ⟨⟨u', start + k + size, nbytesRemain - size⟩, ⟨hu', Nat.add_assoc .., ?_⟩, ?_⟩
  · dsimp only
    omega
  · simp only [List.length_nil, Nat.add_zero, Nat.sub_zero, List.nil_append] at heq
    simp only [readRaw, heq, hlen, if_pos hsize, Bool.false_eq_true, if_false,
      wrapSize_eq (show start + k + size ≤ sizeMax by omega)]

theorem run_serves (hserves : Serves gr.callback I start bytes) (hchunk : 0 < gr.maxChunkRead)
    (hfit : start + bytes.length ≤ sizeMax) (p : ReadProgram Failure α) {k : ℕ}
    {s : ReaderState σ} (h : Stands I start bytes k s) :
    match p.onBytes (bytes.drop k) with
    | .ok (a, rest) => ∃ k' s', rest = bytes.drop k' ∧ Stands I start bytes k' s' ∧
        gr.run p s = (.ok a, s')
    | .error e => (gr.run p s).1 = .error e := by
  induction p generalizing k s with
  | done a => exact ⟨k, s, rfl, h, rfl⟩
  | fail e => rfl
  | require e n p ih =>
    rw [ReadProgram.onBytes_require, h.length_drop, run]
    by_cases hle : n ≤ s.nbytesRemain
    · rw [if_pos hle, if_neg (not_lt.mpr hle)]
      exact ih h
    · rw [if_neg hle, if_pos (not_le.mp hle)]
  | read e n p ih =>
    rw [ReadProgram.onBytes_read, h.length_drop, run]
    by_cases hle : n ≤ s.nbytesRemain
    · obtain ⟨s', h', heq⟩ := readRaw_serves hserves hchunk hfit h hle
      have hlen : ((bytes.drop k).take n).length = n := by
        rw [List.length_take, h.length_drop, Nat.min_eq_left hle]
      rw [if_pos hle, if_neg (not_lt.mpr hle), heq]
      simp only [hlen, if_true, List.drop_drop]
      exact ih _ h'
    · rw [if_neg hle, if_pos (not_le.mp hle)]

theorem load_serves (hserves : Serves gr.callback I start bytes) (hchunk : 0 < gr.maxChunkRead)
    (hfit : start + bytes.length ≤ sizeMax) (init : ℕ → Bool) (params : InitParams)
    (ctx : GgufContext) {k : ℕ} {s : ReaderState σ} (h : Stands I start bytes k s) :
    (gr.load init params (shifted start ctx) s).1 =
      (Gguf.load init params ctx (bytes.drop k)).map (shifted start) := by
  have hread := run_serves hserves hchunk hfit (ReadProgram.readBytes .null ctx.size) h
  rw [ReadProgram.onBytes_readBytes, ByteReader.readBytes] at hread
  unfold GgufReader.load Gguf.load
  dsimp +instances only [shifted]
  by_cases hleft : ctx.size ≤ (bytes.drop k).length
  · rw [if_pos hleft] at hread
    obtain ⟨k', s', -, -, heq⟩ := hread
    rw [if_pos hleft, heq]
    split_ifs <;> rfl
  · rw [if_neg hleft] at hread
    cases hrun : gr.run (ReadProgram.readBytes .null ctx.size) s with
    | mk result s' =>
      obtain rfl : result = .error .null := by rw [← hread, hrun]
      rw [if_neg hleft]
      split_ifs <;> rfl

theorem seek_stands {k : ℕ} {s : ReaderState σ} (h : Stands I start bytes k s)
    (hfit : start + bytes.length ≤ sizeMax) (k' : ℕ) :
    if k' ≤ bytes.length then ∃ s', Stands I start bytes k' s' ∧ seek (start + k') s = some s'
    else seek (start + k') s = none := by
  obtain ⟨hu, hoffset, hremain⟩ := h
  have hend : wrapSize (s.dataOffset + s.nbytesRemain) = start + bytes.length := by
    rw [hoffset, Nat.add_assoc, hremain, wrapSize_eq hfit]
  unfold seek
  dsimp only
  rw [hend]
  split_ifs with hle hgt hgt
  · omega
  · have hremain' : k' + (start + bytes.length - (start + k')) = bytes.length := by omega
    exact ⟨⟨s.userdata, start + k', _⟩, ⟨hu, rfl, hremain'⟩, rfl⟩
  · rfl
  · omega

theorem initFromReader_serves (hserves : Serves gr.callback I start bytes)
    (hchunk : 0 < gr.maxChunkRead) (hfit : start + bytes.length ≤ sizeMax)
    (hstart : gr.startOffset = start)
    (hpad : ∀ k ≤ bytes.length, ∀ a < 2 ^ 32, start + ggmlPad k a ≤ sizeMax) (init : ℕ → Bool)
    (params : InitParams) {s : ReaderState σ} (h : Stands I start bytes 0 s) :
    (gr.initFromReader init params s).1 =
      (initFromBuffer init params bytes).map (shifted start) := by
  have hmeta := run_serves hserves hchunk hfit Program.readMeta h
  rw [Program.onBytes_readMeta, List.drop_zero] at hmeta
  unfold initFromReader initFromBuffer
  cases hread : readMeta bytes with
  | error e =>
    rw [hread] at hmeta
    cases hrun : gr.run Program.readMeta s with
    | mk result s' =>
      obtain rfl : result = .error e := by rw [← hmeta, hrun]
      rfl
  | ok p =>
    obtain ⟨m, rest⟩ := p
    rw [hread] at hmeta
    obtain ⟨k, s', rfl, hk, heq⟩ := hmeta
    have hle : k ≤ bytes.length := Nat.le.intro hk.nbytesRemain
    have htell : bytes.length - (bytes.drop k).length = k := by
      rw [List.length_drop, Nat.sub_sub_self hle]
    have halign : m.alignment < 2 ^ 32 := (yields_readMeta bytes m _ hread).1.2
    have hrelative : sizeSub s'.dataOffset gr.startOffset = k := by
      rw [hstart, hk.dataOffset, sizeSub_eq (Nat.le_add_right _ _) (by omega),
        Nat.add_sub_cancel_left]
    rw [heq]
    dsimp only
    rw [htell, hrelative, hstart, wrapSize_eq (hpad k hle m.alignment halign)]
    have hsought : if (if m.infos = [] then k else ggmlPad k m.alignment) ≤ bytes.length
        then ∃ s'', Stands I start bytes (if m.infos = [] then k else ggmlPad k m.alignment) s'' ∧
          (if m.infos = [] then some s' else seek (start + ggmlPad k m.alignment) s') = some s''
        else (if m.infos = [] then some s' else seek (start + ggmlPad k m.alignment) s') = none := by
      by_cases hnone : m.infos = []
      · simp only [if_pos hnone, if_pos hle]
        exact ⟨s', hk, rfl⟩
      · simp only [if_neg hnone]
        exact seek_stands hk hfit _
    generalize (if m.infos = [] then k else ggmlPad k m.alignment) = offset at hsought ⊢
    by_cases hoffset : offset ≤ bytes.length
    · rw [if_pos hoffset] at hsought
      obtain ⟨s'', hs'', heq'⟩ := hsought
      rw [heq', if_neg (not_lt.mpr hoffset)]
      dsimp only
      cases dataSize m.alignment 0 (m.infos.map Prod.snd) with
      | none => rfl
      | some size =>
        dsimp only
        rw [hs''.dataOffset]
        exact load_serves hserves hchunk hfit init params
          ⟨m.version, m.kv, m.infos.map Prod.snd, m.alignment, offset, size, none⟩ hs''
    · rw [if_neg hoffset] at hsought
      rw [hsought, if_pos (not_le.mp hoffset)]
      rfl

/-! ## The bytes that are counted -/

/-- A callback writes no more than it was asked for. -/
def Modest (callback : Callback σ) : Prop :=
  ∀ u offset len, (callback u offset len).1.length ≤ len

/-- What has been read and what is left end at `limit` or before. -/
def Within (limit : ℕ) (s : ReaderState σ) : Prop := s.dataOffset + s.nbytesRemain ≤ limit

theorem readLoop_length (hmodest : Modest gr.callback) (dataOffset size fuel : ℕ) (u : σ)
    {acc : List UInt8} (hacc : acc.length ≤ size) :
    (gr.readLoop dataOffset size fuel u acc).1.length ≤ size := by
  induction fuel generalizing u acc with
  | zero => exact hacc
  | succ fuel ih =>
    have hread := hmodest u (dataOffset + acc.length) (min gr.maxChunkRead (size - acc.length))
    have hmore : (acc ++ (gr.callback u (dataOffset + acc.length)
        (min gr.maxChunkRead (size - acc.length))).1).length ≤ size := by
      rw [List.length_append]
      omega
    rw [readLoop]
    dsimp only
    split_ifs
    · exact hacc
    · exact hmore
    · exact ih _ hmore
    · exact hacc

theorem readRaw_within (hmodest : Modest gr.callback) {limit size : ℕ} (hlimit : limit ≤ sizeMax)
    {s : ReaderState σ} (h : Within limit s) (hsize : size ≤ s.nbytesRemain) :
    Within limit (gr.readRaw size s).2 := by
  have hnil : ([] : List UInt8).length ≤ size := Nat.zero_le size
  have hlen := readLoop_length hmodest s.dataOffset size size s.userdata hnil
  unfold readRaw
  unfold Within at h ⊢
  dsimp only
  rw [wrapSize_eq (by omega), if_pos (hlen.trans hsize)]
  dsimp only
  split_ifs <;> omega

/-- Wherever reading stops. -/
theorem run_within (hmodest : Modest gr.callback) {limit : ℕ} (hlimit : limit ≤ sizeMax)
    (p : ReadProgram Failure α) {s : ReaderState σ} (h : Within limit s) :
    Within limit (gr.run p s).2 := by
  induction p generalizing s with
  | done a => exact h
  | fail e => exact h
  | require e n p ih =>
    rw [run]
    split_ifs
    · exact h
    · exact ih h
  | read e n p ih =>
    rw [run]
    split_ifs with hleft
    · exact h
    · have hraw := readRaw_within hmodest hlimit h (not_lt.mp hleft)
      cases hread : gr.readRaw n s with
      | mk result s' =>
        rw [hread] at hraw
        cases result with
        | error e => exact hraw
        | ok bytes =>
          dsimp only
          split_ifs
          · exact ih bytes hraw
          · exact hraw

theorem seek_within {limit absoluteOffset : ℕ} (hlimit : limit ≤ sizeMax) {s s' : ReaderState σ}
    (h : Within limit s) (hseek : seek absoluteOffset s = some s') : Within limit s' := by
  have hend : wrapSize (s.dataOffset + s.nbytesRemain) = s.dataOffset + s.nbytesRemain :=
    wrapSize_eq (le_trans h hlimit)
  unfold seek at hseek
  dsimp only at hseek
  split_ifs at hseek with hgt
  obtain rfl := Option.some.inj hseek
  unfold Within at h ⊢
  dsimp only
  omega

theorem load_within (hmodest : Modest gr.callback) {limit : ℕ} (hlimit : limit ≤ sizeMax)
    (init : ℕ → Bool) (params : InitParams) (ctx : GgufContext) {s : ReaderState σ}
    (h : Within limit s) : Within limit (gr.load init params ctx s).2 := by
  have hread := run_within hmodest hlimit (ReadProgram.readBytes .null ctx.size) h
  unfold GgufReader.load
  dsimp only
  split_ifs
  all_goals try exact h
  cases hrun : gr.run (ReadProgram.readBytes .null ctx.size) s with
  | mk result s' =>
    rw [hrun] at hread
    cases result <;> exact hread

theorem initFromReader_within (hmodest : Modest gr.callback) {limit : ℕ}
    (hlimit : limit ≤ sizeMax) (init : ℕ → Bool) (params : InitParams) {s : ReaderState σ}
    (h : Within limit s) : Within limit (gr.initFromReader init params s).2 := by
  have hmeta := run_within hmodest hlimit Program.readMeta h
  unfold initFromReader
  cases hrun : gr.run Program.readMeta s with
  | mk result s' =>
    rw [hrun] at hmeta
    cases result with
    | error e => exact hmeta
    | ok m =>
      dsimp only
      generalize hsought : (if m.infos = [] then some s' else seek _ s') = sought
      cases sought with
      | none => exact hmeta
      | some s'' =>
        have hwithin : Within limit s'' := by
          split_ifs at hsought
          · exact Option.some.inj hsought ▸ hmeta
          · exact seek_within hlimit hmeta hsought
        dsimp only
        cases dataSize m.alignment 0 (m.infos.map Prod.snd) with
        | none => exact hwithin
        | some size => exact load_within hmodest hlimit init params _ hwithin

end GgufReader

/-! ## The three sources -/

open GgufReader

theorem bufferReaderCallback_serves (data : List UInt8) :
    Serves bufferReaderCallback (· = data) 0 data where
  serve u k len hu hlen hend := by
    subst hu
    unfold bufferReaderCallback
    rw [Nat.zero_add, if_neg (by omega), Nat.min_eq_left (by omega)]
  keep u k len hu hlen hend := by
    subst hu
    unfold bufferReaderCallback
    split_ifs <;> rfl

theorem bufferReaderCallback_modest : Modest bufferReaderCallback := by
  intro u offset len
  unfold bufferReaderCallback
  split_ifs
  · exact Nat.zero_le len
  · exact (List.length_take_le _ _).trans (Nat.min_le_left _ _)

/-- The file stands where the reader takes it to stand. -/
def FileReader.Reads (contents : List UInt8) (reader : FileReader) : Prop :=
  reader.file.contents = contents ∧ reader.file.pos = reader.offset

theorem fileReaderCallback_reads {contents : List UInt8} {reader : FileReader} {offset : ℕ}
    (h : reader.Reads contents) (hoffset : offset ≤ int64Max) (len : ℕ) :
    (fileReaderCallback reader offset len).1 = (contents.drop offset).take len ∧
      (fileReaderCallback reader offset len).2.Reads contents := by
  obtain ⟨rfl, hpos⟩ := h
  unfold fileReaderCallback CFile.fread
  rw [if_neg fun hbad => absurd hbad.2 (not_lt.mpr hoffset)]
  by_cases hseek : reader.offset = offset
  · subst hseek
    rw [if_neg (not_not.mpr rfl), ← hpos]
    exact ⟨rfl, rfl, congrArg (· + _) hpos⟩
  · rw [if_pos hseek]
    exact ⟨rfl, rfl, rfl⟩

theorem fileReaderCallback_serves {contents : List UInt8} (hlength : contents.length ≤ int64Max)
    {start : ℕ} (hstart : start ≤ contents.length) :
    Serves fileReaderCallback (FileReader.Reads contents) start (contents.drop start) where
  serve u k len hu hlen hend := by
    rw [List.length_drop] at hend
    rw [List.drop_drop]
    exact (fileReaderCallback_reads hu (by omega) len).1
  keep u k len hu hlen hend := by
    rw [List.length_drop] at hend
    exact (fileReaderCallback_reads hu (by omega) len).2

theorem fileReaderCallback_modest : Modest fileReaderCallback := by
  intro u offset len
  unfold fileReaderCallback
  split_ifs
  · exact Nat.zero_le len
  all_goals exact List.length_take_le _ _

theorem fileRemain_eq {file : CFile} (h : file.pos ≤ file.contents.length) :
    fileRemain file = (file.contents.drop file.pos).length := by
  have hlength := file.length_le
  unfold fileRemain wrapSize sizeMax
  unfold int64Max at hlength
  rw [List.length_drop]
  omega

theorem initFromCallback_eq {σ : Type} {callback : Callback σ} {I : σ → Prop} {u : σ}
    {bytes : List UInt8} (hserves : Serves callback I 0 bytes) (hu : I u)
    (hlength : bytes.length ≤ sizeMax) (maxChunkRead : ℕ) (init : ℕ → Bool)
    (params : InitParams) :
    (initFromCallback callback u maxChunkRead bytes.length init params).1 =
      initFromBuffer init params bytes := by
  have hchunk : 0 < if maxChunkRead = 0 then sizeMax else maxChunkRead := by
    split_ifs with hzero
    · decide
    · exact Nat.pos_of_ne_zero hzero
  let gr : GgufReader σ := ⟨callback, if maxChunkRead = 0 then sizeMax else maxChunkRead, 0⟩
  have hsame : shifted 0 = id := by
    funext ctx
    simp only [shifted, Nat.zero_add, id]
  have heq : (gr.initFromReader init params ⟨u, 0, bytes.length⟩).1 =
      (initFromBuffer init params bytes).map (shifted 0) :=
    initFromReader_serves hserves hchunk (by rwa [Nat.zero_add]) rfl
      (fun k _ a _ => by rw [Nat.zero_add]; exact Nat.and_le_left.trans (wrapSize_le _))
      init params ⟨hu, rfl, Nat.zero_add _⟩
  rw [hsame, Except.map_id] at heq
  exact heq

theorem initFromBufferReader_eq {bytes : List UInt8} (hlength : bytes.length ≤ sizeMax)
    (init : ℕ → Bool) (params : InitParams) :
    (initFromBufferReader bytes init params).1 = initFromBuffer init params bytes := by
  unfold initFromBufferReader
  by_cases hempty : bytes.length = 0
  · obtain rfl := List.eq_nil_of_length_eq_zero hempty
    rfl
  · dsimp only
    rw [if_neg hempty]
    exact initFromCallback_eq (bufferReaderCallback_serves bytes) rfl hlength 0 init params

theorem initFromFilePtr_eq {file : CFile} (hpos : file.pos ≤ file.contents.length)
    (init : ℕ → Bool) (params : InitParams) :
    (initFromFilePtr file init params).1 =
      (initFromBuffer init params (file.contents.drop file.pos)).map (shifted file.pos) := by
  have hlength := file.length_le
  have hfit : file.pos + (file.contents.drop file.pos).length ≤ sizeMax := by
    rw [List.length_drop, sizeMax]
    unfold int64Max at hlength
    omega
  have hpad (k : ℕ) (hk : k ≤ (file.contents.drop file.pos).length) (a : ℕ) (ha : a < 2 ^ 32) :
      file.pos + ggmlPad k a ≤ sizeMax := by
    have hle := @ggmlPad_le k a
    rw [List.length_drop] at hk
    unfold int64Max at hlength
    unfold sizeMax
    omega
  have hstands : Stands (FileReader.Reads file.contents) file.pos (file.contents.drop file.pos) 0
      ⟨⟨file, file.pos⟩, file.pos, fileRemain file⟩ :=
    ⟨⟨rfl, rfl⟩, rfl, by rw [Nat.zero_add, fileRemain_eq hpos]⟩
  exact initFromReader_serves (fileReaderCallback_serves hlength hpos)
    (show 0 < sizeMax by decide) hfit rfl hpad
    init params hstands

theorem load_append {init : ℕ → Bool} {params : InitParams} {ctx ctx' : GgufContext}
    {rest : List UInt8} (h : Gguf.load init params ctx rest = .ok ctx') (more : List UInt8) :
    Gguf.load init params ctx (rest ++ more) = .ok ctx' := by
  unfold Gguf.load at h ⊢
  dsimp only at h ⊢
  by_cases hleft : ctx.size ≤ rest.length
  · have hmore : ctx.size ≤ (rest ++ more).length := by
      rw [List.length_append]
      exact Nat.le_add_right_of_le hleft
    rw [if_pos hleft] at h
    rwa [if_pos hmore, List.take_append_of_le_length hleft]
  · rw [if_neg hleft] at h
    split_ifs at h ⊢
    all_goals exact h

theorem initFromBuffer_append {init : ℕ → Bool} {params : InitParams} {bytes : List UInt8}
    {ctx : GgufContext} (h : initFromBuffer init params bytes = .ok ctx) (more : List UInt8) :
    initFromBuffer init params (bytes ++ more) = .ok ctx := by
  unfold initFromBuffer at h ⊢
  cases hread : readMeta bytes with
  | error e => exact nomatch hread ▸ h
  | ok p =>
    obtain ⟨m, rest⟩ := p
    have hmore : readMeta (bytes ++ more) = .ok (m, rest ++ more) := by
      rw [← Program.onBytes_readMeta] at hread ⊢
      exact ReadProgram.onBytes_append _ hread more
    have htell : (bytes ++ more).length - (rest ++ more).length = bytes.length - rest.length := by
      rw [List.length_append, List.length_append, Nat.add_sub_add_right]
    rw [hread] at h
    rw [hmore]
    dsimp only at h ⊢
    rw [htell]
    generalize (if m.infos = [] then bytes.length - rest.length
      else ggmlPad (bytes.length - rest.length) m.alignment) = offset at h ⊢
    split_ifs at h with hend
    rw [if_neg (by rw [List.length_append]; omega)]
    cases hsize : dataSize m.alignment 0 (m.infos.map Prod.snd) with
    | none => exact nomatch hsize ▸ h
    | some size =>
      rw [hsize] at h
      dsimp only at h ⊢
      rw [List.drop_append_of_le_length (not_lt.mp hend)]
      exact load_append h more

/-! ## Chunks and places -/

/-- The same bytes from a callback, from a buffer and from the middle of a file. -/
structure Independent {σ : Type} (callback : Callback σ) (u : σ) (maxChunkRead : ℕ)
    (bytes post : List UInt8) (file : CFile) (init : ℕ → Bool) (params : InitParams) : Prop where
  chunks : (initFromCallback callback u maxChunkRead bytes.length init params).1 =
    (initFromBufferReader bytes init params).1
  place : post = [] → (initFromFilePtr file init params).1 =
    (initFromBufferReader bytes init params).1.map (shifted file.pos)
  behind : ∀ ctx, (initFromBufferReader bytes init params).1 = .ok ctx →
    (initFromFilePtr file init params).1 = .ok (shifted file.pos ctx)

/-- The ends of the three ways, and of whatever else is read. -/
structure AllWithin {σ : Type} (callback : Callback σ) (u : σ) (maxChunkRead : ℕ)
    (bytes : List UInt8) (file : CFile) (init : ℕ → Bool) (params : InitParams) : Prop where
  fromCallback : ∀ maxExpectedSize ≤ sizeMax, Within maxExpectedSize
    (initFromCallback callback u maxChunkRead maxExpectedSize init params).2
  fromBuffer : Within bytes.length (initFromBufferReader bytes init params).2
  fromFile : Within file.contents.length (initFromFilePtr file init params).2
  reads : ∀ (gr : GgufReader σ), gr.callback = callback → ∀ limit ≤ sizeMax, ∀ s, Within limit s →
    ∀ (α : Type) (p : ReadProgram Failure α), Within limit (gr.run p s).2
  seeks : ∀ limit ≤ sizeMax, ∀ (s s' : ReaderState σ) absoluteOffset, Within limit s →
    seek absoluteOffset s = some s' → Within limit s'

theorem initFrom_independent {σ : Type} {callback : Callback σ} {I : σ → Prop} {u : σ}
    {pre bytes post : List UInt8} {file : CFile} (hmodest : Modest callback)
    (hserves : Serves callback I 0 bytes) (hu : I u)
    (hfile : file.contents = pre ++ bytes ++ post) (hpos : file.pos = pre.length)
    (maxChunkRead : ℕ) (init : ℕ → Bool) (params : InitParams) :
    Independent callback u maxChunkRead bytes post file init params ∧
      AllWithin callback u maxChunkRead bytes file init params := by
  have hlength : file.contents.length ≤ sizeMax := file.length_le.trans (by decide)
  have hsplit := congrArg List.length hfile
  rw [List.length_append, List.length_append] at hsplit
  have hbytes : bytes.length ≤ sizeMax := by omega
  have hle : file.pos ≤ file.contents.length := by omega
  have hdrop : file.contents.drop file.pos = bytes ++ post := by
    rw [hfile, hpos, List.append_assoc, List.drop_left]
  have hptr := initFromFilePtr_eq hle init params
  rw [hdrop] at hptr
  constructor
  · refine ⟨?_, fun hpost => ?_, fun ctx hctx => ?_⟩
    · rw [initFromCallback_eq hserves hu hbytes, initFromBufferReader_eq hbytes]
    · rw [hptr, hpost, List.append_nil, initFromBufferReader_eq hbytes]
    · rw [initFromBufferReader_eq hbytes] at hctx
      rw [hptr, initFromBuffer_append hctx post]
      rfl
  · refine ⟨fun maxExpectedSize hmax => ?_, ?_, ?_, ?_, ?_⟩
    · exact initFromReader_within hmodest hmax init params (Nat.le_of_eq (Nat.zero_add _))
    · have hstart : Within bytes.length (⟨bytes, 0, bytes.length⟩ : ReaderState (List UInt8)) :=
        Nat.le_of_eq (Nat.zero_add _)
      unfold initFromBufferReader
      dsimp only
      split_ifs
      · exact hstart
      · exact initFromReader_within bufferReaderCallback_modest hbytes init params hstart
    · have hstart : Within file.contents.length
          (⟨⟨file, file.pos⟩, file.pos, fileRemain file⟩ : ReaderState FileReader) := by
        unfold Within
        dsimp only
        rw [fileRemain_eq hle, List.length_drop]
        omega
      exact initFromReader_within fileReaderCallback_modest hlength init params hstart
    · rintro gr rfl limit hlimit s h α p
      exact run_within hmodest hlimit p h
    · intro limit hlimit s s' absoluteOffset h hseek
      exact seek_within hlimit h hseek

/-- A file without key-value pairs and tensors. -/
def emptyFile : List UInt8 :=
  magic ++ ByteReader.leBytes 4 3 ++ ByteReader.leBytes 8 0 ++ ByteReader.leBytes 8 0

theorem initFrom_independent_emptyFile : let file : CFile := ⟨7 :: emptyFile ++ [9], 1, by decide⟩
    Independent bufferReaderCallback emptyFile 5 emptyFile [9] file (fun _ => true) ⟨true, false⟩ ∧
      AllWithin bufferReaderCallback emptyFile 5 emptyFile file (fun _ => true) ⟨true, false⟩ :=
  have hfile : 7 :: emptyFile ++ [9] = [7] ++ emptyFile ++ [9] := rfl
  initFrom_independent bufferReaderCallback_modest (bufferReaderCallback_serves emptyFile) rfl
    hfile rfl 5 (fun _ => true) ⟨true, false⟩

/-- The reader of a file does not know where the bytes in the middle of it end. -/
theorem truncated_read : let bytes := emptyFile.take 23
    let file : CFile := ⟨bytes ++ emptyFile.drop 23, 0, by decide⟩
    (initFromBufferReader bytes (fun _ => true) ⟨false, false⟩).1 = .error .null ∧
      (initFromFilePtr file (fun _ => true) ⟨false, false⟩).1 =
        .ok ⟨3, [], [], 32, 24, 0, none⟩ := by
  refine ⟨?_, ?_⟩
  · rw [initFromBufferReader_eq (by decide)]
    rfl
  · rw [initFromFilePtr_eq (by decide)]
    rfl

end RocmFpx.Gguf
