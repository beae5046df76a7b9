import RocmFpx.ByteReader
import RocmFpx.Fallible
import RocmFpx.ServerTokensPrefix

/-!
The list of tokens as a byte string: a marker, a version, the tokens, the start indices of the
media chunks and the chunks themselves, padded to whole tokens.
-/

namespace RocmFpx
namespace ServerTokens

open ByteReader Fallible

variable {C : Type} (api : Mtmd C)

def stateVersion : ℕ := 1

def stateU32 (value : ℕ) : Except ServerTokensError ℕ :=
  if 2 ^ 32 - 1 < value then .error .stateTooLarge else .ok value

def writeToken (tok : LlamaToken) : List UInt8 := leBytes 4 tok.toUInt32.toNat

def writeVector {α : Type} (write : α → List UInt8) (values : List α) :
    Except ServerTokensError (List UInt8) := do
  let n ← stateU32 values.length
  pure (leBytes 4 n ++ values.flatMap write)

def writeMediaChunk (chunk : C) : Except ServerTokensError (List UInt8) :=
  match api.save chunk with
  | none => .error .cannotSerialize
  | some chunkData =>
    if chunkData = [] then .error .cannotSerialize
    else do
      let _ ← stateU32 chunkData.length
      writeVector (fun b => [b]) chunkData

/-- What the writer gives away: its data, filled up to whole tokens. -/
def takeData (data : List UInt8) : List UInt8 :=
  data ++ List.replicate ((data.length + 3) / 4 * 4 - data.length) 0

def serialize (s : ServerTokens C) : Except ServerTokensError (List UInt8) := do
  let tokens ← writeVector writeToken s.tokens
  let mediaKeys ← s.mapIdxToMedia.mapM fun m => stateU32 m.1
  let keys ← writeVector (leBytes 4) mediaKeys
  let chunks ← s.mapIdxToMedia.mapM fun m => writeMediaChunk api m.2
  pure (takeData (writeToken llamaTokenNull ++
    (leBytes 4 stateVersion ++ (tokens ++ (keys ++ chunks.flatten)))))

/-- The bytes as the tokens that are saved and restored. -/
def asTokens : List UInt8 → List LlamaToken
  | b₀ :: b₁ :: b₂ :: b₃ :: bs =>
    (UInt32.ofNat (ofLeBytes [b₀, b₁, b₂, b₃])).toInt32 :: asTokens bs
  | _ => []

abbrev StateReader := ByteReader ServerTokensError

def readU32 : StateReader ℕ := readNat .unexpectedEnd 4

def readToken : StateReader LlamaToken := do
  let n ← readU32
  pure (UInt32.ofNat n).toInt32

def readByte : StateReader UInt8 := do
  let n ← readNat .unexpectedEnd 1
  pure (UInt8.ofNat n)

def readVector {α : Type} (width : ℕ) (read : StateReader α) : StateReader (List α) := do
  let nValues ← readU32
  let left ← remaining
  check (nValues ≤ left / width) .unexpectedEnd
  readMany read nValues

def readMedia : List ℕ → ServerTokens C → StateReader (ServerTokens C)
  | [], result => pure result
  | key :: mediaKeys, result => do
    let chunkData ← readVector 1 readByte
    check (chunkData ≠ []) .cannotLoad
    match api.load chunkData with
    | none => fail .cannotLoad
    | some chunk =>
      readMedia mediaKeys
        { result with mapIdxToMedia := setChunk key chunk result.mapIdxToMedia }

def readBody (hasMtmd : Bool) : StateReader (ServerTokens C) := do
  let _ ← readToken
  let version ← readU32
  check (version = stateVersion) .unsupportedVersion
  let tokens ← readVector 4 readToken
  let mediaKeys ← readVector 4 readU32
  check (mediaKeys = [] ∨ hasMtmd) .noMmproj
  readMedia api mediaKeys (ofTokens tokens hasMtmd)

def readState (hasMtmd : Bool) : StateReader (ServerTokens C) := do
  let result ← readBody api hasMtmd
  let left ← remaining
  check (left < 4) .trailingData
  pure result

def deserialize (packed : List LlamaToken) (hasMtmd : Bool) :
    Except ServerTokensError (ServerTokens C) :=
  match packed with
  | [] => .ok (ofTokens [] hasMtmd)
  | tok :: _ =>
    if tok = llamaTokenNull then
      (readState api hasMtmd (packed.flatMap writeToken)).map Prod.fst
    else .ok (ofTokens packed hasMtmd)

/-! ## What is written -/

variable {api}

theorem stateU32_ok {n m : ℕ} : stateU32 n = .ok m ↔ n < 2 ^ 32 ∧ n = m := by
  unfold stateU32
  split_ifs with h
  · exact ⟨fun h => (nomatch h), fun h' => by omega⟩
  · rw [Except.ok.injEq]
    exact ⟨fun h' => ⟨by omega, h'⟩, fun h' => h'.2⟩

theorem writeVector_ok {α : Type} {write : α → List UInt8} {values : List α} {bs : List UInt8} :
    writeVector write values = .ok bs ↔
      values.length < 2 ^ 32 ∧ leBytes 4 values.length ++ values.flatMap write = bs := by
  unfold writeVector
  simp only [bind_eq_ok, stateU32_ok, pure_eq_ok]
  constructor
  · rintro ⟨n, ⟨hlt, rfl⟩, h⟩
    exact ⟨hlt, h⟩
  · rintro ⟨hlt, h⟩
    exact ⟨_, ⟨hlt, rfl⟩, h⟩

/-- The chunk can be saved and its data counted in 32 bits. -/
def Saves (api : Mtmd C) (chunk : C) (chunkData : List UInt8) : Prop :=
  api.save chunk = some chunkData ∧ chunkData ≠ [] ∧ chunkData.length < 2 ^ 32

theorem writeMediaChunk_ok {chunk : C} {bs : List UInt8} :
    writeMediaChunk api chunk = .ok bs ↔ ∃ chunkData, Saves api chunk chunkData ∧
      leBytes 4 chunkData.length ++ chunkData = bs := by
  unfold writeMediaChunk Saves
  cases api.save chunk with
  | none => exact ⟨fun h => (nomatch h), fun ⟨_, h, _⟩ => (nomatch h.1)⟩
  | some chunkData =>
    dsimp only
    split_ifs with hnil
    · refine ⟨fun h => (nomatch h), fun ⟨_, h, _⟩ => absurd hnil ?_⟩
      exact Option.some.inj h.1 ▸ h.2.1
    · simp only [bind_eq_ok, stateU32_ok, writeVector_ok, List.flatMap_singleton']
      constructor
      · rintro ⟨_, -, hlt, h⟩
        exact ⟨chunkData, ⟨rfl, hnil, hlt⟩, h⟩
      · rintro ⟨_, ⟨heq, -, hlt⟩, h⟩
        obtain rfl := Option.some.inj heq
        exact ⟨_, ⟨hlt, rfl⟩, hlt, h⟩

theorem takeData_eq (data : List UInt8) : ∃ pad, takeData data = data ++ pad ∧ pad.length < 4 ∧
    (takeData data).length % 4 = 0 := by
  refine ⟨_, rfl, ?_, ?_⟩
  · rw [List.length_replicate]
    omega
  · rw [takeData, List.length_append, List.length_replicate]
    omega

/-! ## What is read back -/

theorem reads_u32 {n : ℕ} (h : n < 2 ^ 32) : Reads readU32 (leBytes 4 n) n := reads_nat h

theorem reads_token (tok : LlamaToken) : Reads readToken (writeToken tok) tok := by
  have hread := (reads_u32 tok.toUInt32.toNat_lt).map fun n => (UInt32.ofNat n).toInt32
  rwa [UInt32.ofNat_toNat] at hread

theorem reads_byte (b : UInt8) : Reads readByte [b] b := by
  have hread := (reads_nat (e := ServerTokensError.unexpectedEnd) (w := 1) b.toNat_lt).map UInt8.ofNat
  rw [UInt8.ofNat_toNat, leBytes, leBytes, UInt8.ofNat_toNat] at hread
  exact hread

theorem flatMap_length {α : Type} {write : α → List UInt8} {width : ℕ} {values : List α}
    (hwidth : ∀ v ∈ values, (write v).length = width) :
    (values.flatMap write).length = values.length * width := by
  rw [List.length_flatMap, List.map_congr_left hwidth, List.map_const', List.sum_replicate_nat]

theorem reads_vector {α : Type} {width : ℕ} {read : StateReader α} {write : α → List UInt8}
    {values : List α} (hpos : 0 < width) (hlen : values.length < 2 ^ 32)
    (hwidth : ∀ v ∈ values, (write v).length = width)
    (hread : ∀ v ∈ values, Reads read (write v) v) :
    Reads (readVector width read) (leBytes 4 values.length ++ values.flatMap write) values := by
  refine (reads_u32 hlen).bind (reads_enough (fun n hn => ?_) (Reads.readMany hread))
  rw [flatMap_length hwidth] at hn
  exact (Nat.le_div_iff_mul_le hpos).mpr hn

/-- What `setChunk` makes of a map whose keys come in order. -/
def loaded (m : List (ℕ × C)) (s : ServerTokens C) : ServerTokens C :=
  { s with mapIdxToMedia := s.mapIdxToMedia ++ m }

theorem reads_media {m m' : List (ℕ × C)} {chunks : List (List UInt8)} {s : ServerTokens C}
    (hkeys : (m.map Prod.fst).Pairwise (· < ·))
    (hafter : ∀ p ∈ s.mapIdxToMedia, ∀ q ∈ m, p.1 < q.1)
    (hwrite : List.Forall₂ (fun p bs => ∃ chunkData, Saves api p.2 chunkData ∧
      leBytes 4 chunkData.length ++ chunkData = bs) m chunks)
    (hload : List.Forall₂ (fun p p' => p.1 = p'.1 ∧
      ∀ chunkData, Saves api p.2 chunkData → api.load chunkData = some p'.2) m m') :
    Reads (readMedia api (m.map Prod.fst) s) chunks.flatten (loaded m' s) := by
  induction hwrite generalizing m' s with
  | nil =>
    obtain rfl := List.forall₂_nil_left_iff.mp hload
    have hsame : loaded [] s = s := by rw [loaded, List.append_nil]
    rw [hsame]
    exact reads_pure s
  | @cons p bs m chunks hp _ ih =>
    obtain ⟨chunkData, hsaves, rfl⟩ := hp
    obtain _ | ⟨⟨hkey, hp'⟩, hload⟩ := hload
    rename_i p' m'
    obtain ⟨hfirst, hkeys⟩ := List.pairwise_cons.mp hkeys
    have hvector := reads_vector Nat.one_pos hsaves.2.2
      (fun _ _ => rfl) (fun b _ => reads_byte b)
    rw [List.flatMap_singleton'] at hvector
    have hset : setChunk p.1 p'.2 s.mapIdxToMedia = s.mapIdxToMedia ++ [p'] := by
      rw [setChunk_of_lt fun q hq => hafter q hq p List.mem_cons_self, hkey]
    have hrest := ih (s := { s with mapIdxToMedia := s.mapIdxToMedia ++ [p'] }) hkeys
      (fun q hq q' hq' => by
        rcases List.mem_append.mp hq with hq | hq
        · exact hafter q hq q' (List.mem_cons_of_mem _ hq')
        · rw [List.mem_singleton.mp hq, ← hkey]
          exact hfirst q'.1 (List.mem_map_of_mem hq')) hload
    have hsame : loaded m' { s with mapIdxToMedia := s.mapIdxToMedia ++ [p'] } =
        loaded (p' :: m') s := by
      rw [loaded, loaded, List.append_assoc, List.singleton_append]
    rw [List.map_cons, readMedia, List.flatten_cons, ← hsame]
    refine hvector.bind ((reads_check hsaves.2.1).bind ?_)
    rw [hp' chunkData hsaves]
    dsimp only
    rw [hset]
    exact hrest

/-! ## The round trip -/

section
variable {a b s : ServerTokens C} {items : List (Item C)}

/-- The lists agree, their chunks in what a list of tokens asks of them. -/
structure Same (api : Mtmd C) (a b : ServerTokens C) : Prop where
  hasMtmd : a.hasMtmd = b.hasMtmd
  tokens : a.tokens = b.tokens
  media : List.Forall₂ (fun m m' => m.1 = m'.1 ∧ api.Same m.2 m'.2) a.mapIdxToMedia b.mapIdxToMedia

theorem Tiles.pairwise_keys (h : Tiles api s items) :
    (s.mapIdxToMedia.map Prod.fst).Pairwise (· < ·) := by
  rw [h.media_eq]
  have hvalid := h.valid
  generalize 0 = i
  clear h
  induction items generalizing i with
  | nil => exact .nil
  | cons item items ih =>
    obtain ⟨hitem, hitems⟩ := List.forall_mem_cons.mp hvalid
    cases item with
    | text tok => exact ih hitems (i + 1)
    | media chunk =>
      refine .cons (fun k hk => ?_) (ih hitems _)
      obtain ⟨m, hm, rfl⟩ := List.mem_map.mp hk
      have hle := le_of_mem_keysFrom hm
      have hpos := hitem.2
      omega

theorem counted_keys {m : List (ℕ × C)} {mediaKeys : List ℕ}
    (h : List.Forall₂ (fun p key => p.1 < 2 ^ 32 ∧ p.1 = key) m mediaKeys) :
    mediaKeys = m.map Prod.fst ∧ ∀ p ∈ m, p.1 < 2 ^ 32 := by
  induction h with
  | nil => exact ⟨rfl, fun p hp => absurd hp List.not_mem_nil⟩
  | cons hp _ ih =>
    obtain ⟨hlt, rfl⟩ := hp
    exact ⟨congrArg _ ih.1, List.forall_mem_cons.mpr ⟨hlt, ih.2⟩⟩

theorem serialize_ok {bs : List UInt8} (h : serialize api s = .ok bs) :
    s.tokens.length < 2 ^ 32 ∧ s.mapIdxToMedia.length < 2 ^ 32 ∧
    (∀ m ∈ s.mapIdxToMedia, m.1 < 2 ^ 32) ∧ ∃ chunks,
    List.Forall₂ (fun m bs => ∃ chunkData, Saves api m.2 chunkData ∧
      leBytes 4 chunkData.length ++ chunkData = bs) s.mapIdxToMedia chunks ∧
    bs = takeData (writeToken llamaTokenNull ++ (leBytes 4 stateVersion ++
      ((leBytes 4 s.tokens.length ++ s.tokens.flatMap writeToken) ++
        ((leBytes 4 (s.mapIdxToMedia.map Prod.fst).length ++
          (s.mapIdxToMedia.map Prod.fst).flatMap (leBytes 4)) ++ chunks.flatten)))) := by
  unfold serialize at h
  simp only [bind_eq_ok, writeVector_ok, mapM_eq_ok, stateU32_ok, writeMediaChunk_ok,
    pure_eq_ok] at h
  obtain ⟨_, ⟨htokens, rfl⟩, mediaKeys, hkeys, _, ⟨hcount, rfl⟩, chunks, hchunks, rfl⟩ := h
  obtain ⟨rfl, hlt⟩ := counted_keys hkeys
  rw [List.length_map] at hcount
  exact ⟨htokens, hcount, hlt, chunks, hchunks, by rw [List.length_map]⟩

theorem asTokens_flatMap (bs : List UInt8) (h : bs.length % 4 = 0) :
    (asTokens bs).flatMap writeToken = bs := by
  induction bs using asTokens.induct with
  | case1 b₀ b₁ b₂ b₃ bs ih =>
    have hlt : ofLeBytes [b₀, b₁, b₂, b₃] < 2 ^ 32 := by
      simpa using ofLeBytes_lt [b₀, b₁, b₂, b₃]
    have hback : leBytes 4 (ofLeBytes [b₀, b₁, b₂, b₃]) = [b₀, b₁, b₂, b₃] := by
      have h₀ := b₀.toNat_lt
      have h₁ := b₁.toNat_lt
      have h₂ := b₂.toNat_lt
      have h₃ := b₃.toNat_lt
      simp only [leBytes, ofLeBytes, List.cons.injEq, and_true, ← UInt8.toNat_inj,
        UInt8.toNat_ofNat']
      omega
    simp only [List.length_cons] at h
    rw [asTokens, List.flatMap_cons, ih (by omega)]
    change leBytes 4 (UInt32.ofNat (ofLeBytes [b₀, b₁, b₂, b₃])).toNat ++ bs = _
    rw [UInt32.toNat_ofNat', Nat.mod_eq_of_lt hlt, hback]
    rfl
  | case2 bs hshort =>
    rcases bs with _ | ⟨b₀, _ | ⟨b₁, _ | ⟨b₂, _ | ⟨b₃, bs⟩⟩⟩⟩
    · rfl
    · cases h
    · cases h
    · cases h
    · exact absurd rfl (hshort b₀ b₁ b₂ b₃ bs)

theorem asTokens_marker (bs : List UInt8) :
    asTokens (writeToken llamaTokenNull ++ bs) = llamaTokenNull :: asTokens bs := rfl

theorem deserialize_marked {rest : List UInt8} {hasMtmd : Bool}
    (h : (writeToken llamaTokenNull ++ rest).length % 4 = 0) :
    deserialize api (asTokens (writeToken llamaTokenNull ++ rest)) hasMtmd =
      (readState api hasMtmd (writeToken llamaTokenNull ++ rest)).map Prod.fst := by
  have hbytes := asTokens_flatMap _ h
  rw [asTokens_marker] at hbytes ⊢
  rw [deserialize, if_pos rfl, hbytes]

theorem readState_ok {data pad : List UInt8} {hasMtmd : Bool}
    (hbody : Reads (readBody api hasMtmd) data s) (hpad : pad.length < 4) :
    readState api hasMtmd (data ++ pad) = .ok (s, pad) :=
  bind_ok.2 ⟨s, pad, hbody pad, bind_ok.2 ⟨_, pad, rfl,
    bind_ok.2 ⟨(), pad, check_ok.2 ⟨hpad, rfl⟩, rfl⟩⟩⟩

theorem exists_loaded (hapi : api.Faithful) {m : List (ℕ × C)} {chunks : List (List UInt8)}
    (h : List.Forall₂ (fun p bs => ∃ chunkData, Saves api p.2 chunkData ∧
      leBytes 4 chunkData.length ++ chunkData = bs) m chunks) :
    ∃ m' : List (ℕ × C), List.Forall₂ (fun p p' => p.1 = p'.1 ∧
        ∀ chunkData, Saves api p.2 chunkData → api.load chunkData = some p'.2) m m' ∧
      List.Forall₂ (fun p' p => p'.1 = p.1 ∧ api.Same p'.2 p.2) m' m := by
  induction h with
  | nil => exact ⟨[], .nil, .nil⟩
  | @cons p bs m chunks hp _ ih =>
    obtain ⟨m', hload, hsame⟩ := ih
    obtain ⟨chunkData, hsaves, -⟩ := hp
    obtain ⟨c, hc, hpc⟩ := hapi.load_save p.2 chunkData hsaves.1
    refine ⟨(p.1, c) :: m', .cons ⟨rfl, fun data hdata => ?_⟩ hload, .cons ⟨rfl, hpc⟩ hsame⟩
    rwa [Option.some.inj (hdata.1.symm.trans hsaves.1)]

theorem deserialize_serialize (hapi : api.Faithful) (hs : WellFormed api s) {bs : List UInt8}
    (h : serialize api s = .ok bs) :
    ∃ s', deserialize api (asTokens bs) s.hasMtmd = .ok s' ∧ Same api s' s := by
  obtain ⟨items, hs⟩ := hs
  obtain ⟨htokens, hcount, hkeys, chunks, hchunks, rfl⟩ := serialize_ok h
  obtain ⟨m', hload, hsame⟩ := exists_loaded hapi hchunks
  have hbody : Reads (readBody api s.hasMtmd) (writeToken llamaTokenNull ++
      (leBytes 4 stateVersion ++ ((leBytes 4 s.tokens.length ++ s.tokens.flatMap writeToken) ++
        ((leBytes 4 (s.mapIdxToMedia.map Prod.fst).length ++
          (s.mapIdxToMedia.map Prod.fst).flatMap (leBytes 4)) ++ chunks.flatten))))
      (loaded m' (ofTokens s.tokens s.hasMtmd)) := by
    refine (reads_token _).bind ((reads_u32 (by decide)).bind ((reads_check rfl).bind
      ((reads_vector (by decide) htokens (fun _ _ => leBytes_length 4 _)
        fun tok _ => reads_token tok).bind
      ((reads_vector (by decide) (by rwa [List.length_map]) (fun _ _ => leBytes_length 4 _)
        fun k hk => ?_).bind ((reads_check ?_).bind ?_)))))
    · obtain ⟨m, hm, rfl⟩ := List.mem_map.mp hk
      exact reads_u32 (hkeys m hm)
    · exact hs.admitted.imp_left fun hnil => by rw [hnil, List.map_nil]
    · exact reads_media hs.pairwise_keys (fun p hp => absurd hp List.not_mem_nil) hchunks hload
  refine ⟨loaded m' (ofTokens s.tokens s.hasMtmd), ?_, rfl, rfl, ?_⟩
  · obtain ⟨pad, htake, hpad, hmod⟩ := takeData_eq (writeToken llamaTokenNull ++ _)
    rw [htake, List.append_assoc] at hmod ⊢
    rw [deserialize_marked hmod, ← List.append_assoc, readState_ok hbody hpad]
    rfl
  · exact hsame
theorem keysFrom_length_le (hvalid : ∀ item ∈ items, item.Valid api) (i : ℕ) :
    (keysFrom api i items).length ≤ (flat api items).length := by
  induction items generalizing i with
  | nil => exact le_rfl
  | cons item items ih =>
    obtain ⟨hitem, hitems⟩ := List.forall_mem_cons.mp hvalid
    cases item with
    | text tok => exact (ih hitems (i + 1)).trans (Nat.le_succ _)
    | media chunk =>
      have hrest := ih hitems (i + api.getNTokens chunk)
      have hpos := hitem.2
      rw [keysFrom, flat_media, List.length_cons, List.length_append, List.length_replicate]
      omega

theorem chunks_saved {m : List (ℕ × C)} (h : ∀ p ∈ m, ∃ chunkData, Saves api p.2 chunkData) :
    ∃ chunks, List.Forall₂ (fun p bs => ∃ chunkData, Saves api p.2 chunkData ∧
      leBytes 4 chunkData.length ++ chunkData = bs) m chunks := by
  induction m with
  | nil => exact ⟨[], .nil⟩
  | cons p m ih =>
    obtain ⟨⟨chunkData, hp⟩, hm⟩ := List.forall_mem_cons.mp h
    obtain ⟨chunks, hchunks⟩ := ih hm
    exact ⟨_ :: chunks, .cons ⟨chunkData, hp, rfl⟩ hchunks⟩

theorem saved_chunks {m : List (ℕ × C)} {chunks : List (List UInt8)}
    (h : List.Forall₂ (fun p bs => ∃ chunkData, Saves api p.2 chunkData ∧
      leBytes 4 chunkData.length ++ chunkData = bs) m chunks) :
    ∀ p ∈ m, ∃ chunkData, Saves api p.2 chunkData := by
  induction h with
  | nil => exact fun p hp => absurd hp List.not_mem_nil
  | cons hp _ ih =>
    obtain ⟨chunkData, hsaves, -⟩ := hp
    exact List.forall_mem_cons.mpr ⟨⟨chunkData, hsaves⟩, ih⟩

theorem keys_counted {m : List (ℕ × C)} (h : ∀ p ∈ m, p.1 < 2 ^ 32) :
    List.Forall₂ (fun p key => p.1 < 2 ^ 32 ∧ p.1 = key) m (m.map Prod.fst) := by
  induction m with
  | nil => exact .nil
  | cons p m ih =>
    obtain ⟨hp, hm⟩ := List.forall_mem_cons.mp h
    exact .cons ⟨hp, rfl⟩ (ih hm)

theorem serialize_iff (hs : WellFormed api s) :
    (∃ bs, serialize api s = .ok bs) ↔ s.tokens.length < 2 ^ 32 ∧
      ∀ m ∈ s.mapIdxToMedia, ∃ chunkData, Saves api m.2 chunkData := by
  obtain ⟨items, hs⟩ := hs
  constructor
  · rintro ⟨bs, h⟩
    obtain ⟨htokens, -, -, chunks, hchunks, -⟩ := serialize_ok h
    exact ⟨htokens, saved_chunks hchunks⟩
  · rintro ⟨htokens, hsaves⟩
    obtain ⟨chunks, hchunks⟩ := chunks_saved hsaves
    have hcount : (s.mapIdxToMedia.map Prod.fst).length < 2 ^ 32 := by
      rw [List.length_map, hs.media_eq]
      refine (keysFrom_length_le hs.valid 0).trans_lt ?_
      rwa [← hs.tokens_eq]
    unfold serialize
    simp only [bind_eq_ok, writeVector_ok, mapM_eq_ok, stateU32_ok, writeMediaChunk_ok, pure_eq_ok]
    exact ⟨_, _, ⟨htokens, rfl⟩, _, keys_counted fun m hm => (hs.key_lt hm).trans htokens, _,
      ⟨hcount, rfl⟩, chunks, hchunks, rfl⟩

/-! ## The list as a whole -/

theorem serverTokens_laws (hapi : api.Faithful) :
    (∀ chunks hasMtmd s, (∀ chunk ∈ chunks, Sized api chunk) →
      ofChunks api chunks hasMtmd = .ok s → WellFormed api s) ∧
    (∀ s, WellFormed api s →
      (∀ tok, WellFormed api (after (pushBack tok) s)) ∧
      (∀ chunk, Sized api chunk → WellFormed api (after (pushBackChunk api chunk) s) ∧
        WellFormed api (after (pushBackPlaceholder api chunk) s)) ∧
      WellFormed api (s.clone api) ∧
      (∀ n ≤ s.tokens.length,
        Inside api s n ∧ keepFirst n s = .error .chunkNotFound s ∨
        ¬ Inside api s n ∧ keepFirst n s = .ok () (s.cut n) ∧ WellFormed api (s.cut n)) ∧
      ((∃ bs, serialize api s = .ok bs) ↔ s.tokens.length < 2 ^ 32 ∧
        ∀ m ∈ s.mapIdxToMedia, ∃ chunkData, Saves api m.2 chunkData) ∧
      ∀ bs, serialize api s = .ok bs →
        ∃ s', deserialize api (asTokens bs) s.hasMtmd = .ok s' ∧ Same api s' s) ∧
    ∀ a b xs ys, Tiles api a xs → Tiles api b ys →
      ∃ n, getCommonPrefix api a b = .ok n ∧ getCommonPrefix api b a = .ok n ∧
        IsGreatest {m | Common api xs ys m} n ∧
        keepFirst n a = .ok () (a.cut n) ∧ keepFirst n b = .ok () (b.cut n) := by
  refine ⟨fun chunks hasMtmd s hsized h => ofChunks_wellFormed hapi hsized h, fun s hs => ?_,
    fun a b xs ys ha hb => ?_⟩
  · refine ⟨fun tok => keeps_pushBack tok s hs, fun chunk hsized =>
      ⟨keeps_pushBackChunk hapi hsized s hs, keeps_pushBackPlaceholder hapi hsized s hs⟩,
      ?_, fun n hn => keepFirst_cases hs hn, serialize_iff hs,
      fun bs h => deserialize_serialize hapi hs h⟩
    obtain ⟨items, hs⟩ := hs
    exact ⟨_, hs.clone hapi⟩
  · obtain ⟨n, hn, hgreatest⟩ := getCommonPrefix_isGreatest ha hb
    have hcomm := getCommonPrefix_comm ⟨xs, ha⟩ ⟨ys, hb⟩
    exact ⟨n, hn, hcomm.symm.trans hn, hgreatest, keepFirst_common ha hgreatest.1,
      keepFirst_common hb hgreatest.1.symm⟩

end

/-! ## Chunks that are their own data -/

structure PlainChunk where
  type : ChunkType
  nTokens : UInt8
  nPos : UInt8
  id : List UInt8
  deriving DecidableEq

def ChunkType.tag : ChunkType → UInt8
  | .text => 0
  | .image => 1
  | .audio => 2

def ChunkType.ofTag (tag : UInt8) : ChunkType :=
  if tag = 0 then .text else if tag = 1 then .image else .audio

/-- Chunks that hold nothing but what a list of tokens asks of them. -/
def plainMtmd : Mtmd PlainChunk where
  getType := PlainChunk.type
  getNTokens chunk := chunk.nTokens.toNat
  getNPos chunk := chunk.nPos.toNat
  getId := PlainChunk.id
  getTokensText chunk := if chunk.type = .text then List.replicate chunk.nTokens.toNat 0 else []
  copy := id
  save chunk := some (ChunkType.tag chunk.type :: chunk.nTokens :: chunk.nPos :: chunk.id)
  load
    | tag :: nTokens :: nPos :: bs => some ⟨ChunkType.ofTag tag, nTokens, nPos, bs⟩
    | _ => none

theorem plainMtmd_faithful : plainMtmd.Faithful where
  copy chunk := ⟨rfl, rfl, rfl, rfl⟩
  load_save chunk bs h := by
    obtain rfl := Option.some.inj h
    refine ⟨_, rfl, ?_, rfl, rfl, rfl⟩
    change ChunkType.ofTag (ChunkType.tag chunk.type) = chunk.type
    cases chunk.type <;> rfl

def image (n : UInt8) : PlainChunk := ⟨.image, n, 1, [n]⟩

instance (chunk : PlainChunk) : Decidable (Sized plainMtmd chunk) :=
  inferInstanceAs (Decidable (_ ≠ _ → 0 < _))

theorem serverTokens_laws_two_images :
    ∃ s, ofChunks plainMtmd [⟨.text, 1, 1, []⟩, image 2, image 1] true = .ok s ∧
      keepFirst 2 s = .error .chunkNotFound s ∧ ∃ n, getCommonPrefix plainMtmd s s = .ok n := by
  obtain ⟨hbuild, hkeep, hpre⟩ := serverTokens_laws plainMtmd_faithful
  have hs := hbuild [⟨.text, 1, 1, []⟩, image 2, image 1] true _ (by decide) rfl
  refine ⟨_, rfl, ?_, ?_⟩
  · obtain ⟨-, h⟩ | ⟨h, -⟩ := (hkeep _ hs).2.2.2.1 2 (by decide)
    · exact h
    · exact absurd ⟨(1, image 2), by decide, by decide, by decide⟩ h
  · obtain ⟨items, hs⟩ := hs
    obtain ⟨n, hn, -⟩ := hpre _ _ items items hs hs
    exact ⟨n, hn⟩

/-- A chunk of no tokens is entered in the map without a null token, and media in a list that is
not made for it is left in the map by a cut. -/
theorem emptyImage_pushed :
    plainMtmd.Faithful ∧ WellFormed plainMtmd { hasMtmd := true } ∧
    ¬ WellFormed plainMtmd (after (pushBackChunk plainMtmd (image 0)) { hasMtmd := true }) ∧
    let s : ServerTokens PlainChunk := ⟨false, [(0, image 1)], [llamaTokenNull]⟩
    s.tokens = flat plainMtmd [.media (image 1)] ∧
    s.mapIdxToMedia = keysFrom plainMtmd 0 [.media (image 1)] ∧
    ¬ WellFormed plainMtmd (after (keepFirst 0) s) := by
  have hempty (hasMtmd : Bool) (m : ℕ × PlainChunk) :
      ¬ WellFormed plainMtmd ⟨hasMtmd, [m], []⟩ := by
    rintro ⟨items, h⟩
    have hlt := h.key_lt List.mem_cons_self
    exact absurd hlt (Nat.not_lt_zero _)
  exact ⟨plainMtmd_faithful, wellFormed_empty true, hempty true _, rfl, rfl, hempty false _⟩

end ServerTokens
end RocmFpx
