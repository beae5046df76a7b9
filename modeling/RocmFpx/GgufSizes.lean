import RocmFpx.Gguf

/-!
What an accepted GGUF file promises. Sizes, offsets and the total are exact and the names distinct
unless a row of blocks has too many bytes before it is divided into blocks, or two names differ
only from a NUL on.
-/

namespace RocmFpx.Gguf

open ByteReader

/-- The place of tensor `i` with exact arithmetic. -/
def exactOffset (alignment : ℕ) (infos : List GgufTensorInfo) (i : ℕ) : ℕ :=
  ((infos.take i).map fun ti => padded ti.t.exactSize alignment).sum

structure Exact (ctx : GgufContext) : Prop where
  sizes : ∀ ti ∈ ctx.info, ti.t.exactSize ≤ sizeMax ∧ ti.t.nbytes = ti.t.exactSize
  offsets : ∀ i ti, ctx.info[i]? = some ti → ti.offset = exactOffset ctx.alignment ctx.info i
  size : ctx.size = exactOffset ctx.alignment ctx.info ctx.info.length
  keys : (ctx.kv.map fun kv => cStr kv.key).Nodup
  names : (ctx.info.map fun ti => ti.t.name).Nodup

/-- A null pointer or a context without a wrapped size. -/
def Sound : Except Failure GgufContext → Prop
  | .ok ctx => Exact ctx
  | .error .null => True
  | .error .abort => False

/-- The bytes of a row fit `size_t` before they are divided by the block size. -/
def RowFits (t : GgmlTensor) : Prop :=
  ggmlBlckSize t.type ≠ 1 → (∀ i, t.ne i ≠ 0) → t.ne 0 * ggmlTypeSize t.type ≤ sizeMax

/-- No two strings differ only from a NUL on. -/
def NulSafe (strings : List (List UInt8)) : Prop :=
  ∀ s ∈ strings, ∀ s' ∈ strings, cStr s = cStr s' → s = s'

structure Plain (m : Meta) : Prop where
  rows : ∀ entry ∈ m.infos, RowFits entry.2.t
  keys : NulSafe (m.kv.map GgufKv.key)
  names : NulSafe (m.infos.map Prod.fst)

theorem elementsFit_le {current : ℕ} {rest : List ℕ} (h : elementsFit current rest = true)
    (hcurrent : current ≤ int64Max) : current * rest.prod ≤ int64Max := by
  induction rest generalizing current with
  | nil => simpa using hcurrent
  | cons ne rest ih =>
    simp only [elementsFit, Bool.and_eq_true, Bool.not_eq_true', Bool.and_eq_false_imp,
      decide_eq_true_eq, decide_eq_false_iff_not, not_lt] at h
    rw [List.prod_cons, ← Nat.mul_assoc]
    refine ih h.2 ?_
    by_cases hone : 1 < ne
    · exact (Nat.le_div_iff_mul_le (Nat.zero_lt_of_lt hone)).mp (h.1 hone)
    · exact le_trans (Nat.mul_le_mul_left current (not_lt.mp hone)) (by rwa [Nat.mul_one])

/-- What the reader guarantees of a tensor. -/
structure Read (t : GgmlTensor) : Prop where
  blck : ggmlBlckSize t.type ≠ 0
  dvd : ggmlBlckSize t.type ∣ t.ne 0
  nb : t.nb = contiguousNb t.type t.ne
  elements : t.nelements ≤ int64Max
  fits : t.nelements / ggmlBlckSize t.type ≤ sizeMax / ggmlTypeSize t.type

theorem Read.strided {t : GgmlTensor} (h : Read t) : t.Strided :=
  ⟨Or.inl (by rw [h.nb]; rfl), fun i _ => Or.inr (by rw [h.nb])⟩

theorem Read.exactSize_le {t : GgmlTensor} (h : Read t) : t.exactSize ≤ sizeMax := by
  obtain ⟨q, hq⟩ := h.dvd
  have hpos := Nat.pos_of_ne_zero h.blck
  have hfits := h.fits
  rw [GgmlTensor.nelements, hq, Nat.mul_assoc, Nat.mul_assoc, Nat.mul_assoc,
    Nat.mul_div_cancel_left _ hpos] at hfits
  have hsize : t.exactSize = q * (t.ne 1 * (t.ne 2 * t.ne 3)) * ggmlTypeSize t.type := by
    rw [GgmlTensor.exactSize, hq, Nat.mul_div_cancel_left q hpos]
    ring
  rw [hsize]
  exact le_trans (Nat.mul_le_mul_right _ hfits) (Nat.div_mul_le_self _ _)

theorem Read.nbytes_eq_iff {t : GgmlTensor} (h : Read t) : t.nbytes = t.exactSize ↔ RowFits t :=
  GgmlTensor.nbytes_eq_iff h.strided h.dvd h.blck h.exactSize_le

theorem yields_readShape : Yields readShape
    fun ne => ne 0 * ne 1 * ne 2 * ne 3 ≤ int64Max := by
  have hdim : Yields readDim (· ≤ int64Max) :=
    (yields_any _).bind fun ne _ => (yields_check _ _).bind fun _ h => yields_pure h
  refine (yields_any _).bind fun nDims _ => (yields_check _ _).bind fun _ _ =>
    (hdim.readMany nDims).bind fun dims hdims => (yields_check _ _).bind fun _ hfit =>
    yields_pure ?_
  have hfirst : shapeOf dims 0 ≤ int64Max := by
    cases dims with
    | nil => decide
    | cons ne rest => exact hdims.2 ne List.mem_cons_self
  have hle := elementsFit_le hfit hfirst
  simpa [Nat.mul_assoc] using hle

theorem yields_readTensorInfo (seen : List (List UInt8)) : Yields (readTensorInfo seen)
    fun entry => (Read entry.2.t ∧ entry.2.t.name = cStr entry.1) ∧ entry.1 ∉ seen := by
  refine (yields_any _).bind fun name _ => (yields_check _ _).bind fun _ _ =>
    (yields_check _ _).bind fun _ hnew => yields_readShape.bind fun ne hne => ?_
  refine Yields.bind (P := fun type => ggmlBlckSize type ≠ 0 ∧ ne 0 % ggmlBlckSize type = 0 ∧
    ne 0 * ne 1 * ne 2 * ne 3 / ggmlBlckSize type ≤ sizeMax / ggmlTypeSize type) ?_ ?_
  · exact (yields_any _).bind fun type _ => (yields_check _ _).bind fun _ _ =>
      (yields_check _ _).bind fun _ _ => (yields_check _ _).bind fun _ hblck =>
      (yields_check _ _).bind fun _ hfits => yields_pure ⟨hblck.1, hblck.2, hfits⟩
  · rintro type ⟨hblck, hmod, hfits⟩
    refine (yields_any _).bind fun offset _ => yields_pure ⟨⟨?_, rfl⟩, hnew⟩
    exact ⟨hblck, Nat.dvd_of_mod_eq_zero hmod, rfl, hne, hfits⟩

theorem yields_readKv (seen : List (List UInt8)) :
    Yields (readKv seen) fun kv => True ∧ kv.key ∉ seen := by
  have hemplace (key : List UInt8) (isArray : Bool) (type : GgufType) (n : ℕ)
      (hnew : key ∉ seen) : Yields (readEmplace key isArray type n)
        fun kv => True ∧ kv.key ∉ seen := by
    unfold readEmplace
    split_ifs
    all_goals exact (yields_any _).bind fun _ _ => yields_pure ⟨trivial, hnew⟩
  refine (yields_any _).bind fun key _ => (yields_check _ _).bind fun _ _ =>
    (yields_check _ _).bind fun _ hnew => (yields_any _).bind fun type _ => ?_
  split_ifs
  · exact (yields_any _).bind fun elemType _ => (yields_any _).bind fun n _ =>
      (yields_check _ _).bind fun _ _ => hemplace key true elemType n hnew
  · exact hemplace key false type 1 hnew

/-! ## Alignment -/

theorem readAlignment_ok {kv : List GgufKv} {alignment : ℕ}
    (h : readAlignment kv = .ok alignment) :
    isPowerOfTwo alignment = true ∧ alignment < 2 ^ 32 := by
  unfold readAlignment at h
  split_ifs at h with hnone
  · obtain rfl := Except.ok.inj h
    exact ⟨rfl, by decide⟩
  all_goals
    split at h
    · nomatch h
    · rename_i entry hentry
      split_ifs at h with htype hpow
      obtain rfl := Except.ok.inj h
      refine ⟨hpow, lt_of_lt_of_le (ofLeBytes_lt _) ?_⟩
      exact Nat.pow_le_pow_right (by decide) (List.length_take_le 4 entry.data)

theorem exactOffset_cons (alignment : ℕ) (ti : GgufTensorInfo) (infos : List GgufTensorInfo)
    (i : ℕ) : exactOffset alignment (ti :: infos) (i + 1) =
      padded ti.t.exactSize alignment + exactOffset alignment infos i := by
  simp [exactOffset]

theorem dataSize_spec {alignment : ℕ} (hpow : isPowerOfTwo alignment = true)
    (hlt : alignment < 2 ^ 32) {infos : List GgufTensorInfo}
    (hexact : ∀ ti ∈ infos, ti.t.nbytes = ti.t.exactSize) {size total : ℕ} (hsize : size ≤ sizeMax)
    (h : dataSize alignment size infos = some total) :
    (∀ i ti, infos[i]? = some ti → ti.offset = size + exactOffset alignment infos i) ∧
      total = size + exactOffset alignment infos infos.length := by
  induction infos generalizing size with
  | nil => exact ⟨fun i ti hi => by simp at hi, by simpa [dataSize, exactOffset, eq_comm] using h⟩
  | cons ti rest ih =>
    obtain ⟨hti, hrest⟩ := List.forall_mem_cons.mp hexact
    unfold dataSize at h
    split_ifs at h with hoffset hpad hadd
    have hpadded : ggmlPad ti.t.nbytes alignment = padded ti.t.exactSize alignment := by
      rw [hti] at hpad ⊢
      refine ggmlPad_eq hpow ?_
      unfold sizeMax at *
      omega
    have hsum : size + padded ti.t.exactSize alignment ≤ sizeMax := by
      rw [hpadded] at hadd
      omega
    rw [hpadded, wrapSize_eq hsum] at h
    obtain ⟨hoffsets, htotal⟩ := ih hrest hsum h
    refine ⟨fun i ti' hi => ?_, ?_⟩
    · cases i with
      | zero =>
        obtain rfl := Option.some.inj hi
        exact not_not.mp hoffset
      | succ i =>
        rw [exactOffset_cons, ← Nat.add_assoc]
        exact hoffsets i ti' hi
    · rw [List.length_cons, exactOffset_cons, ← Nat.add_assoc]
      exact htotal

/-! ## The whole file -/

theorem yields_readMeta : Yields readMeta fun m =>
    (isPowerOfTwo m.alignment = true ∧ m.alignment < 2 ^ 32) ∧
    (∀ entry ∈ m.infos, Read entry.2.t ∧ entry.2.t.name = cStr entry.1) ∧
    (m.kv.map GgufKv.key).Nodup ∧ (m.infos.map Prod.fst).Nodup := by
  refine (yields_any _).bind fun ⟨v, nTensors, nKv⟩ _ =>
    (Yields.readSeen yields_readKv nKv []).bind fun kv hkv => ?_
  cases halign : readAlignment kv with
  | error e => exact yields_fail e _
  | ok alignment =>
    refine (Yields.readSeen yields_readTensorInfo nTensors []).bind fun infos hinfos => ?_
    exact yields_pure ⟨readAlignment_ok halign, hinfos.2.1, hkv.2.2.1, hinfos.2.2.1⟩

theorem nodup_cStr {strings : List (List UInt8)} (h : strings.Nodup) :
    (strings.map cStr).Nodup ↔ NulSafe strings :=
  List.nodup_map_iff_inj_on h

theorem exact_iff {m : Meta} {ctx : GgufContext} {offset size : ℕ} {data : Option (List UInt8)}
    (hctx : ctx = ⟨m.version, m.kv, m.infos.map Prod.snd, m.alignment, offset, size, data⟩)
    (hsize : dataSize m.alignment 0 (m.infos.map Prod.snd) = some size)
    (halign : isPowerOfTwo m.alignment = true ∧ m.alignment < 2 ^ 32)
    (hinfos : ∀ entry ∈ m.infos, Read entry.2.t ∧ entry.2.t.name = cStr entry.1)
    (hkeys : (m.kv.map GgufKv.key).Nodup) (hnames : (m.infos.map Prod.fst).Nodup) :
    Exact ctx ↔ Plain m := by
  have hkeymap : (ctx.kv.map fun kv => cStr kv.key) = (m.kv.map GgufKv.key).map cStr := by
    rw [hctx, List.map_map]
    rfl
  have hnamemap : (ctx.info.map fun ti => ti.t.name) = (m.infos.map Prod.fst).map cStr := by
    rw [hctx, List.map_map, List.map_map]
    exact List.map_congr_left fun entry hentry => (hinfos entry hentry).2
  constructor
  · intro h
    refine ⟨fun entry hentry => ?_, ?_, ?_⟩
    · have hmem : entry.2 ∈ ctx.info := hctx ▸ List.mem_map_of_mem hentry
      exact (hinfos entry hentry).1.nbytes_eq_iff.mp (h.sizes _ hmem).2
    · exact (nodup_cStr hkeys).mp (hkeymap ▸ h.keys)
    · exact (nodup_cStr hnames).mp (hnamemap ▸ h.names)
  · intro h
    have hexact : ∀ ti ∈ m.infos.map Prod.snd, ti.t.nbytes = ti.t.exactSize := by
      refine List.forall_mem_map.mpr fun entry hentry => ?_
      exact (hinfos entry hentry).1.nbytes_eq_iff.mpr (h.rows entry hentry)
    obtain ⟨hoffsets, htotal⟩ := dataSize_spec halign.1 halign.2 hexact (Nat.zero_le _) hsize
    simp only [Nat.zero_add] at hoffsets htotal
    have hfits : ∀ ti ∈ m.infos.map Prod.snd, ti.t.exactSize ≤ sizeMax :=
      List.forall_mem_map.mpr fun entry hentry => (hinfos entry hentry).1.exactSize_le
    refine ⟨?_, ?_, ?_, ?_, ?_⟩
    · rw [hctx]
      exact fun ti hti => ⟨hfits ti hti, hexact ti hti⟩
    · rw [hctx]
      exact hoffsets
    · rw [hctx]
      exact htotal
    · rw [hkeymap]
      exact (nodup_cStr hkeys).mpr h.keys
    · rw [hnamemap]
      exact (nodup_cStr hnames).mpr h.names

end RocmFpx.Gguf
