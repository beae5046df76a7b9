import RocmFpx.KvPrepare

/-!
`set_input_kq_mask`. The scalar type of the tensor is a parameter `T` with the cast of
`-INFINITY` and of integers into it, and `data` is the flat buffer, row by row. The
template parameters of the implementation are the fields of `MaskFlags`.
-/

namespace RocmFpx

inductive NonCausalType
  | all
  | swaOnly
  | swaFull
  deriving DecidableEq

/-- What `args_set_input_kq_mask` passes on, of `hparams` the two fields that are read. -/
structure KqMaskArgs (E : Type*) where
  useAlibi : Bool
  nonCausalType : NonCausalType
  ubatch : Ubatch E
  vCells : ℕ → KvCells
  seqToStream : ℕ → ℕ
  nSwa : ℕ
  swaType : SwaType
  nKv : ℕ
  nStream : ℕ
  nTps : ℕ

structure MaskFlags where
  causal : Bool
  swa : Bool
  is2d : Bool
  alibi : Bool

namespace KqMaskArgs

variable {E T : Type*} (args : KqMaskArgs E) (fl : MaskFlags) (cast : WithBot ℤ → T)

/-- `ubatch->seq_id[i][0]`. -/
def seqId (i : ℕ) : ℕ := (args.ubatch.seqIdAt i).headD 0

def cells (i : ℕ) : KvCells := args.vCells (args.seqToStream (args.seqId i))

/-- The smallest position of each sequence in the ubatch. -/
def seqPosMin : ℕ → ℤ :=
  (List.range args.ubatch.nTokens).foldl
    (fun m i => Function.update m (args.seqId i) (min (m (args.seqId i)) (args.ubatch.posAt i)))
    fun _ => llamaPosMax

/-- The value of the innermost body; `⊥` is its `skip` branch. -/
def cellMask (i j : ℕ) : WithBot ℤ :=
  let cells := args.cells i
  let p₁ := args.ubatch.posAt i
  let p1x := if fl.is2d then args.ubatch.posAt (i + args.ubatch.nTokens * 2) else 0
  let p1y := if fl.is2d then args.ubatch.posAt (i + args.ubatch.nTokens) else 0
  if cells.isEmpty j then ⊥
  else if !cells.seqHas j (args.seqId i) then ⊥
  else
    let p₀ := cells.pos j
    let inSpan := !fl.causal && decide (args.nonCausalType = .swaFull) &&
      decide (p₀ ≥ args.seqPosMin (args.seqId i))
    if fl.causal && decide (p₀ > p₁) then ⊥
    else if fl.causal && fl.is2d && decide (p₀ = p₁) && (cells.ext j).is2dGt p1x p1y then ⊥
    else if fl.swa && !inSpan && isMaskedSwa args.nSwa args.swaType p₀ p₁ then ⊥
    else if fl.alibi then ((-|p₀ - p₁| : ℤ) : WithBot ℤ)
    else ((0 : ℤ) : WithBot ℤ)

/-- The cells the first row of a sequence records. -/
def records (i j : ℕ) : Bool :=
  !fl.alibi && !(args.cells i).isEmpty j && (args.cells i).seqHas j (args.seqId i) &&
    decide ((args.cells i).pos j + int32 (args.nSwa + 32) ≥ args.seqPosMin (args.seqId i))

def writeCell (i : ℕ) (data : ℕ → T) (j : ℕ) : ℕ → T :=
  Function.update data (args.nKv * i + j) (cast (args.cellMask fl i j))

def firstCell (i : ℕ) (st : (ℕ → T) × List ℕ) (j : ℕ) : (ℕ → T) × List ℕ :=
  (args.writeCell fl cast i st.1 j, if args.records fl i j then st.2 ++ [j] else st.2)

def copyRow (srct i : ℕ) (data : ℕ → T) : ℕ → T := fun x =>
  if args.nKv * i ≤ x ∧ x < args.nKv * i + args.nKv then data (args.nKv * srct + (x - args.nKv * i))
  else data x

structure MaskState (T : Type*) where
  data : ℕ → T
  seqSrct : ℕ → Option ℕ
  seqIdxs : ℕ → List ℕ

def maskToken (st : MaskState T) (i : ℕ) : MaskState T :=
  match (if fl.alibi then none else st.seqSrct (args.seqId i)) with
  | some srct =>
    -- the loop ends after `idxs.size()` iterations, at the latest after `n_kv`
    let data := args.copyRow srct i st.data
    let idxs := (st.seqIdxs (args.seqId i)).take args.nKv
    { st with data := idxs.foldl (args.writeCell fl cast i) data }
  | none =>
    let r := (List.range args.nKv).foldl (args.firstCell fl cast i)
      (st.data, if fl.alibi then st.seqIdxs (args.seqId i) else [])
    { data := r.1
      seqSrct := if fl.alibi then st.seqSrct else Function.update st.seqSrct (args.seqId i) (some i)
      seqIdxs := Function.update st.seqIdxs (args.seqId i) r.2 }

end KqMaskArgs

namespace KvCache

variable {E T : Type*} (p : KvParams) (cast : WithBot ℤ → T)

end KvCache
end RocmFpx

/-!
The mask equals its definition, entry by entry. A row that is copied from an earlier row
of its sequence is right where nothing was recorded: there the cell is empty, of another
sequence, or so far before the ubatch that all its tokens see it alike.
-/

namespace RocmFpx

open PointwiseLoop

theorem int32_of_lt {n : ℕ} (hn : n < 2 ^ 31) : int32 n = n := by
  rw [int32, BitVec.toInt_ofNat', Int.bmod_def]
  split_ifs <;> omega

theorem isMaskedSwa_far {nSwa : ℕ} (hn : nSwa + 32 < 2 ^ 31) (t : SwaType) {p₀ m q q' : ℤ}
    (hfar : p₀ + int32 (nSwa + 32) < m) (hq : m ≤ q) (hq' : m ≤ q') :
    isMaskedSwa nSwa t p₀ q = isMaskedSwa nSwa t p₀ q' := by
  rw [int32_of_lt hn] at hfar
  push_cast at hfar
  have hw : int32 nSwa = nSwa := int32_of_lt (by omega)
  cases t with
  | none => rfl
  | standard =>
    simp only [isMaskedSwa, hw]
    rw [decide_eq_true (by omega), decide_eq_true (by omega)]
  | chunked =>
    simp only [isMaskedSwa]
    rcases Nat.eq_zero_or_pos nSwa with rfl | hpos
    · simp
    · have hstart : ∀ x : ℤ, m ≤ x → p₀ < x / nSwa * nSwa := by
        intro x hx
        have := Int.emod_lt_of_pos x (b := nSwa) (by omega)
        have := Int.mul_ediv_add_emod x nSwa
        have := mul_comm (nSwa : ℤ) (x / nSwa)
        omega
      rw [decide_eq_true (hstart q hq), decide_eq_true (hstart q' hq')]
  | symmetric =>
    have hhalf : (nSwa : ℤ).tdiv 2 ≤ nSwa := by
      rw [Int.tdiv_eq_ediv_of_nonneg (by omega)]
      omega
    have hmasked : ∀ x : ℤ, m ≤ x → decide (x - p₀ > (nSwa : ℤ).tdiv 2) = true :=
      fun x hx => decide_eq_true (by omega)
    simp only [isMaskedSwa, hw, hmasked q hq, hmasked q' hq', Bool.or_true]

namespace KqMaskArgs

variable {E T : Type*} {args : KqMaskArgs E} {fl : MaskFlags} {cast : WithBot ℤ → T}

theorem foldl_min_le_iff (key : ℕ → ℕ) (val : ℕ → ℤ) (ks : List ℕ) (m : ℕ → ℤ) (s : ℕ) (q : ℤ) :
    ks.foldl (fun m i => Function.update m (key i) (min (m (key i)) (val i))) m s ≤ q ↔
      m s ≤ q ∨ ∃ i ∈ ks, key i = s ∧ val i ≤ q := by
  induction ks generalizing m with
  | nil => simp
  | cons k ks ih =>
    rw [List.foldl_cons, ih]
    simp only [List.mem_cons, exists_eq_or_imp, ← or_assoc]
    by_cases hk : key k = s
    · subst hk
      simp
    · rw [Function.update_of_ne (Ne.symm hk)]
      simp [hk]

theorem seqPosMin_le_iff (s : ℕ) (q : ℤ) : args.seqPosMin s ≤ q ↔
    llamaPosMax ≤ q ∨ ∃ i < args.ubatch.nTokens, args.seqId i = s ∧ args.ubatch.posAt i ≤ q := by
  rw [seqPosMin, foldl_min_le_iff]
  simp only [List.mem_range]

theorem seqPosMin_le {i : ℕ} (hi : i < args.ubatch.nTokens) :
    args.seqPosMin (args.seqId i) ≤ args.ubatch.posAt i :=
  (seqPosMin_le_iff _ _).mpr (.inr ⟨i, hi, rfl, le_rfl⟩)

/-! ## What is not recorded -/

theorem cellMask_of_not_records (hswa : args.nSwa + 32 < 2 ^ 31) (halibi : fl.alibi = false)
    {i i' j : ℕ} (hi : i < args.ubatch.nTokens) (hi' : i' < args.ubatch.nTokens)
    (hseq : args.seqId i = args.seqId i') (hrec : args.records fl i j = false) :
    args.cellMask fl i j = args.cellMask fl i' j := by
  have hcells : args.cells i = args.cells i' := by rw [cells, cells, hseq]
  by_cases hempty : (args.cells i).isEmpty j = true
  · rw [cellMask, cellMask, if_pos hempty, if_pos (hcells ▸ hempty)]
  rw [Bool.not_eq_true] at hempty
  by_cases hhas : (args.cells i).seqHas j (args.seqId i) = true
  · have hfar : (args.cells i).pos j + int32 (args.nSwa + 32) < args.seqPosMin (args.seqId i) := by
      simpa [records, halibi, hempty, hhas] using hrec
    have hmin := seqPosMin_le hi
    have hmin' := seqPosMin_le hi'
    rw [← hseq] at hmin'
    have hwide : (0 : ℤ) ≤ int32 (args.nSwa + 32) := by
      rw [int32_of_lt hswa]
      exact Int.natCast_nonneg _
    have hmask := isMaskedSwa_far hswa args.swaType hfar hmin hmin'
    -- the cell is before every token of the sequence, so neither row masks it as future
    have hpast : ∀ q, args.seqPosMin (args.seqId i) ≤ q →
        decide ((args.cells i).pos j > q) = false ∧ decide ((args.cells i).pos j = q) = false :=
      fun q hq => ⟨decide_eq_false (by omega), decide_eq_false (by omega)⟩
    simp only [cellMask, ← hcells, ← hseq, hmask, halibi, (hpast _ hmin).1, (hpast _ hmin).2,
      (hpast _ hmin').1, (hpast _ hmin').2, Bool.and_false, Bool.false_and, Bool.false_eq_true,
      if_false]
  · rw [Bool.not_eq_true] at hhas
    simp only [cellMask, ← hcells, ← hseq, hhas, Bool.not_false, if_true]

/-! ## Rows of the buffer -/

def RowDone (args : KqMaskArgs E) (fl : MaskFlags) (cast : WithBot ℤ → T) (data : ℕ → T) (i : ℕ) :
    Prop := ∀ j < args.nKv, data (args.nKv * i + j) = cast (args.cellMask fl i j)

theorem index_div {n i j : ℕ} (hj : j < n) : (n * i + j) / n = i := by
  rw [Nat.mul_add_div (by omega), Nat.div_eq_of_lt hj, add_zero]

theorem writeCell_pointwise (i : ℕ) : Pointwise (fun data : ℕ → T => data)
    (args.writeCell fl cast i) (fun j => args.nKv * i + j) (fun j _ => cast (args.cellMask fl i j)) :=
  fun _ _ => rfl

variable (args fl cast) in
theorem foldl_writeCell (i : ℕ) {js : List ℕ} (hnd : js.Nodup) (hlt : ∀ j ∈ js, j < args.nKv)
    (data : ℕ → T) (i' : ℕ) {j : ℕ} (hj : j < args.nKv) :
    (js.foldl (args.writeCell fl cast i) data) (args.nKv * i' + j) =
      if i' = i ∧ j ∈ js then cast (args.cellMask fl i j) else data (args.nKv * i' + j) := by
  have hslots : (js.map fun j => args.nKv * i + j).Nodup :=
    hnd.map fun a b hab => Nat.add_left_cancel hab
  split_ifs with hin
  · obtain ⟨rfl, hin⟩ := hin
    exact (writeCell_pointwise i').foldl_of_mem hslots data hin
  · refine (writeCell_pointwise i).foldl_of_notMem js data fun hmem => ?_
    obtain ⟨k, hk, heq⟩ := List.mem_map.mp hmem
    have hrow := congrArg (· / args.nKv) heq
    simp only [index_div (hlt k hk), index_div hj] at hrow
    subst hrow
    exact hin ⟨rfl, Nat.add_left_cancel heq ▸ hk⟩

theorem foldl_firstCell (i : ℕ) (js : List ℕ) (data : ℕ → T) (idxs : List ℕ) :
    js.foldl (args.firstCell fl cast i) (data, idxs) =
      (js.foldl (args.writeCell fl cast i) data, idxs ++ js.filter (args.records fl i)) := by
  induction js generalizing data idxs with
  | nil => simp
  | cons j js ih =>
    rw [List.foldl_cons, List.foldl_cons, firstCell, ih]
    by_cases hrec : args.records fl i j = true
    · rw [if_pos hrec, List.filter_cons_of_pos hrec, List.append_assoc]
      rfl
    · rw [if_neg hrec, List.filter_cons_of_neg hrec]

theorem copyRow_self (srct i : ℕ) (data : ℕ → T) {j : ℕ} (hj : j < args.nKv) :
    args.copyRow srct i data (args.nKv * i + j) = data (args.nKv * srct + j) := by
  rw [copyRow, if_pos ⟨Nat.le_add_right _ _, by omega⟩, Nat.add_sub_cancel_left]

theorem copyRow_other {srct i i' : ℕ} (data : ℕ → T) {j : ℕ} (hj : j < args.nKv) (hne : i' ≠ i) :
    args.copyRow srct i data (args.nKv * i' + j) = data (args.nKv * i' + j) := by
  rw [copyRow, if_neg]
  rintro ⟨hge, hlt⟩
  apply hne
  have hrow : args.nKv * i' + j = args.nKv * i + (args.nKv * i' + j - args.nKv * i) := by omega
  have hlt' : args.nKv * i' + j - args.nKv * i < args.nKv := by omega
  rw [← index_div (n := args.nKv) (i := i') hj, hrow, index_div hlt']

/-! ## The loops over tokens and streams -/

/-- All rows before `n` are done, and a remembered row is one of them, with the list of
the cells it recorded. -/
structure MaskInv (args : KqMaskArgs E) (fl : MaskFlags) (cast : WithBot ℤ → T)
    (st : MaskState T) (n : ℕ) : Prop where
  rows : ∀ i < n, RowDone args fl cast st.data i
  srct : ∀ s i, st.seqSrct s = some i →
    i < n ∧ args.seqId i = s ∧ st.seqIdxs s = (List.range args.nKv).filter (args.records fl i)

theorem MaskInv.first {st : MaskState T} {n : ℕ} (h : MaskInv args fl cast st n)
    (hnone : (if fl.alibi then none else st.seqSrct (args.seqId n)) = none) :
    MaskInv args fl cast (args.maskToken fl cast st n) (n + 1) := by
  have hrow := foldl_writeCell args fl cast n List.nodup_range (fun j => List.mem_range.mp) st.data
  constructor
  · intro i hi j hj
    simp only [maskToken, hnone, foldl_firstCell, hrow i hj]
    by_cases heq : i = n
    · subst heq
      rw [if_pos ⟨rfl, List.mem_range.mpr hj⟩]
    · rw [if_neg fun hin => heq hin.1]
      exact h.rows i (by omega) j hj
  · intro s i hs
    simp only [maskToken, hnone, foldl_firstCell] at hs ⊢
    by_cases halibi : fl.alibi = true
    · simp only [halibi, if_true] at hs ⊢
      obtain ⟨hlt, hid, hidxs⟩ := h.srct s i hs
      refine ⟨by omega, hid, ?_⟩
      have hnil : ∀ k, (List.range args.nKv).filter (args.records fl k) = [] := by
        intro k
        simp [records, halibi]
      by_cases heq : s = args.seqId n
      · subst heq
        rw [Function.update_self, hidxs, hnil, hnil, List.append_nil]
      · rw [Function.update_of_ne heq, hidxs]
    · simp only [halibi, if_false, Bool.false_eq_true] at hs ⊢
      by_cases heq : s = args.seqId n
      · subst heq
        rw [Function.update_self] at hs ⊢
        obtain rfl := Option.some.inj hs
        exact ⟨Nat.lt_succ_self _, rfl, List.nil_append _⟩
      · rw [Function.update_of_ne heq] at hs ⊢
        obtain ⟨hlt, hid, hidxs⟩ := h.srct s i hs
        exact ⟨by omega, hid, hidxs⟩

theorem MaskInv.again (hswa : args.nSwa + 32 < 2 ^ 31) {st : MaskState T} {n srct : ℕ}
    (h : MaskInv args fl cast st n) (hn : n < args.ubatch.nTokens)
    (hsome : (if fl.alibi then none else st.seqSrct (args.seqId n)) = some srct) :
    MaskInv args fl cast (args.maskToken fl cast st n) (n + 1) := by
  have halibi : fl.alibi = false := by
    by_contra hne
    rw [Bool.not_eq_false] at hne
    simp [hne] at hsome
  rw [halibi] at hsome
  obtain ⟨hlt, hid, hidxs⟩ := h.srct _ _ hsome
  have hlen : (st.seqIdxs (args.seqId n)).length ≤ args.nKv := by
    rw [hidxs]
    exact (List.length_filter_le _ _).trans_eq List.length_range
  have hmem : ∀ j, j ∈ st.seqIdxs (args.seqId n) ↔ j < args.nKv ∧ args.records fl srct j = true := by
    intro j
    rw [hidxs, List.mem_filter, List.mem_range]
  have hnd : (st.seqIdxs (args.seqId n)).Nodup := by
    rw [hidxs]
    exact List.nodup_range.filter _
  have hdata := foldl_writeCell args fl cast n hnd (fun j hj => ((hmem j).mp hj).1)
    (args.copyRow srct n st.data)
  constructor
  · intro i hi j hj
    simp only [maskToken, halibi, hsome, List.take_of_length_le hlen, hdata i hj]
    by_cases heq : i = n
    · subst heq
      by_cases hrec : j ∈ st.seqIdxs (args.seqId i)
      · rw [if_pos ⟨rfl, hrec⟩]
      · rw [if_neg fun hin => hrec hin.2, copyRow_self _ _ _ hj, h.rows srct hlt j hj]
        have hfalse : args.records fl srct j = false := by
          rw [← Bool.not_eq_true]
          exact fun htrue => hrec ((hmem j).mpr ⟨hj, htrue⟩)
        rw [cellMask_of_not_records hswa halibi (by omega) hn hid hfalse]
    · rw [if_neg fun hin => heq hin.1, copyRow_other _ hj heq]
      exact h.rows i (by omega) j hj
  · intro s i hs
    simp only [maskToken, halibi, hsome] at hs ⊢
    obtain ⟨hlt, hid, hidxs⟩ := h.srct s i hs
    exact ⟨by omega, hid, hidxs⟩

theorem MaskInv.token (hswa : args.nSwa + 32 < 2 ^ 31) {st : MaskState T} {n : ℕ}
    (h : MaskInv args fl cast st n) (hn : n < args.ubatch.nTokens) :
    MaskInv args fl cast (args.maskToken fl cast st n) (n + 1) := by
  rcases hprev : (if fl.alibi then none else st.seqSrct (args.seqId n)) with _ | srct
  · exact h.first hprev
  · exact h.again hswa hn hprev

end KqMaskArgs

namespace KvCache

variable {E T : Type*} {p : KvParams}

/-! ## The definition of the mask -/

section

variable (c : KvCache) (ub : Ubatch E) (useAlibi : Bool) (nonCausalType : NonCausalType)
  (nKv nStream : ℕ) (causal : Bool)

end

end KvCache

end RocmFpx
