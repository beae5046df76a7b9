import RocmFpx.SizeT
import Mathlib.Data.Fin.VecNotation
import Mathlib.Tactic.Ring

/-!
Shape, strides and size of a tensor. `ggml_nbytes` takes the size from the strides in `size_t`
arithmetic; `exactSize` is the size that is meant.
-/

namespace RocmFpx

instance neZero_four : NeZero 4 := ⟨by decide⟩

/-- `ggml_type_traits`, as far as the sizes go. -/
structure GgmlTypeTraits where
  blckSize : ℕ
  typeSize : ℕ
  deriving DecidableEq, Repr

/-- `type_traits`, by the numbers of the types; entries that are not named are zero. -/
def typeTraits : List (ℕ × GgmlTypeTraits) :=
  [(0, ⟨1, 4⟩), (1, ⟨1, 2⟩), -- F32, F16
   (2, ⟨32, 18⟩), (3, ⟨32, 20⟩), (6, ⟨32, 22⟩), (7, ⟨32, 24⟩), -- Q4_0, Q4_1, Q5_0, Q5_1
   (8, ⟨32, 34⟩), (9, ⟨32, 36⟩), -- Q8_0, Q8_1
   (10, ⟨256, 84⟩), (11, ⟨256, 110⟩), (12, ⟨256, 144⟩), -- Q2_K, Q3_K, Q4_K
   (13, ⟨256, 176⟩), (14, ⟨256, 210⟩), (15, ⟨256, 292⟩), -- Q5_K, Q6_K, Q8_K
   (16, ⟨256, 66⟩), (17, ⟨256, 74⟩), (18, ⟨256, 98⟩), -- IQ2_XXS, IQ2_XS, IQ3_XXS
   (19, ⟨256, 50⟩), (20, ⟨32, 18⟩), (21, ⟨256, 110⟩), -- IQ1_S, IQ4_NL, IQ3_S
   (22, ⟨256, 82⟩), (23, ⟨256, 136⟩), -- IQ2_S, IQ4_XS
   (24, ⟨1, 1⟩), (25, ⟨1, 2⟩), (26, ⟨1, 4⟩), (27, ⟨1, 8⟩), (28, ⟨1, 8⟩), -- I8 .. I64, F64
   (29, ⟨256, 56⟩), (30, ⟨1, 2⟩), -- IQ1_M, BF16
   (34, ⟨256, 54⟩), (35, ⟨256, 66⟩), -- TQ1_0, TQ2_0
   (39, ⟨32, 17⟩), (40, ⟨64, 36⟩), (41, ⟨128, 18⟩), (42, ⟨64, 18⟩), -- MXFP4, NVFP4, Q1_0, Q2_0
   (100, ⟨32, 18⟩), (101, ⟨32, 17⟩), -- Q4_0_ROCMFP4, Q4_0_ROCMFP4_FAST
   (102, ⟨32, 26⟩), (103, ⟨32, 33⟩), (104, ⟨32, 14⟩), -- Q6_0, Q8_0, Q3_0 of ROCMFPX
   (105, ⟨32, 14⟩), (106, ⟨32, 18⟩), -- TURBO3_0, TURBO4_0
   (107, ⟨0, 0⟩), -- Q2_0_ROCMFPX_LEGACY_AMBIGUOUS
   (108, ⟨32, 17⟩), (109, ⟨32, 22⟩), (110, ⟨32, 30⟩), (111, ⟨32, 10⟩)]
     -- Q4_0_ROCMI4 and Q5_0, Q7_0, Q2_0 of ROCMFPX

/-- `GGML_TYPE_COUNT`. -/
def ggmlTypeCount : ℕ := 112

/-- `GGML_TYPE_Q2_0_ROCMFPX_LEGACY_AMBIGUOUS`. -/
def legacyAmbiguous : ℕ := 107

def traitsOf (type : ℕ) : GgmlTypeTraits := (typeTraits.lookup type).getD ⟨0, 0⟩

def ggmlBlckSize (type : ℕ) : ℕ := (traitsOf type).blckSize

def ggmlTypeSize (type : ℕ) : ℕ := (traitsOf type).typeSize

/-- `ggml_tensor`, as far as a file describes it. The name is what stands before the first NUL;
`data` are the bytes from the data pointer on, wherever they live. -/
structure GgmlTensor where
  type : ℕ
  ne : Fin 4 → ℕ
  nb : Fin 4 → ℕ
  name : List UInt8
  data : Option (ℕ → UInt8)

/-- The strides of a contiguous tensor, as the source computes them. -/
def contiguousNb (type : ℕ) (ne : Fin 4 → ℕ) : Fin 4 → ℕ :=
  let nb1 := wrapSize (ggmlTypeSize type * (ne 0 / ggmlBlckSize type))
  let nb2 := wrapSize (nb1 * ne 1)
  ![ggmlTypeSize type, nb1, nb2, wrapSize (nb2 * ne 2)]

namespace GgmlTensor

/-- `ggml_nelements`; it is only taken of shapes whose product fits `int64_t`. -/
def nelements (t : GgmlTensor) : ℕ := t.ne 0 * t.ne 1 * t.ne 2 * t.ne 3

/-- `ggml_nbytes`. -/
def nbytes (t : GgmlTensor) : ℕ :=
  if ∃ i, t.ne i = 0 then 0
  else if ggmlBlckSize t.type = 1 then
    [0, 1, 2, 3].foldl (fun nbytes i => wrapSize (nbytes + (t.ne i - 1) * t.nb i))
      (ggmlTypeSize t.type)
  else
    [1, 2, 3].foldl (fun nbytes i => wrapSize (nbytes + (t.ne i - 1) * t.nb i))
      (wrapSize (t.ne 0 * t.nb 0) / ggmlBlckSize t.type)

/-- `ggml_n_dims`. -/
def nDims (t : GgmlTensor) : ℕ :=
  if 1 < t.ne 3 then 4 else if 1 < t.ne 2 then 3 else if 1 < t.ne 1 then 2 else 1

/-- `ggml_is_contiguous`. -/
def isContiguous (t : GgmlTensor) : Bool :=
  let next := contiguousNb t.type t.ne
  (t.ne 0 == ggmlBlckSize t.type || t.nb 0 == next 0) &&
    [1, 2, 3].all fun i => t.ne i == 1 || t.nb i == next i

/-- The size in bytes with exact arithmetic. -/
def exactSize (t : GgmlTensor) : ℕ :=
  t.ne 0 / ggmlBlckSize t.type * ggmlTypeSize t.type * t.ne 1 * t.ne 2 * t.ne 3

/-! ## Sizes that wrap -/

variable {t : GgmlTensor}

/-- The strides that matter are those of a contiguous tensor. -/
structure Strided (t : GgmlTensor) : Prop where
  first : t.nb 0 = ggmlTypeSize t.type ∨ ggmlBlckSize t.type = 1 ∧ t.ne 0 = 1
  later : ∀ i, i ≠ 0 → t.ne i = 1 ∨ t.nb i = contiguousNb t.type t.ne i

theorem exactSize_zero {i : Fin 4} (h : t.ne i = 0) : t.exactSize = 0 := by
  match i, h with
  | 0, h => simp [exactSize, h]
  | 1, h => simp [exactSize, h]
  | 2, h => simp [exactSize, h]
  | 3, h => simp [exactSize, h]

theorem nbytes_zero {i : Fin 4} (h : t.ne i = 0) : t.nbytes = 0 := if_pos ⟨i, h⟩

theorem contiguousNb_eq (hne : ∀ i, t.ne i ≠ 0) (hfit : t.exactSize ≤ sizeMax) :
    contiguousNb t.type t.ne 1 = ggmlTypeSize t.type * (t.ne 0 / ggmlBlckSize t.type) ∧
    contiguousNb t.type t.ne 2 =
      ggmlTypeSize t.type * (t.ne 0 / ggmlBlckSize t.type) * t.ne 1 ∧
    contiguousNb t.type t.ne 3 =
      ggmlTypeSize t.type * (t.ne 0 / ggmlBlckSize t.type) * t.ne 1 * t.ne 2 := by
  have hpos (i : Fin 4) : 0 < t.ne i := Nat.pos_of_ne_zero (hne i)
  rw [exactSize, Nat.mul_comm (t.ne 0 / _)] at hfit
  have h2 := le_trans (Nat.le_mul_of_pos_right _ (hpos 3)) hfit
  have h1 := le_trans (Nat.le_mul_of_pos_right _ (hpos 2)) h2
  have h0 := le_trans (Nat.le_mul_of_pos_right _ (hpos 1)) h1
  simp [contiguousNb, wrapSize_eq h0, wrapSize_eq h1, wrapSize_eq h2]

theorem later_rows (hs : t.Strided) (hne : ∀ i, t.ne i ≠ 0) (hfit : t.exactSize ≤ sizeMax) :
    (t.ne 1 - 1) * t.nb 1 + (t.ne 2 - 1) * t.nb 2 + (t.ne 3 - 1) * t.nb 3 +
      t.ne 0 / ggmlBlckSize t.type * ggmlTypeSize t.type = t.exactSize := by
  have hterm (i : Fin 4) (hi : i ≠ 0) :
      (t.ne i - 1) * t.nb i = (t.ne i - 1) * contiguousNb t.type t.ne i := by
    rcases hs.later i hi with h | h
    · rw [h, Nat.sub_self, Nat.zero_mul, Nat.zero_mul]
    · rw [h]
  obtain ⟨hnb1, hnb2, hnb3⟩ := contiguousNb_eq hne hfit
  rw [hterm 1 (by decide), hterm 2 (by decide), hterm 3 (by decide), hnb1, hnb2, hnb3, exactSize]
  obtain ⟨m₁, h₁⟩ := Nat.exists_eq_succ_of_ne_zero (hne 1)
  obtain ⟨m₂, h₂⟩ := Nat.exists_eq_succ_of_ne_zero (hne 2)
  obtain ⟨m₃, h₃⟩ := Nat.exists_eq_succ_of_ne_zero (hne 3)
  rw [h₁, h₂, h₃]
  simp only [Nat.succ_eq_add_one, Nat.add_sub_cancel]
  ring

/-- The bytes of the first row, as `ggml_nbytes` takes them. -/
def firstRow (t : GgmlTensor) : ℕ :=
  if ggmlBlckSize t.type = 1 then t.ne 0 * ggmlTypeSize t.type
  else wrapSize (t.ne 0 * ggmlTypeSize t.type) / ggmlBlckSize t.type

theorem nbytes_rows (hs : t.Strided) (hne : ∀ i, t.ne i ≠ 0) : t.nbytes =
    wrapSize (t.firstRow +
      ((t.ne 1 - 1) * t.nb 1 + (t.ne 2 - 1) * t.nb 2 + (t.ne 3 - 1) * t.nb 3)) := by
  have hsome : ¬ ∃ i, t.ne i = 0 := fun ⟨i, hi⟩ => hne i hi
  rw [nbytes, if_neg hsome, firstRow]
  split_ifs with hone
  · have hrow : ggmlTypeSize t.type + (t.ne 0 - 1) * t.nb 0 = t.ne 0 * ggmlTypeSize t.type := by
      obtain ⟨m, hm⟩ := Nat.exists_eq_succ_of_ne_zero (hne 0)
      rcases hs.first with h | ⟨-, h⟩
      · rw [h, hm, Nat.succ_sub_one, Nat.succ_mul, Nat.add_comm]
      · rw [h, Nat.sub_self, Nat.zero_mul, Nat.one_mul, Nat.add_zero]
    simp only [List.foldl_cons, List.foldl_nil, wrapSize_add, hrow, Nat.add_assoc]
  · have hnb : t.nb 0 = ggmlTypeSize t.type := hs.first.resolve_right fun h => hone h.1
    simp only [List.foldl_cons, List.foldl_nil, wrapSize_add, hnb, Nat.add_assoc]

theorem firstRow_le (hdvd : ggmlBlckSize t.type ∣ t.ne 0) (hblck : ggmlBlckSize t.type ≠ 0) :
    t.firstRow ≤ t.ne 0 / ggmlBlckSize t.type * ggmlTypeSize t.type ∧
    (t.firstRow = t.ne 0 / ggmlBlckSize t.type * ggmlTypeSize t.type ↔
      (ggmlBlckSize t.type ≠ 1 → t.ne 0 * ggmlTypeSize t.type ≤ sizeMax)) := by
  obtain ⟨q, hq⟩ := hdvd
  have hpos := Nat.pos_of_ne_zero hblck
  have hrow : t.ne 0 * ggmlTypeSize t.type = ggmlBlckSize t.type * (q * ggmlTypeSize t.type) := by
    rw [hq, Nat.mul_assoc]
  rw [firstRow, hrow, hq, Nat.mul_div_cancel_left q hpos]
  split_ifs with hone
  · rw [hone, Nat.one_mul]
    exact ⟨le_rfl, iff_of_true rfl fun h => absurd rfl h⟩
  · by_cases hfit : ggmlBlckSize t.type * (q * ggmlTypeSize t.type) ≤ sizeMax
    · rw [wrapSize_eq hfit, Nat.mul_div_cancel_left _ hpos]
      exact ⟨le_rfl, iff_of_true rfl fun _ => hfit⟩
    · have hlt : wrapSize (ggmlBlckSize t.type * (q * ggmlTypeSize t.type)) /
          ggmlBlckSize t.type < q * ggmlTypeSize t.type :=
        Nat.div_lt_of_lt_mul (lt_of_le_of_lt (wrapSize_le _) (not_le.mp hfit))
      exact ⟨hlt.le, iff_of_false hlt.ne fun h => hfit (h hone)⟩

theorem nbytes_eq_iff (hs : t.Strided) (hdvd : ggmlBlckSize t.type ∣ t.ne 0)
    (hblck : ggmlBlckSize t.type ≠ 0) (hfit : t.exactSize ≤ sizeMax) :
    t.nbytes = t.exactSize ↔ (ggmlBlckSize t.type ≠ 1 → (∀ i, t.ne i ≠ 0) →
      t.ne 0 * ggmlTypeSize t.type ≤ sizeMax) := by
  by_cases hne : ∀ i, t.ne i ≠ 0
  · obtain ⟨hle, hiff⟩ := firstRow_le hdvd hblck
    have hrows := later_rows hs hne hfit
    rw [nbytes_rows hs hne, wrapSize_eq (le_trans (by omega) hfit), ← hrows, Nat.add_comm,
      Nat.add_left_cancel_iff, hiff]
    exact forall_congr' fun _ => ⟨fun h _ => h, fun h => h hne⟩
  · obtain ⟨i, hi⟩ := not_forall_not.mp hne
    exact iff_of_true ((nbytes_zero hi).trans (exactSize_zero hi).symm) fun _ h => absurd h hne

end GgmlTensor
end RocmFpx
