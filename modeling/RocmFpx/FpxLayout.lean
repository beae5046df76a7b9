import RocmFpx.FlatRows
import RocmFpx.FpxPacking

/-!
Rows of blocks. A block is its payload followed by its scale bytes, and a row is any
number of blocks one after the other. A layout carries the proof that its payload and its
32 codes determine each other, and a row inherits it.
-/

namespace RocmFpx.Fpx

structure Layout where
  Code : Type
  InRange : Code → Prop
  payload : ℕ
  scales : ℕ
  pack : (ℕ → Code) → ℕ → BitVec 8
  unpack : (ℕ → BitVec 8) → ℕ → Code
  unpack_pack : ∀ {codes : ℕ → Code}, (∀ i < 32, InRange (codes i)) →
    ∀ i < 32, unpack (pack codes) i = codes i
  pack_unpack : ∀ (qs : ℕ → BitVec 8), ∀ b < payload, pack (unpack qs) b = qs b
  unpack_congr : ∀ {qs qs' : ℕ → BitVec 8}, (∀ b < payload, qs b = qs' b) →
    ∀ i < 32, unpack qs i = unpack qs' i
  inRange : ∀ (qs : ℕ → BitVec 8), ∀ i < 32, InRange (unpack qs i)

/-- The layout of a dense stream of codes. -/
def DensePacking.layout {w m : ℕ} {pack unpack : (ℕ → BitVec 8) → ℕ → BitVec 8}
    (h : DensePacking w 32 m pack unpack) : Layout where
  Code := BitVec 8
  InRange := InWidth w
  payload := m
  scales := 2
  pack := pack
  unpack := unpack
  unpack_pack := h.unpack_pack
  pack_unpack := h.pack_unpack
  unpack_congr := h.unpack_congr
  inRange := h.inWidth

def fp2Layout : Layout := DensePacking.layout fp2_densePacking

def fp3Layout : Layout := DensePacking.layout fp3_densePacking

def fp6Layout : Layout := DensePacking.layout fp6_densePacking

def fp5Layout : Layout :=
  DensePacking.layout (linear_densePacking 5 (by decide) (by decide))

def fp7Layout : Layout :=
  DensePacking.layout (linear_densePacking 7 (by decide) (by decide))

/-- The codes of FP8 are stored as they are. -/
def fp8Layout : Layout where
  Code := ℤ
  InRange q := -128 ≤ q ∧ q ≤ 127
  payload := 32
  scales := 1
  pack q j := BitVec.ofInt 8 (q j)
  unpack qs j := (qs j).toInt
  unpack_pack hq i hi := by
    rw [BitVec.toInt_ofInt]
    have := hq i hi
    exact Int.bmod_eq_of_le (by norm_num; omega) (by norm_num; omega)
  pack_unpack qs b _ := BitVec.ofInt_toInt
  unpack_congr hqs i hi := by rw [hqs i hi]
  inRange qs i _ := ⟨BitVec.le_toInt (qs i), BitVec.toInt_le⟩

def i4Layout : Layout where
  Code := ℤ
  InRange := I4InRange
  payload := 16
  scales := 1
  pack := i4Pack
  unpack := i4Unpack
  unpack_pack := i4Unpack_pack
  pack_unpack := i4Pack_unpack
  unpack_congr hqs i hi := by
    unfold i4Unpack
    split_ifs with hlow
    · rw [hqs i hlow]
    · rw [hqs (i - 16) (by omega)]
  inRange qs i _ := by
    unfold i4Unpack
    split_ifs
    · exact (i4_byte (qs i)).1
    · exact (i4_byte (qs (i - 16))).2.1

namespace Layout

variable (L : Layout)

def blockSize : ℕ := L.payload + L.scales

def blockBytes (codes : ℕ → L.Code) (e : ℕ → BitVec 8) : List (BitVec 8) :=
  (List.range L.payload).map (L.pack codes) ++ (List.range L.scales).map e

/-- The bytes of `nb` blocks. -/
def rowBytes (nb : ℕ) (codes : ℕ → ℕ → L.Code) (e : ℕ → ℕ → BitVec 8) : List (BitVec 8) :=
  (List.range nb).flatMap fun ib => L.blockBytes (codes ib) (e ib)

def blockAt (data : List (BitVec 8)) (ib b : ℕ) : BitVec 8 := data.getD (ib * L.blockSize + b) 0

def rowCodes (data : List (BitVec 8)) (ib : ℕ) : ℕ → L.Code := L.unpack (L.blockAt data ib)

def rowScales (data : List (BitVec 8)) (ib half : ℕ) : BitVec 8 :=
  L.blockAt data ib (L.payload + half)

def scaleIsValid (e : BitVec 8) : Bool := decide (e ≤ 0x7e)

def validateRowData (data : List (BitVec 8)) : Bool :=
  if data.length % L.blockSize ≠ 0 then false
  else
    (List.range (data.length / L.blockSize)).all fun ib =>
      (List.range L.scales).all fun half => scaleIsValid (L.rowScales data ib half)

variable {L}

theorem blockBytes_length (codes : ℕ → L.Code) (e : ℕ → BitVec 8) :
    (L.blockBytes codes e).length = L.blockSize := by
  simp [blockBytes, blockSize]

theorem blockBytes_payload (codes : ℕ → L.Code) (e : ℕ → BitVec 8) {b : ℕ}
    (hb : b < L.payload) : (L.blockBytes codes e)[b]? = some (L.pack codes b) := by
  rw [blockBytes, List.getElem?_append_left (by simpa using hb)]
  simp [hb]

theorem blockBytes_scale (codes : ℕ → L.Code) (e : ℕ → BitVec 8) {half : ℕ}
    (hhalf : half < L.scales) :
    (L.blockBytes codes e)[L.payload + half]? = some (e half) := by
  rw [blockBytes, List.getElem?_append_right (by simp)]
  simp [hhalf]

section

variable {nb : ℕ} {codes : ℕ → ℕ → L.Code} {e : ℕ → ℕ → BitVec 8}

theorem rowBytes_length : (L.rowBytes nb codes e).length = nb * L.blockSize := by
  rw [rowBytes, FlatRows.flatMap_length fun ib _ => blockBytes_length (codes ib) (e ib),
    List.length_range]

theorem blockAt_rowBytes {ib b : ℕ} (hib : ib < nb) (hb : b < L.blockSize) :
    L.blockAt (L.rowBytes nb codes e) ib b = (L.blockBytes (codes ib) (e ib)).getD b 0 := by
  rw [blockAt, List.getD_eq_getElem?_getD, List.getD_eq_getElem?_getD, rowBytes,
    FlatRows.getElem?_flatMap (fun ib _ => blockBytes_length (codes ib) (e ib))
      (List.getElem?_range hib) hb]

theorem rowCodes_rowBytes (hcodes : ∀ ib < nb, ∀ i < 32, L.InRange (codes ib i)) {ib : ℕ}
    (hib : ib < nb) : ∀ i < 32, L.rowCodes (L.rowBytes nb codes e) ib i = codes ib i := by
  intro i hi
  rw [rowCodes, ← L.unpack_pack (hcodes ib hib) i hi]
  refine L.unpack_congr (fun b hb => ?_) i hi
  rw [blockAt_rowBytes hib (by rw [blockSize]; omega), List.getD_eq_getElem?_getD,
    blockBytes_payload _ _ hb, Option.getD_some]

theorem rowScales_rowBytes {ib half : ℕ} (hib : ib < nb) (hhalf : half < L.scales) :
    L.rowScales (L.rowBytes nb codes e) ib half = e ib half := by
  rw [rowScales, blockAt_rowBytes hib (by rw [blockSize]; omega), List.getD_eq_getElem?_getD,
    blockBytes_scale _ _ hhalf, Option.getD_some]

end

theorem rowBytes_rowCodes {nb : ℕ} {data : List (BitVec 8)}
    (hlen : data.length = nb * L.blockSize) :
    L.rowBytes nb (L.rowCodes data) (L.rowScales data) = data := by
  refine FlatRows.eq_flatMap hlen (fun ib _ => blockBytes_length _ _) fun ib hib b hb => ?_
  have hat : ib * L.blockSize + b < data.length := by
    rw [hlen]
    calc ib * L.blockSize + b < ib * L.blockSize + L.blockSize := by omega
      _ = (ib + 1) * L.blockSize := (Nat.succ_mul ib _).symm
      _ ≤ nb * L.blockSize := Nat.mul_le_mul_right _ hib
  have hbyte : data[ib * L.blockSize + b]? = some (L.blockAt data ib b) := by
    rw [blockAt, List.getD_eq_getElem?_getD, List.getElem?_eq_getElem hat, Option.getD_some]
  rw [hbyte]
  rcases Nat.lt_or_ge b L.payload with hlow | hhigh
  · rw [blockBytes_payload _ _ hlow, rowCodes, L.pack_unpack _ b hlow]
  · obtain ⟨half, rfl⟩ := Nat.exists_eq_add_of_le hhigh
    rw [blockBytes_scale _ _ (by rw [blockSize] at hb; omega), rowScales]

theorem validateRowData_iff (hpos : 0 < L.blockSize) (data : List (BitVec 8)) :
    L.validateRowData data = true ↔ ∃ nb, data.length = nb * L.blockSize ∧
      ∀ ib < nb, ∀ half < L.scales, (L.rowScales data ib half).toNat ≤ 0x7e := by
  have hvalid : ∀ e : BitVec 8, scaleIsValid e = true ↔ e.toNat ≤ 0x7e := by
    intro e
    rw [scaleIsValid, decide_eq_true_iff, BitVec.le_def]
    rfl
  unfold validateRowData
  split_ifs with hrest
  · refine iff_of_false id ?_
    rintro ⟨nb, hlen, -⟩
    exact hrest (by rw [hlen, Nat.mul_mod_left])
  · simp only [List.all_eq_true, List.mem_range, hvalid]
    constructor
    · intro hall
      exact ⟨_, (Nat.div_mul_cancel (Nat.dvd_of_mod_eq_zero (not_not.mp hrest))).symm, hall⟩
    · rintro ⟨nb, hlen, hall⟩
      rw [hlen, Nat.mul_div_cancel _ hpos]
      exact hall

end Layout
end RocmFpx.Fpx
