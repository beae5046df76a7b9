import RocmFpx.SizeT

/-!
Ranges of a 64-bit address space. A region is an allocated range; an access of some bytes from an
address on, which may wrap around the end of the address space, is within a region if all its
bytes are.
-/

namespace RocmFpx

structure Region where
  base : ℕ
  size : ℕ
  size_le : size ≤ sizeMax
  end_le : base + size ≤ 2 ^ 64

namespace Region

variable (r : Region)

def Disjoint (r s : Region) : Prop := r.base + r.size ≤ s.base ∨ s.base + s.size ≤ r.base

/-- The addresses of `size` bytes from `start` on, modulo the address space, are in the region. -/
def Contains (start size : ℕ) : Prop :=
  ∀ i < size, r.base ≤ wrapSize (start + i) ∧ wrapSize (start + i) < r.base + r.size

variable {r} {start size : ℕ}

theorem contains_zero : r.Contains start 0 := fun _ h => absurd h (Nat.not_lt_zero _)

theorem contains_of_le (hbase : r.base ≤ start) (hend : start + size ≤ r.base + r.size) :
    r.Contains start size := by
  intro i hi
  have hle := r.end_le
  rw [wrapSize, Nat.mod_eq_of_lt (by omega)]
  omega

theorem contains_iff (hstart : start < 2 ^ 64) (hsize : 0 < size) (hlt : size < 2 ^ 64) :
    r.Contains start size ↔ r.base ≤ start ∧ start + size ≤ r.base + r.size := by
  refine ⟨fun h => ?_, fun h => contains_of_le h.1 h.2⟩
  have hle := r.end_le
  have hsz := r.size_le
  rw [sizeMax] at hsz
  have hfirst := h 0 hsize
  rw [Nat.add_zero, wrapSize, Nat.mod_eq_of_lt hstart] at hfirst
  refine ⟨hfirst.1, ?_⟩
  by_contra hover
  rcases Nat.lt_or_ge (start + (size - 1)) (2 ^ 64) with hin | hwrap
  · -- the last byte is beyond the end
    have hlast := h (size - 1) (by omega)
    rw [wrapSize, Nat.mod_eq_of_lt hin] at hlast
    omega
  · -- the bytes before and after the wrap cannot both be inside
    have hzero := h (2 ^ 64 - start) (by omega)
    have htop := h (2 ^ 64 - 1 - start) (by omega)
    rw [show start + (2 ^ 64 - start) = 2 ^ 64 by omega, wrapSize, Nat.mod_self] at hzero
    rw [show start + (2 ^ 64 - 1 - start) = 2 ^ 64 - 1 by omega, wrapSize,
      Nat.mod_eq_of_lt (by omega)] at htop
    omega

end Region
end RocmFpx
