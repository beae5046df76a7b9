import Mathlib.Data.List.DropRight
import Mathlib.Data.List.OfFn
import Mathlib.Data.Nat.ModEq

/-!
The ring buffer of the samplers: pushing to a full one drops its oldest element. Seen from outside
it holds the last elements of what was pushed.
-/

namespace RocmFpx

/-- `ring_buffer`, of a capacity that is not zero. -/
structure RingBuffer (α : Type) where
  capacity : ℕ
  sz : ℕ
  first : ℕ
  pos : ℕ
  data : List α
  data_length : data.length = capacity
  sz_le : sz ≤ capacity
  first_lt : first < capacity
  pos_eq : pos = (first + sz) % capacity

namespace RingBuffer

variable {α : Type}

def new (capacity : ℕ) (h : 0 < capacity) (fill : α) : RingBuffer α where
  capacity := capacity
  sz := 0
  first := 0
  pos := 0
  data := List.replicate capacity fill
  data_length := List.length_replicate
  sz_le := Nat.zero_le _
  first_lt := h
  pos_eq := (Nat.zero_mod _).symm

variable (b : RingBuffer α)

theorem capacity_pos : 0 < b.capacity := Nat.lt_of_le_of_lt (Nat.zero_le _) b.first_lt

def get (i : ℕ) : α :=
  b.data.get ⟨(b.first + i) % b.capacity,
    Nat.lt_of_lt_of_eq (Nat.mod_lt _ b.capacity_pos) b.data_length.symm⟩

def front : Option α := if b.sz = 0 then none else some (b.get 0)

def clear : RingBuffer α where
  capacity := b.capacity
  sz := 0
  first := 0
  pos := 0
  data := b.data
  data_length := b.data_length
  sz_le := Nat.zero_le _
  first_lt := b.capacity_pos
  pos_eq := (Nat.zero_mod _).symm

def pushBack (value : α) : RingBuffer α where
  capacity := b.capacity
  sz := if b.sz = b.capacity then b.sz else b.sz + 1
  first := if b.sz = b.capacity then (b.first + 1) % b.capacity else b.first
  pos := (b.pos + 1) % b.capacity
  data := b.data.set b.pos value
  data_length := List.length_set.trans b.data_length
  sz_le := by
    have h := b.sz_le
    split_ifs <;> omega
  first_lt := by
    split_ifs
    · exact Nat.mod_lt _ b.capacity_pos
    · exact b.first_lt
  pos_eq := by
    rw [b.pos_eq, Nat.mod_add_mod]
    split_ifs with hfull
    · rw [Nat.mod_add_mod, Nat.add_right_comm]
    · rw [Nat.add_assoc]

def toVector : List α := List.ofFn fun i : Fin b.sz => b.get i

@[simp] theorem toVector_length : b.toVector.length = b.sz := List.length_ofFn

theorem toVector_getElem? (i : ℕ) : b.toVector[i]? =
    if i < b.sz then b.data[(b.first + i) % b.capacity]? else none := by
  rw [toVector, List.getElem?_ofFn]
  split_ifs
  · exact (List.getElem?_eq_getElem _).symm
  · rfl

theorem front_eq : b.front = b.toVector.head? := by
  rw [List.head?_eq_getElem?, toVector_getElem?, front]
  cases b.sz with
  | zero => rfl
  | succ n =>
    rw [if_neg (Nat.succ_ne_zero n), if_pos (Nat.succ_pos n)]
    exact (List.getElem?_eq_getElem _).symm

/-! ## Pushing -/

theorem slot_ne {first capacity i j : ℕ} (hij : i < j) (hj : j < i + capacity) :
    (first + i) % capacity ≠ (first + j) % capacity := by
  intro h
  have hdvd : capacity ∣ j - i := by
    have hmod := (Nat.modEq_iff_dvd' (by omega)).mp h
    rwa [Nat.add_sub_add_left] at hmod
  exact absurd (Nat.le_of_dvd (by omega) hdvd) (by omega)

/-- What a push leaves: the oldest element goes when the buffer is full. -/
theorem toVector_pushBack (value : α) :
    (b.pushBack value).toVector =
      (if b.sz = b.capacity then b.toVector.tail else b.toVector) ++ [value] := by
  have hpos := b.capacity_pos
  have hle := b.sz_le
  have hwritten : (b.data.set b.pos value)[(b.first + b.sz) % b.capacity]? = some value := by
    rw [← b.pos_eq, List.getElem?_set_self]
    rw [b.data_length, b.pos_eq]
    exact Nat.mod_lt _ hpos
  have hkept : ∀ i, (b.first + i) % b.capacity ≠ (b.first + b.sz) % b.capacity →
      (b.data.set b.pos value)[(b.first + i) % b.capacity]? =
        b.data[(b.first + i) % b.capacity]? :=
    fun i hne => List.getElem?_set_ne (by rw [b.pos_eq]; exact Ne.symm hne)
  refine List.ext_getElem? fun i => ?_
  rw [toVector_getElem?, List.getElem?_append]
  by_cases hfull : b.sz = b.capacity
  · have hslot : ((b.first + 1) % b.capacity + i) % b.capacity =
        (b.first + (i + 1)) % b.capacity := by
      rw [Nat.mod_add_mod, Nat.add_assoc, Nat.add_comm 1 i]
    simp only [pushBack, if_pos hfull, List.length_tail, toVector_length, hslot,
      List.getElem?_tail, toVector_getElem?]
    rcases Nat.lt_trichotomy (i + 1) b.sz with hlt | heq | hgt
    · rw [if_pos (by omega), if_pos (by omega), if_pos hlt, hkept]
      exact slot_ne hlt (by omega)
    · rw [if_pos (by omega), if_neg (by omega), heq, hwritten,
        show i - (b.sz - 1) = 0 by omega, List.getElem?_cons_zero]
    · rw [if_neg (by omega), if_neg (by omega)]
      exact (List.getElem?_eq_none (by rw [List.length_singleton]; omega)).symm
  · simp only [pushBack, if_neg hfull, toVector_length, toVector_getElem?]
    rcases Nat.lt_trichotomy i b.sz with hlt | heq | hgt
    · rw [if_pos (by omega), if_pos hlt, if_pos hlt, hkept]
      exact slot_ne hlt (by omega)
    · rw [if_pos (by omega), if_neg (by omega), heq, hwritten, Nat.sub_self,
        List.getElem?_cons_zero]
    · rw [if_neg (by omega), if_neg (by omega)]
      exact (List.getElem?_eq_none (by rw [List.length_singleton]; omega)).symm

theorem toVector_pushBack_rtake {xs : List α} (h : b.toVector = xs.rtake b.capacity) (value : α) :
    (b.pushBack value).toVector = (xs ++ [value]).rtake b.capacity := by
  have hpos := b.capacity_pos
  have hsz : b.sz = min b.capacity xs.length := by
    rw [← toVector_length, h, List.rtake, List.length_drop]
    omega
  rw [toVector_pushBack, h, List.rtake, List.rtake, List.length_append, List.length_singleton,
    List.drop_append_of_le_length (by omega)]
  congr 1
  split_ifs with hfull
  · rw [List.tail_drop]
    congr 1
    omega
  · rw [show xs.length - b.capacity = 0 by omega,
      show xs.length + 1 - b.capacity = 0 by omega]

/-! ## Reading from the end -/

/-- The element `i` before the last one. -/
def rat (i : ℕ) : Option α := if i < b.sz then some (b.get (b.sz - i - 1)) else none

theorem rat_eq (i : ℕ) : b.rat i = b.toVector.reverse[i]? := by
  rw [rat]
  split_ifs with hi
  · have hlt : b.sz - 1 - i < b.sz := by omega
    rw [List.getElem?_reverse (by rwa [toVector_length]), toVector_length, Nat.sub_right_comm,
      toVector_getElem?, if_pos hlt]
    exact (List.getElem?_eq_getElem _).symm
  · refine (List.getElem?_eq_none ?_).symm
    rw [List.length_reverse, toVector_length]
    exact Nat.le_of_not_lt hi

end RingBuffer
end RocmFpx
