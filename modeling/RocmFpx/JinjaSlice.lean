import Mathlib.Algebra.Order.Group.Unbundled.Int
import Mathlib.Tactic.Common
import Mathlib.Tactic.Ring

/-!
Slices of arrays and strings in the template engine, against the slices of Python. Indices are 64-bit
integers; leaving their range is undefined, here `none`.
-/

namespace RocmFpx
namespace Jinja

variable {α : Type}

/-- `int64_t` holds a value. -/
def FitsInt64 (n : ℤ) : Prop := -2 ^ 63 ≤ n ∧ n < 2 ^ 63

instance (n : ℤ) : Decidable (FitsInt64 n) := inferInstanceAs (Decidable (_ ∧ _))

theorem sign_advance {step i stop : ℤ} (h : step.sign * i < step.sign * stop) :
    step.sign * (i + step) = step.sign * i + |step| ∧ 0 < |step| := by
  refine ⟨by rw [mul_add, Int.sign_mul_self_eq_abs], abs_pos.mpr fun hzero => ?_⟩
  rw [hzero, Int.sign_zero, zero_mul, zero_mul] at h
  exact lt_irrefl 0 h

/-- `array[i]` under the test that `i` is an index. -/
def item (array : List α) (i : ℤ) : Option α := if 0 ≤ i then array[i.toNat]? else none

/-- The loop of `slice` from index `i`, with the direction of `step`. -/
def sliceLoop (array : List α) (step stop i : ℤ) : Option (List α) :=
  if FitsInt64 i ∧ FitsInt64 (step.sign * i) then
    if _h : step.sign * i < step.sign * stop then
      (sliceLoop array step stop (i + step)).map fun rest => (item array i).toList ++ rest
    else some []
  else none
termination_by (step.sign * stop - step.sign * i).toNat
decreasing_by
  have hstep := sign_advance _h
  omega

/-- The bounds as `slice` clamps them. -/
def startVal (len start step : ℤ) : ℤ :=
  if 0 ≤ step then if start < 0 then max (len + start) 0 else min start len
  else if start < 0 then max (len + start) 0 else min start (len - 1)

def stopVal (len stop step : ℤ) : ℤ :=
  if 0 ≤ step then if stop < 0 then max (len + stop) 0 else min stop len
  else if stop < -1 then max (len + stop) (-1) else min stop (len - 1)

def slice (array : List α) (start stop step : ℤ) : Option (List α) :=
  if step = 0 then some []
  else sliceLoop array step (stopVal array.length stop step) (startVal array.length start step)

/-- The bounds that `member_expression` fills in. -/
def startArg (len : ℤ) (start : Option ℤ) (step : ℤ) : ℤ :=
  start.getD (if step < 0 then len - 1 else 0)

def stopArg (len : ℤ) (stop : Option ℤ) (step : ℤ) : ℤ :=
  stop.getD (if step < 0 then -1 else len)

/-- `value[start:stop:step]`. -/
def memberSlice (array : List α) (start stop : Option ℤ) (step : ℤ) : Option (List α) :=
  slice array (startArg array.length start step) (stopArg array.length stop step) step

/-! ## Slices of Python -/

/-- An explicit bound is counted from the end when negative, then clamped. -/
def pyBound (len lower upper : ℤ) (bound : ℤ) : ℤ :=
  if bound < 0 then max (len + bound) lower else min bound upper

def pyLower (step : ℤ) : ℤ := if step < 0 then -1 else 0

def pyUpper (len step : ℤ) : ℤ := if step < 0 then len - 1 else len

def pyStart (len : ℤ) (start : Option ℤ) (step : ℤ) : ℤ :=
  match start with
  | none => if step < 0 then pyUpper len step else pyLower step
  | some start => pyBound len (pyLower step) (pyUpper len step) start

def pyStop (len : ℤ) (stop : Option ℤ) (step : ℤ) : ℤ :=
  match stop with
  | none => if step < 0 then pyLower step else pyUpper len step
  | some stop => pyBound len (pyLower step) (pyUpper len step) stop

/-- The length of `range(start, stop, step)`. -/
def pyCount (start stop step : ℤ) : ℕ :=
  if step.sign * start < step.sign * stop then
    ((step.sign * stop - step.sign * start - 1) / |step|).toNat + 1 else 0

/-- The items at `range(start, stop, step)`. -/
def select (array : List α) (start stop step : ℤ) : List α :=
  (List.range (pyCount start stop step)).filterMap fun k : ℕ => item array (start + k * step)

def pySlice (array : List α) (start stop : Option ℤ) (step : ℤ) : List α :=
  select array (pyStart array.length start step) (pyStop array.length stop step) step

/-! ## The loop -/

variable {array : List α} {step stop i : ℤ}

theorem pyCount_succ (h : step.sign * i < step.sign * stop) :
    pyCount i stop step = pyCount (i + step) stop step + 1 := by
  obtain ⟨hnext, hpos⟩ := sign_advance h
  rw [pyCount, pyCount, if_pos h, hnext]
  set x := step.sign * i
  set y := step.sign * stop
  split_ifs with hgoes
  · have hdiv : (y - x - 1) / |step| = (y - (x + |step|) - 1) / |step| + 1 := by
      rw [show y - x - 1 = (y - (x + |step|) - 1) + 1 * |step| by ring,
        Int.add_mul_ediv_right _ _ hpos.ne']
    have hnonneg : 0 ≤ (y - (x + |step|) - 1) / |step| :=
      Int.ediv_nonneg (by omega) hpos.le
    omega
  · rw [Int.ediv_eq_zero_of_lt (by omega) (by omega), Int.toNat_zero]

theorem select_nil (h : ¬ step.sign * i < step.sign * stop) : select array i stop step = [] := by
  rw [select, pyCount, if_neg h]
  rfl

theorem select_cons (h : step.sign * i < step.sign * stop) :
    select array i stop step = (item array i).toList ++ select array (i + step) stop step := by
  rw [select, pyCount_succ h, List.range_succ_eq_map, List.filterMap_cons, List.filterMap_map]
  have hitems : (fun k : ℕ => item array (i + k * step)) ∘ Nat.succ =
      fun k : ℕ => item array (i + step + k * step) := by
    funext k
    rw [Function.comp_apply, Nat.cast_succ, add_mul, one_mul, add_comm (k * step), add_assoc]
  rw [hitems, Nat.cast_zero, zero_mul, add_zero, select]
  cases item array i <;> rfl

/-- The index at which the loop stops. -/
def exitIndex (i stop step : ℤ) : ℤ := i + pyCount i stop step * step

/-- The loop never leaves the range of its index. -/
def Stays (i stop step : ℤ) : Prop :=
  FitsInt64 (exitIndex i stop step) ∧ FitsInt64 (step.sign * exitIndex i stop step)

instance (i stop step : ℤ) : Decidable (Stays i stop step) := inferInstanceAs (Decidable (_ ∧ _))

theorem stays_succ (h : step.sign * i < step.sign * stop) :
    Stays i stop step ↔ Stays (i + step) stop step := by
  have hexit : exitIndex i stop step = exitIndex (i + step) stop step := by
    rw [exitIndex, pyCount_succ h, exitIndex]
    push_cast
    ring
  rw [Stays, Stays, hexit]

theorem stays_stop (h : ¬ step.sign * i < step.sign * stop) :
    Stays i stop step ↔ FitsInt64 i ∧ FitsInt64 (step.sign * i) := by
  rw [Stays, exitIndex, pyCount, if_neg h, Nat.cast_zero, zero_mul, add_zero]

/-- Inside of the loop the index is in range; behind it, it may not be. -/
theorem sliceLoop_eq (len : ℤ) (hlen : len < 2 ^ 63) (hstop : -1 ≤ stop ∧ stop ≤ len)
    (hup : 0 < step → -1 ≤ i) (hdown : step < 0 → i ≤ len) :
    sliceLoop array step stop i =
      if Stays i stop step then some (select array i stop step) else none := by
  induction hn : pyCount i stop step generalizing i with
  | zero =>
    have hend : ¬ step.sign * i < step.sign * stop := fun h => by
      rw [pyCount_succ h] at hn
      cases hn
    rw [sliceLoop, dif_neg hend, select_nil hend]
    simp only [stays_stop hend]
  | succ n ih =>
    have hgoes : step.sign * i < step.sign * stop := by
      by_contra hend
      rw [pyCount, if_neg hend] at hn
      cases hn
    have hfits : FitsInt64 i ∧ FitsInt64 (step.sign * i) := by
      rcases lt_trichotomy step 0 with hneg | rfl | hpos
      · have hle := hdown hneg
        rw [Int.sign_eq_neg_one_of_neg hneg] at hgoes ⊢
        simp only [FitsInt64]
        omega
      · rw [Int.sign_zero, zero_mul, zero_mul] at hgoes
        exact absurd hgoes (lt_irrefl 0)
      · have hge := hup hpos
        rw [Int.sign_eq_one_of_pos hpos] at hgoes ⊢
        simp only [FitsInt64]
        omega
    have hrest := ih (i := i + step) (fun hpos => by have := hup hpos; omega)
      (fun hneg => by have := hdown hneg; omega)
      (Nat.succ.inj ((pyCount_succ hgoes).symm.trans hn))
    rw [sliceLoop, if_pos hfits, dif_pos hgoes, hrest, select_cons hgoes]
    simp only [stays_succ hgoes]
    split_ifs <;> rfl

/-! ## The bounds -/

/-- The bounds with which the code misses: a backward slice of something to an explicit `-1`, or
from before the first item with no stop or one that far before. -/
def MissesBounds (len : ℤ) (start stop : Option ℤ) (step : ℤ) : Prop :=
  step < 0 ∧ 0 < len ∧
    (stop = some (-1) ∨ (∃ s ∈ start, s < -len) ∧ ∀ t ∈ stop, t < -len)

section
variable (array) (start stop : Option ℤ) (step : ℤ)

/-- The bounds that the loop of the code runs between. -/
def loopStart : ℤ := startVal array.length (startArg array.length start step) step

def loopStop : ℤ := stopVal array.length (stopArg array.length stop step) step

theorem memberSlice_eq (hlen : array.length < 2 ^ 63) (hstep : step ≠ 0) :
    memberSlice array start stop step =
      if Stays (loopStart array start step) (loopStop array stop step) step then
        some (select array (loopStart array start step) (loopStop array stop step) step)
      else none := by
  rw [memberSlice, slice, if_neg hstep]
  refine sliceLoop_eq array.length (by exact_mod_cast hlen) ?_ (fun hpos => ?_)
    fun hneg => ?_
  · rw [stopVal]
    split_ifs <;> omega
  · rw [startVal]
    split_ifs <;> omega
  · rw [startVal]
    split_ifs <;> omega

theorem select_of_empty (hempty : array = []) (first last : ℤ) :
    select array first last step = [] := by
  subst hempty
  refine List.filterMap_eq_nil_iff.mpr fun k _ => ?_
  rw [item]
  split_ifs <;> rfl

/-- A backward slice down to the first item is not empty. -/
theorem select_down (hneg : step < 0) (first : ℤ) (hfirst : 0 ≤ first)
    (hlt : first < array.length) : select array first (-1) step ≠ [] := by
  have hgoes : step.sign * first < step.sign * (-1) := by
    rw [Int.sign_eq_neg_one_of_neg hneg]
    omega
  have hitem : first.toNat < array.length := by omega
  rw [select_cons hgoes, item, if_pos hfirst, List.getElem?_eq_getElem hitem]
  exact List.cons_ne_nil _ _

theorem select_backward_nil (hneg : step < 0) {first last : ℤ} (h : first ≤ last) :
    select array first last step = [] := by
  refine select_nil ?_
  rw [Int.sign_eq_neg_one_of_neg hneg]
  omega

theorem backward_bounds_iff (hneg : step < 0) (hlen : 0 < array.length) :
    select array (loopStart array start step) (loopStop array stop step) step =
      pySlice array start stop step ↔ ¬ MissesBounds array.length start stop step := by
  have hstart : 0 ≤ loopStart array start step ∧ loopStart array start step < array.length := by
    rw [loopStart, startVal, if_neg (by omega)]
    split_ifs <;> omega
  have hpyStart : pyStart array.length start step ≤ (array.length : ℤ) - 1 := by
    cases start with
    | none => simp only [pyStart, pyUpper, if_pos hneg, le_refl]
    | some s =>
      simp only [pyStart, pyBound, pyLower, pyUpper, if_pos hneg]
      split_ifs <;> omega
  by_cases hlast : stop = some (-1)
  · have hcode : loopStop array stop step = -1 := by
      rw [loopStop, hlast, stopArg, Option.getD_some, stopVal, if_neg (by omega), if_neg (by omega)]
      omega
    have hpy : pyStop array.length stop step = (array.length : ℤ) - 1 := by
      rw [hlast, pyStop, pyBound, if_pos (by omega), pyLower, if_pos hneg]
      omega
    rw [pySlice, hcode, hpy, select_backward_nil array step hneg hpyStart]
    exact iff_of_false (select_down array step hneg _ hstart.1 hstart.2)
      fun h => h ⟨hneg, by omega, .inl hlast⟩
  have hstops : loopStop array stop step = pyStop array.length stop step := by
    cases stop with
    | none =>
      simp only [loopStop, stopArg, stopVal, pyStop, pyLower, Option.getD_none, if_pos hneg]
      split_ifs <;> omega
    | some t =>
      have ht : t ≠ -1 := fun h => hlast (congrArg some h)
      simp only [loopStop, stopArg, stopVal, pyStop, pyBound, pyLower, pyUpper, Option.getD_some,
        if_pos hneg]
      split_ifs <;> omega
  by_cases hbefore : ∃ s ∈ start, s < -(array.length : ℤ)
  · obtain ⟨s, hstart', hs⟩ := hbefore
    cases hstart'
    have hcode : loopStart array (some s) step = 0 := by
      simp only [loopStart, startArg, startVal, Option.getD_some]
      split_ifs <;> omega
    have hpy : pyStart array.length (some s) step = -1 := by
      simp only [pyStart, pyBound, pyLower, if_pos hneg]
      split_ifs <;> omega
    have hpyStop : -1 ≤ pyStop array.length stop step ∧
        (pyStop array.length stop step = -1 ↔ ∀ t ∈ stop, t < -(array.length : ℤ)) := by
      cases stop with
      | none =>
        simp only [pyStop, pyLower, if_pos hneg]
        exact ⟨le_rfl, iff_of_true trivial fun t ht => by cases ht⟩
      | some t =>
        have ht : t ≠ -1 := fun h => hlast (congrArg some h)
        simp only [pyStop, pyBound, pyLower, pyUpper, if_pos hneg, Option.mem_some_iff,
          forall_eq']
        split_ifs <;> omega
    rw [pySlice, hcode, hpy, hstops, select_backward_nil array step hneg hpyStop.1]
    by_cases hfar : ∀ t ∈ stop, t < -(array.length : ℤ)
    · rw [hpyStop.2.mpr hfar]
      exact iff_of_false (select_down array step hneg 0 le_rfl (by omega))
        fun h => h ⟨hneg, by omega, .inr ⟨⟨s, rfl, hs⟩, hfar⟩⟩
    · have hne := mt hpyStop.2.mp hfar
      refine iff_of_true (select_backward_nil array step hneg (by omega)) fun h => ?_
      exact h.2.2.elim hlast fun h => hfar h.2
  · have hstarts : loopStart array start step = pyStart array.length start step := by
      cases start with
      | none =>
        simp only [loopStart, startArg, startVal, pyStart, pyUpper, Option.getD_none, if_pos hneg]
        split_ifs <;> omega
      | some s =>
        have hs : ¬ s < -(array.length : ℤ) := fun h => hbefore ⟨s, rfl, h⟩
        simp only [loopStart, startArg, startVal, pyStart, pyBound, pyLower, pyUpper,
          Option.getD_some, if_pos hneg]
        split_ifs <;> omega
    rw [pySlice, hstarts, hstops]
    refine iff_of_true rfl fun h => ?_
    rcases h.2.2 with h | h
    · exact hlast h
    · exact hbefore h.1

theorem forward_bounds (hpos : 0 < step) :
    select array (loopStart array start step) (loopStop array stop step) step =
      pySlice array start stop step := by
  have hneg : ¬ step < 0 := by omega
  have hstart : loopStart array start step = pyStart array.length start step := by
    cases start with
    | none =>
      simp only [loopStart, startArg, startVal, pyStart, pyLower, Option.getD_none, if_neg hneg]
      split_ifs <;> omega
    | some s =>
      simp only [loopStart, startArg, startVal, pyStart, pyBound, pyLower, pyUpper,
        Option.getD_some, if_neg hneg]
      split_ifs <;> omega
  have hstop : loopStop array stop step = pyStop array.length stop step := by
    cases stop with
    | none =>
      simp only [loopStop, stopArg, stopVal, pyStop, pyUpper, Option.getD_none, if_neg hneg]
      split_ifs <;> omega
    | some t =>
      simp only [loopStop, stopArg, stopVal, pyStop, pyBound, pyLower, pyUpper, Option.getD_some,
        if_neg hneg]
      split_ifs <;> omega
  rw [pySlice, hstart, hstop]

theorem select_bounds_iff (hstep : step ≠ 0) :
    select array (loopStart array start step) (loopStop array stop step) step =
      pySlice array start stop step ↔ ¬ MissesBounds array.length start stop step := by
  rcases lt_or_gt_of_ne hstep with hneg | hpos
  · by_cases hempty : array = []
    · rw [pySlice, select_of_empty array step hempty, select_of_empty array step hempty]
      refine iff_of_true rfl fun h => ?_
      rw [hempty] at h
      exact lt_irrefl _ h.2.1
    · exact backward_bounds_iff array start stop step hneg (List.length_pos_iff.mpr hempty)
  · exact iff_of_true (forward_bounds array start stop step hpos) fun h => by
      have := h.1
      omega

end

/-- The code selects what Python selects exactly when the index of its loop stays in 64 bits and
the bounds are not those that it misses. -/
theorem memberSlice_iff (array : List α) (hlen : array.length < 2 ^ 63) (start stop : Option ℤ)
    (step : ℤ) (hstep : step ≠ 0) :
    memberSlice array start stop step = some (pySlice array start stop step) ↔
      Stays (loopStart array start step) (loopStop array stop step) step ∧
        ¬ MissesBounds array.length start stop step := by
  rw [memberSlice_eq array start stop step hlen hstep]
  split_ifs with hstays
  · rw [Option.some_inj, select_bounds_iff array start stop step hstep]
    exact (and_iff_right hstays).symm
  · exact iff_of_false not_false fun h => hstays h.1

theorem memberSlice_reverse :
    memberSlice [1, 2, 3] none none (-1) = some (pySlice [1, 2, 3] none none (-1)) ↔
      Stays (loopStart [1, 2, 3] none (-1)) (loopStop [1, 2, 3] none (-1)) (-1) ∧
        ¬ MissesBounds (([1, 2, 3] : List ℕ).length) none none (-1) :=
  memberSlice_iff [1, 2, 3] (by decide) none none (-1) (by decide)

/-- Backwards to an explicit `-1`, the last item, nothing is to be selected. -/
theorem memberSlice_to_last : ¬ ∀ (array : List ℕ) (start stop : Option ℤ) (step : ℤ),
    array.length < 2 ^ 63 → step ≠ 0 →
      memberSlice array start stop step = some (pySlice array start stop step) := by
  intro h
  have hcode : memberSlice [1, 2] none (some (-1)) (-1) = some [2, 1] := by
    rw [memberSlice_eq _ _ _ _ (by decide) (by decide)]
    decide
  exact absurd (hcode.symm.trans (h [1, 2] none (some (-1)) (-1) (by decide) (by decide)))
    (by decide)

end Jinja
end RocmFpx
