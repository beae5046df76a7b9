import Mathlib.MeasureTheory.Measure.Lebesgue.Basic
import Mathlib.Probability.ProbabilityMassFunction.Monad

/-!
Laws of what a program computes from one uniform draw: the outcome of a comparison, and an entry of
a list picked with a probability in proportion to its weight.
-/

namespace RocmFpx.UniformDraw

open MeasureTheory Set

/-- The entry in which `u` falls when the weights are laid end to end. -/
def pick {α K : Type*} [AddCommGroup K] [LinearOrder K] (default : α) : List (α × K) → K → α
  | [], _ => default
  | e :: es, u => if u - e.2 ≤ 0 then e.1 else pick default es (u - e.2)

/-- A draw from the unit interval. -/
noncomputable def uniform : Measure ℝ := volume.restrict (Ico 0 1)

instance : IsProbabilityMeasure uniform := ⟨by simp [uniform]⟩

section Law

variable {α : Type*} [Countable α] [MeasurableSpace α] [MeasurableSingletonClass α]

/-- The law of a value computed from a draw. -/
noncomputable def draw (f : ℝ → α) (hf : Measurable f) : PMF α :=
  haveI := Measure.isProbabilityMeasure_map (μ := uniform) hf.aemeasurable
  (uniform.map f).toPMF

theorem draw_apply {f : ℝ → α} (hf : Measurable f) (a : α) :
    draw f hf a = uniform (preimage f {a}) := by
  have := Measure.isProbabilityMeasure_map (μ := uniform) hf.aemeasurable
  rw [draw, Measure.toPMF_apply, Measure.map_apply hf (measurableSet_singleton a)]

end Law

/-! ## Comparisons -/

theorem uniform_lt (c : ℝ) : uniform {u | u < c} = ENNReal.ofReal (min 1 c) := by
  have hset : {u : ℝ | u < c} ∩ Ico 0 1 = Ico 0 (min 1 c) := by
    ext u
    simp only [mem_inter_iff, mem_ofPred_eq, mem_Ico, lt_min_iff]
    tauto
  rw [uniform, Measure.restrict_apply' measurableSet_Ico, hset, Real.volume_Ico, sub_zero]

/-! ## Picking -/

/-- The weight of all entries for `a`. -/
def massOf {α : Type*} [DecidableEq α] (es : List (α × ℝ)) (a : α) : ℝ :=
  (es.map fun e => if e.1 = a then e.2 else 0).sum

theorem massOf_cons {α : Type*} [DecidableEq α] (e : α × ℝ) (es : List (α × ℝ)) (a : α) :
    massOf (e :: es) a = (if e.1 = a then e.2 else 0) + massOf es a := by
  rw [massOf, List.map_cons, List.sum_cons, massOf]

theorem massOf_nonneg {α : Type*} [DecidableEq α] {es : List (α × ℝ)} (h : ∀ e ∈ es, 0 ≤ e.2)
    (a : α) : 0 ≤ massOf es a := by
  refine List.sum_nonneg fun w hw => ?_
  obtain ⟨e, he, rfl⟩ := List.mem_map.mp hw
  split_ifs
  · exact h e he
  · exact le_rfl

section Pick

variable {α : Type*} [MeasurableSpace α] {default : α}

theorem measurable_pick (es : List (α × ℝ)) : Measurable (pick default es) := by
  induction es with
  | nil => exact measurable_const
  | cons e es ih =>
    refine Measurable.ite ?_ measurable_const (ih.comp (measurable_id.sub_const e.2))
    exact measurableSet_le (measurable_id.sub_const e.2) measurable_const

variable [DecidableEq α] [MeasurableSingletonClass α]

omit [MeasurableSpace α] [MeasurableSingletonClass α] in
theorem pick_cons {e : α × ℝ} {es : List (α × ℝ)} (he : 0 ≤ e.2)
    (hsum : 0 ≤ (es.map Prod.snd).sum) (a : α) :
    Ioc 0 ((e :: es).map Prod.snd).sum ∩ preimage (pick default (e :: es)) {a} =
      (if e.1 = a then Ioc 0 e.2 else ∅) ∪ preimage (fun v => v + -e.2)
        (Ioc 0 (es.map Prod.snd).sum ∩ preimage (pick default es) {a}) := by
  ext v
  simp only [List.map_cons, List.sum_cons, mem_inter_iff, mem_Ioc, mem_preimage,
    mem_singleton_iff, mem_union, pick, ← sub_eq_add_neg]
  by_cases hv : v - e.2 ≤ 0
  · rw [if_pos hv]
    split_ifs with ha
    · simp only [mem_Ioc]
      constructor
      · exact fun hin => .inl ⟨hin.1.1, by linarith⟩
      · rintro (hin | hin)
        · exact ⟨⟨hin.1, by linarith [hin.2]⟩, ha⟩
        · linarith [hin.1.1]
    · simp only [mem_empty_iff_false, false_or]
      constructor
      · exact fun hin => absurd hin.2 ha
      · exact fun hin => by linarith [hin.1.1]
  · rw [if_neg hv]
    have hfirst : v ∉ (if e.1 = a then Ioc 0 e.2 else ∅) := by
      split_ifs
      · exact fun hin => hv (by linarith [hin.2])
      · exact notMem_empty v
    simp only [hfirst, false_or]
    constructor
    · exact fun hin => ⟨⟨by linarith, by linarith [hin.1.2]⟩, hin.2⟩
    · exact fun hin => ⟨⟨by linarith [hin.1.1], by linarith [hin.1.2]⟩, hin.2⟩

theorem volume_pick {es : List (α × ℝ)} (h : ∀ e ∈ es, 0 ≤ e.2) (a : α) :
    volume (Ioc 0 (es.map Prod.snd).sum ∩ preimage (pick default es) {a}) =
      ENNReal.ofReal (massOf es a) := by
  induction es with
  | nil => simp [massOf]
  | cons e es ih =>
    obtain ⟨he, hes⟩ := List.forall_mem_cons.mp h
    have hsum : 0 ≤ (es.map Prod.snd).sum := List.sum_nonneg fun w hw => by
      obtain ⟨e', he', rfl⟩ := List.mem_map.mp hw
      exact hes e' he'
    have hmeasurable : MeasurableSet (preimage (fun v => v + -e.2)
        (Ioc 0 (es.map Prod.snd).sum ∩ preimage (pick default es) {a})) :=
      (measurableSet_Ioc.inter (measurable_pick es (measurableSet_singleton a))).preimage
        (measurable_id.add_const _)
    have hdisjoint : Disjoint (if e.1 = a then Ioc 0 e.2 else ∅)
        (preimage (fun v => v + -e.2)
          (Ioc 0 (es.map Prod.snd).sum ∩ preimage (pick default es) {a})) := by
      rw [Set.disjoint_left]
      intro v hv hin
      split_ifs at hv
      · have hpos := hin.1.1
        simp only at hpos
        linarith [hv.2]
      · exact hv
    rw [pick_cons he hsum, measure_union hdisjoint hmeasurable, measure_preimage_add_right, ih hes,
      massOf_cons]
    split_ifs
    · rw [Real.volume_Ioc, sub_zero, ENNReal.ofReal_add he (massOf_nonneg hes a)]
    · rw [measure_empty, zero_add, zero_add]

/-- An entry is picked with its share of the sum of the weights. -/
theorem uniform_pick {es : List (α × ℝ)} (h : ∀ e ∈ es, 0 ≤ e.2)
    (hsum : 0 < (es.map Prod.snd).sum) (a : α) :
    uniform {u | pick default es (u * (es.map Prod.snd).sum) = a} =
      ENNReal.ofReal (massOf es a / (es.map Prod.snd).sum) := by
  generalize hs : (es.map Prod.snd).sum = s at hsum
  have hset : {u | pick default es (u * s) = a} ∩ Ioc 0 1 =
      preimage (fun u => u * s) (Ioc 0 s ∩ preimage (pick default es) {a}) := by
    ext u
    simp only [mem_inter_iff, mem_ofPred_eq, mem_Ioc, mem_preimage, mem_singleton_iff]
    have hpos : 0 < u * s ↔ 0 < u := by rw [mul_pos_iff_of_pos_right hsum]
    have hle : u * s ≤ s ↔ u ≤ 1 := by rw [mul_le_iff_le_one_left hsum]
    rw [hpos, hle]
    tauto
  rw [uniform, Measure.restrict_congr_set Ico_ae_eq_Ioc, Measure.restrict_apply' measurableSet_Ioc,
    hset, Real.volume_preimage_mul_right hsum.ne', ← hs, volume_pick h, hs, abs_of_pos
    (inv_pos.mpr hsum), ← ENNReal.ofReal_mul (inv_nonneg.mpr hsum.le), div_eq_inv_mul]

end Pick

end RocmFpx.UniformDraw

/-!
Speculative sampling: a value drafted from one distribution is accepted with a probability, and
replaced by a draw from the residual otherwise. With the probability `min 1 (t / q)` and the
residual in proportion to `t - q` the result is distributed as `t`.
-/

namespace RocmFpx.SpeculativeSampling

open scoped ENNReal

variable {α : Type*} {t q residual : PMF α} {accept : α → ℝ≥0∞}

theorem tsum_min_ne_top : (tsum fun a => min (q a) (t a)) ≠ ∞ :=
  ne_top_of_le_ne_top q.tsum_coe_ne_top (ENNReal.tsum_le_tsum fun _ => min_le_left _ _)

theorem tsum_sub_comm : (tsum fun a => q a - t a) = tsum fun a => t a - q a := by
  have hq : (tsum fun a => q a - t a) + (tsum fun a => min (q a) (t a)) = 1 := by
    rw [← ENNReal.tsum_add, ← q.tsum_coe]
    exact tsum_congr fun a => tsub_add_min
  have ht : (tsum fun a => t a - q a) + (tsum fun a => min (q a) (t a)) = 1 := by
    rw [← ENNReal.tsum_add, ← t.tsum_coe]
    exact tsum_congr fun a => by rw [min_comm, tsub_add_min]
  exact (ENNReal.add_left_inj tsum_min_ne_top).mp (hq.trans ht.symm)

theorem tsum_rejected (haccept : ∀ a, q a * accept a = min (q a) (t a)) :
    (tsum fun a => q a * (1 - accept a)) = tsum fun a => t a - q a := by
  rw [← tsum_sub_comm]
  refine tsum_congr fun a => ?_
  rw [ENNReal.mul_sub fun _ _ => q.apply_ne_top a, mul_one, haccept, tsub_min]

theorem tsum_emitted [DecidableEq α] (haccept : ∀ a, q a * accept a = min (q a) (t a))
    (hresidual : ∀ a, (tsum fun b => t b - q b) * residual a = t a - q a) (a : α) :
    (tsum fun d => q d * (accept d * (if d = a then 1 else 0) + (1 - accept d) * residual a)) =
      t a := by
  have hsplit : ∀ d, q d * (accept d * (if d = a then 1 else 0) + (1 - accept d) * residual a) =
      (if d = a then q d * accept d else 0) + q d * (1 - accept d) * residual a := by
    intro d
    split_ifs <;> ring
  rw [tsum_congr hsplit, ENNReal.tsum_add, tsum_ite_eq, ENNReal.tsum_mul_right,
    tsum_rejected haccept, hresidual, haccept, min_comm, add_comm, tsub_add_min]

end RocmFpx.SpeculativeSampling
