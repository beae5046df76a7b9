import RocmFpx.MoeCache
import RocmFpx.GuardedRuns

/-!
Runs of the cache of experts: what each plan does to the slots, the maps and the data in the
bank, in every run of plans.
-/

namespace RocmFpx
namespace MoeCache

open MoeCacheLru

section
variable {c : MoeCacheLru} {il : ℕ} {ids : List ℤ} {order : List ℕ}

/-- The selected experts, each once. -/
def selected (ids : List ℤ) : List ℕ := distinct (ids.map Int.toNat)

theorem selected_nodup (ids : List ℤ) : (selected ids).Nodup := distinct_nodup _

def InRange (c : MoeCacheLru) (ids : List ℤ) : Prop := ∀ id ∈ ids, 0 ≤ id ∧ id < c.nExpert

theorem mem_selected (h : InRange c ids) {e : ℕ} : e ∈ selected ids ↔ (e : ℤ) ∈ ids := by
  rw [selected, mem_distinct, List.mem_map]
  constructor
  · rintro ⟨id, hid, rfl⟩
    rwa [Int.toNat_of_nonneg (h id hid).1]
  · exact fun hid => ⟨e, hid, Int.toNat_natCast e⟩

theorem selected_lt (h : InRange c ids) : ∀ e ∈ selected ids, e < c.nExpert := fun e he => by
  have hlt := (h e ((mem_selected h).mp he)).2
  omega

theorem selected_length (h : InRange c ids) : (selected ids).length = ids.toFinset.card := by
  have hset : ids.toFinset = (selected ids).toFinset.image fun e : ℕ => (e : ℤ) := by
    ext id
    rw [List.mem_toFinset, Finset.mem_image]
    constructor
    · intro hid
      have hback := Int.toNat_of_nonneg (h id hid).1
      exact ⟨id.toNat, List.mem_toFinset.mpr ((mem_selected h).mpr (hback.symm ▸ hid)), hback⟩
    · rintro ⟨e, he, rfl⟩
      exact (mem_selected h).mp (List.mem_toFinset.mp he)
  rw [hset, Finset.card_image_of_injective _ Nat.cast_injective,
    List.toFinset_card_of_nodup (selected_nodup ids)]

theorem plan_abort (c : MoeCacheLru) (il : ℕ) (h : ¬ InRange c ids) : c.plan il ids = none := by
  refine if_pos ?_
  by_contra hnone
  refine h fun id hid => ?_
  by_contra hbad
  exact hnone ⟨id, hid, by omega⟩

/-- The cache with other scratch data. -/
def scratch (c : MoeCacheLru) (seen : ℕ → ℕ) (gen : ℕ) (uniq : List ℕ) : MoeCacheLru :=
  { c with seen := seen, seenGen := gen, uniq := uniq }

/-- The cache when the hits have gone to the back. -/
def afterHits (c : MoeCacheLru) (il : ℕ) (es : List ℕ) : MoeCacheLru :=
  { c with links := (c.residentSlots il es).foldl Links.touch c.links }

theorem plan_eq (il : ℕ) (hmarks : Marks c) (h : InRange c ids) :
    ∃ seen gen, gen < 2 ^ 32 ∧ (∀ e, seen e ≤ gen) ∧
      c.plan il ids =
        if c.nSlots < (selected ids).length then
          some (scratch c seen gen (selected ids), ⟨false, [], 0⟩)
        else
          let misses := ((selected ids).insertionSort (· ≤ ·)).foldl (miss il)
            (scratch (afterHits c il (selected ids)) seen gen
              ((selected ids).insertionSort (· ≤ ·)), [])
          some (misses.1, ⟨true, misses.2, (c.residentSlots il (selected ids)).length⟩) := by
  obtain ⟨seen, gen, heq, hgen, hle⟩ := distinct_eq hmarks (ids.map Int.toNat)
  refine ⟨seen, gen, hgen, hle, ?_⟩
  have hok : ¬ ∃ id ∈ ids, id < 0 ∨ (c.nExpert : ℤ) ≤ id := by
    rintro ⟨id, hid, hbad⟩
    have hin := h id hid
    omega
  rw [plan, if_neg hok, heq]
  by_cases hroom : c.nSlots < (selected ids).length
  · rw [if_pos hroom]
    exact if_pos hroom
  · rw [if_neg hroom]
    refine (if_neg hroom).trans ?_
    simp only [foldl_hit, Nat.zero_add]
    rfl

theorem scratch_consistent (h : Consistent c order) (seen : ℕ → ℕ) (gen : ℕ) (uniq : List ℕ) :
    Consistent (scratch c seen gen uniq) order :=
  ⟨h.represents, h.perm, h.key_of_slot, h.slot_of_key, h.slot_or_none, h.key_or_none⟩

/-- The slots of the residents that were not selected, from the least recently used on. -/
def spare (c : MoeCacheLru) (il : ℕ) (order es : List ℕ) : List ℕ :=
  order.filter (· ∉ c.residentSlots il es)

theorem spare_length (il : ℕ) (h : Consistent c order) {es : List ℕ} (hnodup : es.Nodup)
    (hlt : ∀ e ∈ es, e < c.nExpert) :
    (spare c il order es).length + (c.residentSlots il es).length = c.nSlots := by
  have hperm := (hits_consistent il h hnodup hlt).perm
  have hlength := hperm.length_eq
  rwa [List.length_append, List.length_range] at hlength

theorem missing_sorted (c : MoeCacheLru) (il : ℕ) (es : List ℕ) :
    (c.missing il (es.insertionSort (· ≤ ·))).Perm (c.missing il es) :=
  (List.perm_insertionSort (· ≤ ·) es).filter _

theorem misses_refilled (il : ℕ) (h : Consistent c order) (hin : InRange c ids)
    (hroom : (selected ids).length ≤ c.nSlots) (seen : ℕ → ℕ) (gen : ℕ) (uniq : List ℕ) :
    Refilled (scratch (afterHits c il (selected ids)) seen gen uniq) il
      (c.missing il ((selected ids).insertionSort (· ≤ ·))) (spare c il order (selected ids))
      (c.residentSlots il (selected ids)) []
      (((selected ids).insertionSort (· ≤ ·)).foldl (miss il)
        (scratch (afterHits c il (selected ids)) seen gen uniq, [])) := by
  have hnodup := selected_nodup ids
  have hlt := selected_lt hin
  have hperm := List.perm_insertionSort (· ≤ ·) (selected ids)
  refine foldl_miss _ [] (scratch_consistent (hits_consistent il h hnodup hlt) seen gen uniq)
    (hperm.nodup_iff.mpr hnodup) (fun e he => hlt e (hperm.mem_iff.mp he))
    (fun e he hres => mem_residentSlots.2 ⟨e, hperm.mem_iff.mp he, hres, rfl⟩) ?_
  have hspare := spare_length il h hnodup hlt
  have hcount := residentSlots_length (c := c) il (selected ids)
  have hmissing := (missing_sorted c il (selected ids)).length_eq
  change (c.missing il ((selected ids).insertionSort (· ≤ ·))).length ≤ _
  omega

end

/-! ## The uploads -/

/-- The fills that an upload stands for. -/
def spread (u : Upload) : List Fill := (List.range u.n).map fun k => ⟨u.expert + k, u.slot + k⟩

theorem mergeLength_spec (first : Fill) (n : ℕ) (fills : List Fill) :
    ∃ m ≤ fills.length, mergeLength first n fills = n + m ∧
      fills.take m = (List.range m).map fun k => ⟨first.expert + n + k, first.slot + n + k⟩ := by
  induction fills generalizing n with
  | nil => exact ⟨0, le_rfl, rfl, rfl⟩
  | cons f fills ih =>
    by_cases hnext : f.expert = first.expert + n ∧ f.slot = first.slot + n
    · obtain ⟨m, hm, hlength, htake⟩ := ih (n + 1)
      refine ⟨m + 1, Nat.succ_le_succ hm, ?_, ?_⟩
      · rw [mergeLength, if_pos hnext, hlength]
        omega
      · rw [List.take_succ_cons, htake, List.range_succ_eq_map, List.map_cons, List.map_map]
        refine congrArg₂ List.cons ?_ (List.map_congr_left fun k _ => ?_)
        · cases f
          simpa using hnext
        · simp only [Function.comp_apply, Nat.succ_eq_add_one, Fill.mk.injEq]
          omega
    · exact ⟨0, Nat.zero_le _, if_neg hnext, rfl⟩

theorem uploads_spread (fuel : ℕ) (fills : List Fill) (hfuel : fills.length ≤ fuel) :
    (uploads fuel fills).flatMap spread = fills := by
  induction fuel generalizing fills with
  | zero =>
    rw [List.length_eq_zero_iff.mp (Nat.le_zero.mp hfuel)]
    rfl
  | succ fuel ih =>
    cases fills with
    | nil => rfl
    | cons f fills =>
      obtain ⟨m, hm, hlength, htake⟩ := mergeLength_spec f 1 fills
      rw [List.length_cons] at hfuel
      simp only [uploads, hlength, Nat.add_comm 1 m, List.drop_succ_cons, List.flatMap_cons]
      rw [ih _ (by rw [List.length_drop]; omega), spread, List.range_succ_eq_map, List.map_cons,
        List.map_map]
      have hfront : (List.range m).map
          ((fun k => (⟨f.expert + k, f.slot + k⟩ : Fill)) ∘ Nat.succ) = fills.take m := by
        rw [htake]
        refine List.map_congr_left fun k _ => ?_
        simp only [Function.comp_apply, Nat.succ_eq_add_one, Fill.mk.injEq]
        omega
      rw [hfront, List.cons_append, List.take_append_drop]
      rfl

theorem mergedUploads_spread (fills : List Fill) :
    (mergedUploads fills).flatMap spread = fills :=
  uploads_spread _ fills le_rfl

section
variable {α : Type*} (weight : ℕ → α)

def writeFill (bank : ℕ → α) (f : Fill) : ℕ → α :=
  Function.update bank f.slot (weight f.expert)

theorem write_eq (bank : ℕ → α) (u : Upload) :
    write weight bank u = (spread u).foldl (writeFill weight) bank := by
  obtain ⟨expert, slot, n⟩ := u
  induction n with
  | zero =>
    funext s
    exact if_neg (by simp)
  | succ n ih =>
    have hspread : spread ⟨expert, slot, n + 1⟩ =
        spread ⟨expert, slot, n⟩ ++ [⟨expert + n, slot + n⟩] := by
      rw [spread, List.range_succ, List.map_append]
      rfl
    rw [hspread, List.foldl_append, ← ih]
    funext s
    simp only [List.foldl_cons, List.foldl_nil, writeFill, Function.update_apply, write]
    by_cases hs : s = slot + n
    · rw [if_pos hs, if_pos (by omega)]
      congr 1
      omega
    · rw [if_neg hs]
      by_cases hin : slot ≤ s ∧ s < slot + n
      · rw [if_pos hin, if_pos (by omega)]
      · rw [if_neg hin, if_neg (by omega)]

theorem uploaded_eq (bank : ℕ → α) (fills : List Fill) :
    (mergedUploads fills).foldl (write weight) bank = fills.foldl (writeFill weight) bank := by
  have hall : ∀ (us : List Upload) (bank : ℕ → α),
      us.foldl (write weight) bank = (us.flatMap spread).foldl (writeFill weight) bank := by
    intro us
    induction us with
    | nil => exact fun _ => rfl
    | cons u us ih =>
      intro bank
      rw [List.foldl_cons, ih, List.flatMap_cons, List.foldl_append, write_eq]
  rw [hall, mergedUploads_spread]

theorem foldl_writeFill_other (bank : ℕ → α) {fills : List Fill} {s : ℕ}
    (hs : s ∉ fills.map Fill.slot) : fills.foldl (writeFill weight) bank s = bank s := by
  induction fills generalizing bank with
  | nil => rfl
  | cons f fills ih =>
    rw [List.map_cons, List.mem_cons, not_or] at hs
    rw [List.foldl_cons, ih _ hs.2, writeFill, Function.update_of_ne hs.1]

theorem foldl_writeFill_filled (bank : ℕ → α) {fills : List Fill}
    (hnodup : (fills.map Fill.slot).Nodup) {f : Fill} (hf : f ∈ fills) :
    fills.foldl (writeFill weight) bank f.slot = weight f.expert := by
  induction fills generalizing bank with
  | nil => exact absurd hf List.not_mem_nil
  | cons g fills ih =>
    rw [List.map_cons, List.nodup_cons] at hnodup
    rw [List.foldl_cons]
    rcases List.mem_cons.mp hf with rfl | hf
    · rw [foldl_writeFill_other weight _ hnodup.1, writeFill, Function.update_self]
    · exact ih _ hnodup.2 hf

end

/-! ## One plan -/

/-- The bank with the data it holds, and a clock of the plans: each slot's last use is the last
successful plan that selected the expert in it. -/
structure Traced where
  lru : MoeCacheLru
  bank : ℕ → Option (ℕ × ℕ)
  clock : ℕ
  lastUse : ℕ → ℕ

def start (nExpert nSlots : ℕ) : Traced := ⟨init nExpert nSlots, fun _ => none, 0, fun _ => 0⟩

def step (t : Traced) (call : ℕ × List ℤ) : Option Traced :=
  (t.lru.plan call.1 call.2).map fun r =>
    if r.2.ok then
      { lru := r.1
        bank := (mergedUploads r.2.fills).foldl (write fun e => some (call.1, e)) t.bank
        clock := t.clock + 1
        lastUse := fun s => if ∃ id ∈ call.2, r.1.slotMap call.1 id.toNat = s then t.clock + 1
          else t.lastUse s }
    else { t with lru := r.1 }

/-- What a plan is for. -/
structure PlanSpec (t : Traced) (il : ℕ) (ids : List ℤ) (c : MoeCacheLru) (p : Planned) :
    Prop where
  ok_iff : p.ok = true ↔ ids.toFinset.card ≤ t.lru.nSlots
  placed : p.ok = true → ∀ id ∈ ids, ∃ s < t.lru.nSlots, c.slotMap il id.toNat = (s : ℤ)
  apart : p.ok = true → ∀ id ∈ ids, ∀ id' ∈ ids, id ≠ id' →
    c.slotMap il id.toNat ≠ c.slotMap il id'.toNat
  fills_nodup : (p.fills.map Fill.expert).Nodup
  mem_fills : p.ok = true → ∀ e : ℕ, e ∈ p.fills.map Fill.expert ↔
    (e : ℤ) ∈ ids ∧ t.lru.slotMap il e = -1
  fill_slot : ∀ f ∈ p.fills, c.slotMap il f.expert = f.slot
  kept : p.ok = true → ∀ id ∈ ids, 0 ≤ t.lru.slotMap il id.toNat →
    c.slotMap il id.toNat = t.lru.slotMap il id.toNat
  others : ∀ i e, 0 ≤ t.lru.slotMap i e →
    (t.lru.slotMap i e).toNat ∉ p.fills.map Fill.slot → c.slotMap i e = t.lru.slotMap i e
  least : ∀ f ∈ p.fills, ∀ s < t.lru.nSlots, s ∉ p.fills.map Fill.slot →
    (∀ id ∈ ids, t.lru.slotMap il id.toNat ≠ s) → t.lastUse f.slot ≤ t.lastUse s
  refused : p.ok = false → p.fills = [] ∧
    (∃ seen gen uniq, c = scratch t.lru seen gen uniq) ∧
    ∀ il' ids', (c.plan il' ids').map Prod.snd = (t.lru.plan il' ids').map Prod.snd

structure Sound (t : Traced) : Prop where
  marks : Marks t.lru
  ordered : ∃ order, Consistent t.lru order ∧
    order.Pairwise fun a b => t.lastUse a ≤ t.lastUse b
  lastUse_le : ∀ s, t.lastUse s ≤ t.clock
  bank_eq : ∀ s < t.lru.nSlots, 0 ≤ t.lru.keyOf s → t.bank s =
    some ((t.lru.keyOf s).toNat / t.lru.nExpert, (t.lru.keyOf s).toNat % t.lru.nExpert)

theorem map_expert_zipWith {lacking victims : List ℕ} (h : lacking.length ≤ victims.length) :
    (List.zipWith Fill.mk lacking victims).map Fill.expert = lacking := by
  induction lacking generalizing victims with
  | nil => rfl
  | cons e lacking ih =>
    obtain ⟨s, victims, rfl⟩ := List.exists_cons_of_length_pos (Nat.lt_of_lt_of_le
      (Nat.succ_pos _) h)
    exact congrArg (e :: ·) (ih (Nat.le_of_succ_le_succ h))

theorem map_slot_zipWith (lacking victims : List ℕ) :
    (List.zipWith Fill.mk lacking victims).map Fill.slot = victims.take lacking.length := by
  induction lacking generalizing victims with
  | nil => rfl
  | cons e lacking ih =>
    cases victims with
    | nil => rfl
    | cons s victims => exact congrArg (s :: ·) (ih victims)

theorem scratch_insert (c : MoeCacheLru) (seen : ℕ → ℕ) (gen : ℕ) (uniq : List ℕ) (il e s : ℕ) :
    (scratch c seen gen uniq).insert il e s = scratch (c.insert il e s) seen gen uniq := by
  by_cases hkey : 0 ≤ c.keyOf s
  · simp only [MoeCacheLru.insert, evict, scratch, hkey, if_true]
    rfl
  · simp only [MoeCacheLru.insert, evict, scratch, hkey, if_false]
    rfl

theorem scratch_miss (c : MoeCacheLru) (il : ℕ) (seen : ℕ → ℕ) (gen : ℕ) (uniq : List ℕ)
    (es : List ℕ) (fills : List Fill) :
    (es.foldl (miss il) (scratch c seen gen uniq, fills)).2 =
      (es.foldl (miss il) (c, fills)).2 := by
  induction es generalizing c fills with
  | nil => rfl
  | cons e es ih =>
    have hturn : miss il (scratch c seen gen uniq, fills) e =
        (scratch (miss il (c, fills) e).1 seen gen uniq, (miss il (c, fills) e).2) := by
      by_cases hres : 0 ≤ c.slotMap il e
      · simp only [miss, scratch, hres, if_true]
      · have hres' : ¬ 0 ≤ (scratch c seen gen uniq).slotMap il e := hres
        simp only [miss, hres, hres', if_false, scratch_insert]
        rfl
    rw [List.foldl_cons, List.foldl_cons, hturn]
    exact ih _ _

theorem plan_scratch {c : MoeCacheLru} {seen : ℕ → ℕ} {gen : ℕ} {uniq : List ℕ}
    (hmarks : Marks c) (hmarks' : Marks (scratch c seen gen uniq)) (il : ℕ) (ids : List ℤ) :
    ((scratch c seen gen uniq).plan il ids).map Prod.snd = (c.plan il ids).map Prod.snd := by
  by_cases hin : InRange c ids
  · obtain ⟨seen₁, gen₁, -, -, h₁⟩ := plan_eq il hmarks hin
    obtain ⟨seen₂, gen₂, -, -, h₂⟩ := plan_eq il hmarks' hin
    rw [h₁, h₂]
    by_cases hroom : c.nSlots < (selected ids).length
    · have hroom' : (scratch c seen gen uniq).nSlots < (selected ids).length := hroom
      rw [if_pos hroom, if_pos hroom']
      rfl
    · have hroom' : ¬ (scratch c seen gen uniq).nSlots < (selected ids).length := hroom
      rw [if_neg hroom, if_neg hroom']
      refine congrArg some (congrArg₂ (fun fills n => Planned.mk true fills n) ?_ rfl)
      exact (scratch_miss _ il _ _ _ _ _).trans (scratch_miss _ il _ _ _ _ _).symm
  · have habort := plan_abort c il hin
    have habort' := plan_abort (scratch c seen gen uniq) il hin
    rw [habort, habort']

/-! ## A plan with room -/

/-- The selected experts that have to be uploaded, in order. -/
def lacking (c : MoeCacheLru) (il : ℕ) (ids : List ℤ) : List ℕ :=
  c.missing il ((selected ids).insertionSort (· ≤ ·))

/-- The slots they are given. -/
def taken (c : MoeCacheLru) (il : ℕ) (ids : List ℤ) (order : List ℕ) : List ℕ :=
  (spare c il order (selected ids)).take (lacking c il ids).length

/-- The slots of the selected experts that were resident. -/
def held (c : MoeCacheLru) (il : ℕ) (ids : List ℤ) : List ℕ := c.residentSlots il (selected ids)

structure Outcome (c : MoeCacheLru) (il : ℕ) (ids : List ℤ) (order : List ℕ) (c' : MoeCacheLru)
    (fills : List Fill) : Prop where
  fills_eq : fills = List.zipWith Fill.mk (lacking c il ids) (spare c il order (selected ids))
  room : (lacking c il ids).length ≤ (spare c il order (selected ids)).length
  consistent : Consistent c' ((spare c il order (selected ids)).drop (lacking c il ids).length ++
    held c il ids ++ taken c il ids order)
  nExpert_eq : c'.nExpert = c.nExpert
  nSlots_eq : c'.nSlots = c.nSlots
  marks : Marks c'
  filled : ∀ f ∈ fills, c'.slotMap il f.expert = f.slot
  others : ∀ i x, 0 ≤ c.slotMap i x → (c.slotMap i x).toNat ∉ taken c il ids order →
    c'.slotMap i x = c.slotMap i x
  keys : ∀ s ∉ taken c il ids order, c'.keyOf s = c.keyOf s

theorem plan_outcome {c : MoeCacheLru} (il : ℕ) {ids : List ℤ} {order : List ℕ}
    (hmarks : Marks c) (h : Consistent c order) (hin : InRange c ids)
    (hroom : (selected ids).length ≤ c.nSlots) :
    ∃ c' fills, c.plan il ids = some (c', ⟨true, fills, (held c il ids).length⟩) ∧
      Outcome c il ids order c' fills := by
  obtain ⟨seen, gen, hgen, hle, hplan⟩ := plan_eq il hmarks hin
  have hrefilled := misses_refilled il h hin hroom seen gen
    ((selected ids).insertionSort (· ≤ ·))
  obtain ⟨slotMap, keyOf, links, hframe⟩ := hrefilled.frame
  rw [hplan, if_neg (not_lt.mpr hroom)]
  have hfills := hrefilled.fills_eq
  rw [List.nil_append] at hfills
  refine ⟨_, _, rfl, ⟨hfills, ?_, hrefilled.consistent, ?_, ?_, ?_, ?_, hrefilled.others,
    hrefilled.keys⟩⟩
  · have hspare := spare_length il h (selected_nodup ids) (selected_lt hin)
    have hcount := residentSlots_length (c := c) il (selected ids)
    have hmissing := (missing_sorted c il (selected ids)).length_eq
    rw [lacking]
    omega
  · rw [hframe]
    rfl
  · rw [hframe]
    rfl
  · rw [hframe]
    exact ⟨hgen, hle⟩
  · intro f hf
    exact hrefilled.filled f (hfills ▸ hf)

section
variable {c c' : MoeCacheLru} {il : ℕ} {ids : List ℤ} {order : List ℕ} {fills : List Fill}

theorem Outcome.map_expert (h : Outcome c il ids order c' fills) :
    fills.map Fill.expert = lacking c il ids := by
  rw [h.fills_eq, map_expert_zipWith h.room]

theorem Outcome.map_slot (h : Outcome c il ids order c' fills) :
    fills.map Fill.slot = taken c il ids order := by
  rw [h.fills_eq, map_slot_zipWith, taken]

theorem mem_lacking (hin : InRange c ids) {e : ℕ} :
    e ∈ lacking c il ids ↔ (e : ℤ) ∈ ids ∧ c.slotMap il e < 0 := by
  rw [lacking, missing, List.mem_filter, List.mem_insertionSort, mem_selected hin,
    decide_eq_true_eq]

theorem mem_held (hin : InRange c ids) {s : ℕ} :
    s ∈ held c il ids ↔ ∃ e : ℕ, (e : ℤ) ∈ ids ∧ c.slotMap il e = s := by
  rw [held, mem_residentSlots]
  constructor
  · rintro ⟨e, he, hres, rfl⟩
    exact ⟨e, (mem_selected hin).mp he, (Int.toNat_of_nonneg hres).symm⟩
  · rintro ⟨e, he, heq⟩
    exact ⟨e, (mem_selected hin).mpr he, by omega, by omega⟩

theorem held_disjoint {s : ℕ} (hs : s ∈ held c il ids) : s ∉ taken c il ids order := by
  intro htaken
  have hspare := (List.mem_filter.mp (List.mem_of_mem_take htaken)).2
  exact of_decide_eq_true hspare hs

/-- A resident expert that is selected keeps its slot. -/
theorem Outcome.kept (h : Outcome c il ids order c' fills) (hin : InRange c ids) {e : ℕ}
    (he : (e : ℤ) ∈ ids) (hres : 0 ≤ c.slotMap il e) : c'.slotMap il e = c.slotMap il e :=
  h.others il e hres (held_disjoint ((mem_held hin).mpr
    ⟨e, he, (Int.toNat_of_nonneg hres).symm⟩))

theorem Outcome.mem_used (h : Outcome c il ids order c' fills) (hin : InRange c ids) {s : ℕ} :
    (∃ e : ℕ, (e : ℤ) ∈ ids ∧ c'.slotMap il e = s) ↔
      s ∈ held c il ids ∨ s ∈ taken c il ids order := by
  constructor
  · rintro ⟨e, he, heq⟩
    by_cases hres : 0 ≤ c.slotMap il e
    · rw [h.kept hin he hres] at heq
      exact .inl ((mem_held hin).mpr ⟨e, he, heq⟩)
    · have hlacking := (mem_lacking hin).mpr ⟨he, not_le.mp hres⟩
      rw [← h.map_expert] at hlacking
      obtain ⟨f, hf, rfl⟩ := List.mem_map.mp hlacking
      rw [h.filled f hf] at heq
      exact .inr (h.map_slot ▸ List.mem_map.mpr ⟨f, hf, Int.ofNat_inj.mp heq⟩)
  · rintro (hs | hs)
    · obtain ⟨e, he, heq⟩ := (mem_held hin).mp hs
      exact ⟨e, he, (h.kept hin he (by omega)).trans heq⟩
    · rw [← h.map_slot] at hs
      obtain ⟨f, hf, rfl⟩ := List.mem_map.mp hs
      have hexpert : f.expert ∈ lacking c il ids :=
        h.map_expert ▸ List.mem_map_of_mem hf
      exact ⟨f.expert, ((mem_lacking hin).mp hexpert).1, h.filled f hf⟩

theorem Outcome.placed (h : Outcome c il ids order c' fills) (hin : InRange c ids) {e : ℕ}
    (he : (e : ℤ) ∈ ids) : 0 ≤ c'.slotMap il e := by
  by_cases hres : 0 ≤ c.slotMap il e
  · rwa [h.kept hin he hres]
  · have hlacking := (mem_lacking hin).mpr ⟨he, not_le.mp hres⟩
    rw [← h.map_expert] at hlacking
    obtain ⟨f, hf, rfl⟩ := List.mem_map.mp hlacking
    rw [h.filled f hf]
    exact Int.natCast_nonneg _

theorem taken_nodup (h : Consistent c order) : (taken c il ids order).Nodup :=
  (h.represents.nodup.filter _).sublist (List.take_sublist _ _)

theorem taken_least {lastUse : ℕ → ℕ} (h : Consistent c order)
    (hsorted : order.Pairwise fun a b => lastUse a ≤ lastUse b) {v s : ℕ}
    (hv : v ∈ taken c il ids order) (hs : s < c.nSlots) (hheld : s ∉ held c il ids)
    (hout : s ∉ taken c il ids order) : lastUse v ≤ lastUse s := by
  have hspare : s ∈ spare c il order (selected ids) :=
    List.mem_filter.mpr ⟨h.mem_order.mpr hs, decide_eq_true hheld⟩
  have hpairs := hsorted.filter (· ∉ c.residentSlots il (selected ids))
  rw [← List.take_append_drop (lacking c il ids).length (order.filter _),
    List.pairwise_append] at hpairs
  refine hpairs.2.2 v hv s ?_
  rw [spare, ← List.take_append_drop (lacking c il ids).length (order.filter _),
    List.mem_append] at hspare
  exact hspare.resolve_left hout

end

section
variable {t t' : Traced} {il : ℕ} {ids : List ℤ} {c : MoeCacheLru} {p : Planned}

theorem plan_cases (h : Sound t) (hplan : t.lru.plan il ids = some (c, p)) :
    InRange t.lru ids ∧ ∃ order, Consistent t.lru order ∧
      (order.Pairwise fun a b => t.lastUse a ≤ t.lastUse b) ∧
      ((t.lru.nSlots < (selected ids).length ∧ p = ⟨false, [], 0⟩ ∧
          ∃ seen gen uniq, Marks c ∧ c = scratch t.lru seen gen uniq) ∨
        ((selected ids).length ≤ t.lru.nSlots ∧ p.ok = true ∧
          Outcome t.lru il ids order c p.fills)) := by
  obtain ⟨order, hcons, hsorted⟩ := h.ordered
  have hin : InRange t.lru ids := by
    by_contra hout
    rw [plan_abort _ _ hout] at hplan
    cases hplan
  refine ⟨hin, order, hcons, hsorted, ?_⟩
  by_cases hroom : t.lru.nSlots < (selected ids).length
  · obtain ⟨seen, gen, hgen, hle, heq⟩ := plan_eq il h.marks hin
    rw [if_pos hroom, hplan] at heq
    cases heq
    exact .inl ⟨hroom, rfl, seen, gen, selected ids, ⟨hgen, hle⟩, rfl⟩
  · obtain ⟨c', fills, heq, houtcome⟩ := plan_outcome il h.marks hcons hin
      (not_lt.mp hroom)
    rw [hplan] at heq
    cases heq
    exact .inr ⟨not_lt.mp hroom, rfl, houtcome⟩

theorem plan_spec (h : Sound t) (hplan : t.lru.plan il ids = some (c, p)) :
    PlanSpec t il ids c p := by
  obtain ⟨hin, order, hcons, hsorted, hcases⟩ := plan_cases h hplan
  have hback : ∀ id ∈ ids, ((id.toNat : ℕ) : ℤ) = id :=
    fun id hid => Int.toNat_of_nonneg (hin id hid).1
  have hmem : ∀ id ∈ ids, ((id.toNat : ℕ) : ℤ) ∈ ids := fun id hid => (hback id hid).symm ▸ hid
  rcases hcases with ⟨hroom, rfl, seen, gen, uniq, hmarks, rfl⟩ | ⟨hroom, hok, houtcome⟩
  · rw [selected_length hin] at hroom
    exact
      { ok_iff := iff_of_false Bool.false_ne_true (not_le.mpr hroom)
        placed := fun hok => absurd hok Bool.false_ne_true
        apart := fun hok => absurd hok Bool.false_ne_true
        fills_nodup := List.nodup_nil
        mem_fills := fun hok => absurd hok Bool.false_ne_true
        fill_slot := fun _ hf => absurd hf List.not_mem_nil
        kept := fun hok => absurd hok Bool.false_ne_true
        others := fun _ _ _ _ => rfl
        least := fun _ hf => absurd hf List.not_mem_nil
        refused := fun _ => ⟨rfl, ⟨seen, gen, uniq, rfl⟩, plan_scratch h.marks hmarks⟩ }
  · rw [selected_length hin] at hroom
    have hnodup : (lacking t.lru il ids).Nodup :=
      ((List.perm_insertionSort _ _).nodup_iff.mpr (selected_nodup ids)).filter _
    exact
      { ok_iff := iff_of_true hok hroom
        placed := fun _ id hid => by
          have hpos := houtcome.placed hin (hmem id hid)
          have hlt := (houtcome.consistent.key_of_slot il id.toNat
            (by rw [houtcome.nExpert_eq]; have hid := hin id hid; omega) hpos).1
          exact ⟨_, houtcome.nSlots_eq ▸ hlt, (Int.toNat_of_nonneg hpos).symm⟩
        apart := fun _ id hid id' hid' hne heq => by
          have hx := hin id hid
          have hx' := hin id' hid'
          have hkey := (houtcome.consistent.key_of_slot il id.toNat
            (by rw [houtcome.nExpert_eq]; omega) (houtcome.placed hin (hmem id hid))).2
          have hkey' := (houtcome.consistent.key_of_slot il id'.toNat
            (by rw [houtcome.nExpert_eq]; omega) (houtcome.placed hin (hmem id' hid'))).2
          rw [heq, hkey'] at hkey
          omega
        fills_nodup := houtcome.map_expert.symm ▸ hnodup
        mem_fills := fun _ e => by
          rw [houtcome.map_expert, mem_lacking hin]
          have hslot := hcons.slot_or_none il e
          refine and_congr Iff.rfl ?_
          omega
        fill_slot := houtcome.filled
        kept := fun _ id hid hres => houtcome.kept hin (hmem id hid) hres
        others := fun i e hres hout => houtcome.others i e hres (houtcome.map_slot ▸ hout)
        least := fun f hf s hs hout hfree => by
          rw [houtcome.map_slot] at hout
          have htaken : f.slot ∈ taken t.lru il ids order :=
            houtcome.map_slot ▸ List.mem_map_of_mem hf
          refine taken_least hcons hsorted htaken hs (fun hheld => ?_) hout
          obtain ⟨e, he, heq⟩ := (mem_held hin).mp hheld
          exact hfree e he heq
        refused := fun hbad => absurd (hok.symm.trans hbad) (by decide) }

example : (((init 4 2).plan 0 [3, 1, 3]).bind fun r => r.1.plan 1 [2]).map Prod.snd =
    some ⟨true, [⟨2, 0⟩], 0⟩ := by decide

end

/-! ## Runs -/

theorem start_sound {nExpert nSlots : ℕ} (hslots : 0 < nSlots) : Sound (start nExpert nSlots) where
  marks := ⟨Nat.two_pow_pos 32, fun _ => le_rfl⟩
  ordered := ⟨List.range nSlots, init_consistent hslots,
    List.pairwise_of_forall fun _ _ => le_rfl⟩
  lastUse_le _ := le_rfl
  bank_eq _ _ h := absurd h (of_decide_eq_false rfl)

theorem step_sound {t t' : Traced} {call : ℕ × List ℤ} (h : Sound t)
    (hstep : step t call = some t') : Sound t' := by
  obtain ⟨il, ids⟩ := call
  obtain ⟨⟨c, p⟩, hplan, rfl⟩ := Option.map_eq_some_iff.mp hstep
  obtain ⟨hin, order, hcons, hsorted, hcases⟩ := plan_cases h hplan
  rcases hcases with ⟨-, rfl, seen, gen, uniq, hmarks, rfl⟩ | ⟨-, hok, houtcome⟩
  · exact ⟨hmarks, ⟨order, scratch_consistent hcons _ _ _, hsorted⟩, h.lastUse_le, h.bank_eq⟩
  · rw [if_pos hok]
    let used : ℕ → ℕ := fun s =>
      if ∃ id ∈ ids, c.slotMap il id.toNat = s then t.clock + 1 else t.lastUse s
    have hused : ∀ s, used s =
        if s ∈ held t.lru il ids ∨ s ∈ taken t.lru il ids order then t.clock + 1
        else t.lastUse s := by
      intro s
      refine if_congr (Iff.trans ?_ (houtcome.mem_used hin)) rfl rfl
      constructor
      · rintro ⟨id, hid, heq⟩
        exact ⟨id.toNat, (Int.toNat_of_nonneg (hin id hid).1).symm ▸ hid, heq⟩
      · rintro ⟨e, he, heq⟩
        exact ⟨e, he, heq⟩
    have hbound : ∀ s, used s ≤ t.clock + 1 := by
      intro s
      rw [hused]
      have hle := h.lastUse_le s
      split_ifs <;> omega
    refine ⟨houtcome.marks, ⟨_, houtcome.consistent, ?_⟩, hbound, ?_⟩
    · have hlast : ∀ s, s ∈ held t.lru il ids ∨ s ∈ taken t.lru il ids order →
          used s = t.clock + 1 := fun s hs => (hused s).trans (if_pos hs)
      have hnodup := houtcome.consistent.represents.nodup
      rw [List.append_assoc] at hnodup ⊢
      refine List.pairwise_append.mpr ⟨?_, ?_, fun a _ b hb => ?_⟩
      · -- the slots left at the front keep their order and their last use
        have hfront := (hsorted.filter (· ∉ held t.lru il ids)).sublist
          (List.drop_sublist (lacking t.lru il ids).length _)
        refine hfront.imp_of_mem fun {a b} ha hb hle => ?_
        have hout : ∀ s ∈ (spare t.lru il order (selected ids)).drop
            (lacking t.lru il ids).length, used s = t.lastUse s := by
          intro s hs
          refine (hused s).trans (if_neg fun hor => ?_)
          exact List.disjoint_of_nodup_append hnodup hs (List.mem_append.mpr hor)
        change used a ≤ used b
        rwa [hout a ha, hout b hb]
      · refine List.pairwise_of_forall_mem_list fun a ha b hb => ?_
        change used a ≤ used b
        rw [hlast a (List.mem_append.mp ha), hlast b (List.mem_append.mp hb)]
      · change used a ≤ used b
        rw [hlast b (List.mem_append.mp hb)]
        exact hbound a
    · intro s hs hkey
      change (mergedUploads p.fills).foldl (write fun e => some (il, e)) t.bank s =
        some ((c.keyOf s).toNat / c.nExpert, (c.keyOf s).toNat % c.nExpert)
      change 0 ≤ c.keyOf s at hkey
      change s < c.nSlots at hs
      rw [uploaded_eq]
      by_cases htaken : s ∈ p.fills.map Fill.slot
      · obtain ⟨f, hf, rfl⟩ := List.mem_map.mp htaken
        have hnodup : (p.fills.map Fill.slot).Nodup :=
          houtcome.map_slot.symm ▸ taken_nodup hcons
        have hexpert : f.expert ∈ lacking t.lru il ids :=
          houtcome.map_expert ▸ List.mem_map_of_mem hf
        have hlt : f.expert < c.nExpert := by
          have hrange := hin f.expert ((mem_lacking hin).mp hexpert).1
          rw [houtcome.nExpert_eq]
          omega
        have hslot := houtcome.filled f hf
        have hkeyOf := (houtcome.consistent.key_of_slot il f.expert hlt (by rw [hslot]; omega)).2
        rw [hslot, Int.toNat_natCast] at hkeyOf
        rw [foldl_writeFill_filled _ _ hnodup hf, hkeyOf, Int.toNat_natCast, key_div hlt,
          key_mod hlt]
      · rw [foldl_writeFill_other _ _ htaken]
        rw [houtcome.map_slot] at htaken
        rw [houtcome.keys s htaken] at hkey ⊢
        rw [houtcome.nExpert_eq]
        exact h.bank_eq s (houtcome.nSlots_eq ▸ hs) hkey

/-- The links run through every slot once. -/
def ListsSlots (c : MoeCacheLru) : Prop :=
  ∃ order : List ℕ, c.links.Represents order ∧ order.Perm (List.range c.nSlots)

/-- Slots and experts name each other, over all layers. -/
structure MapsInverse (c : MoeCacheLru) : Prop where
  slot_iff : ∀ il e s, e < c.nExpert → s < c.nSlots →
    (c.slotMap il e = (s : ℤ) ↔ c.keyOf s = ((il * c.nExpert + e : ℕ) : ℤ))
  slot_range : ∀ il e, e < c.nExpert →
    c.slotMap il e = -1 ∨ ∃ s < c.nSlots, c.slotMap il e = (s : ℤ)
  key_range : ∀ s < c.nSlots, c.keyOf s = -1 ∨
    ∃ il e, e < c.nExpert ∧ c.keyOf s = ((il * c.nExpert + e : ℕ) : ℤ)

theorem consistent_inverse {c : MoeCacheLru} {order : List ℕ} (h : Consistent c order) :
    MapsInverse c where
  slot_iff il e s he hs := by
    constructor
    · intro hslot
      have hkey := (h.key_of_slot il e he (by omega)).2
      rwa [hslot, Int.toNat_natCast] at hkey
    · intro hkey
      have hslot := h.slot_of_key s hs (by omega)
      rwa [hkey, Int.toNat_natCast, key_div he, key_mod he] at hslot
  slot_range il e he := (h.slot_or_none il e).imp_right fun hres =>
    ⟨_, (h.key_of_slot il e he hres).1, (Int.toNat_of_nonneg hres).symm⟩
  key_range s _ := h.key_or_none s

/-- The bank's slots hold the data of the experts that the maps say. -/
def BankHolds (t : Traced) : Prop :=
  ∀ il e s, e < t.lru.nExpert → s < t.lru.nSlots → t.lru.slotMap il e = (s : ℤ) →
    t.bank s = some (il, e)

theorem bank_holds {t : Traced} (h : Sound t) : BankHolds t := by
  intro il e s he hs hslot
  obtain ⟨order, hcons, -⟩ := h.ordered
  have hkey := ((consistent_inverse hcons).slot_iff il e s he hs).mp hslot
  have hbank := h.bank_eq s hs (by omega)
  rwa [hkey, Int.toNat_natCast, key_div he, key_mod he] at hbank

/-- In every run of plans the list, the maps and the bank agree, and the next plan does what
a plan is for. -/
theorem plans_along {nExpert nSlots : ℕ} (hslots : 0 < nSlots) (calls : List (ℕ × List ℤ)) :
    GuardedRuns.Along step (fun t => ListsSlots t.lru ∧ MapsInverse t.lru ∧ BankHolds t ∧
      ∀ il ids c p, t.lru.plan il ids = some (c, p) → PlanSpec t il ids c p)
      (start nExpert nSlots) calls := by
  refine (GuardedRuns.along_of_step (fun _ _ _ h hstep => step_sound h hstep) calls
    (start_sound hslots)).mono fun t h => ?_
  obtain ⟨order, hcons, -⟩ := h.ordered
  exact ⟨⟨order, hcons.represents, hcons.perm⟩, consistent_inverse hcons, bank_holds h,
    fun il ids c p hplan => plan_spec h hplan⟩

theorem plans_along_two :
    GuardedRuns.Along step (fun t => ListsSlots t.lru ∧ MapsInverse t.lru ∧ BankHolds t ∧
      ∀ il ids c p, t.lru.plan il ids = some (c, p) → PlanSpec t il ids c p)
      (start 4 2) [(0, [3, 1, 3]), (1, [2]), (0, [1, 2, 3])] :=
  plans_along (by decide) _

/-! ## What is evicted -/

/-- The expert is resident and was used at that time or later, or every slot was. -/
def UsedSince (time il e : ℕ) (t : Traced) : Prop :=
  (∃ s : ℕ, t.lru.slotMap il e = s ∧ time ≤ t.lastUse s) ∨
    ∀ s < t.lru.nSlots, time ≤ t.lastUse s

theorem step_usedSince {t t' : Traced} {call : ℕ × List ℤ} {time i e : ℕ} (h : Sound t)
    (hstep : step t call = some t') (htime : time ≤ t.clock) (hused : UsedSince time i e t) :
    time ≤ t'.clock ∧ t'.lru.nSlots = t.lru.nSlots ∧ UsedSince time i e t' := by
  obtain ⟨il, ids⟩ := call
  obtain ⟨⟨c, p⟩, hplan, rfl⟩ := Option.map_eq_some_iff.mp hstep
  obtain ⟨hin, order, hcons, hsorted, hcases⟩ := plan_cases h hplan
  rcases hcases with ⟨-, rfl, seen, gen, uniq, hmarks, rfl⟩ | ⟨-, hok, houtcome⟩
  · exact ⟨htime, rfl, hused⟩
  rw [if_pos hok]
  have hlater : ∀ s, time ≤ t.lastUse s →
      time ≤ if ∃ id ∈ ids, c.slotMap il id.toNat = s then t.clock + 1 else t.lastUse s := by
    intro s hs
    split_ifs <;> omega
  refine ⟨Nat.le_succ_of_le htime, houtcome.nSlots_eq, ?_⟩
  rcases hused with ⟨s, hslot, hs⟩ | hall
  · by_cases htaken : s ∈ taken t.lru il ids order
    · -- a slot that is not used now was used no earlier than the one that is taken
      refine .inr fun v hv => ?_
      by_cases hnow : v ∈ held t.lru il ids ∨ v ∈ taken t.lru il ids order
      · obtain ⟨x, hx, heq⟩ := (houtcome.mem_used hin).mpr hnow
        exact (Nat.le_succ_of_le htime).trans_eq (if_pos ⟨x, hx, heq⟩).symm
      · rw [not_or] at hnow
        exact hlater v (hs.trans (taken_least hcons hsorted htaken (houtcome.nSlots_eq ▸ hv)
          hnow.1 hnow.2))
    · have hkept := houtcome.others i e (hslot ▸ Int.natCast_nonneg s)
        (by rwa [hslot, Int.toNat_natCast])
      exact .inl ⟨s, hkept.trans hslot, hlater s hs⟩
  · exact .inr fun s hs => hlater s (hall s (houtcome.nSlots_eq ▸ hs))

/-- The bank holds the experts used last: when one that was selected is gone, every slot has been
used in the plan that selected it or later. -/
theorem evicted_least_recent (nExpert nSlots : ℕ) (hslots : 0 < nSlots)
    (before between : List (ℕ × List ℤ)) {il : ℕ} {ids : List ℤ} {t t₁ t₂ : Traced}
    (hbefore : GuardedRuns.run step (start nExpert nSlots) before = some t)
    (hroom : ids.toFinset.card ≤ t.lru.nSlots) (hstep : step t (il, ids) = some t₁)
    (hrun : GuardedRuns.run step t₁ between = some t₂) :
    ∀ id ∈ ids, t₂.lru.slotMap il id.toNat = -1 → ∀ s < t.lru.nSlots, t₁.clock ≤ t₂.lastUse s := by
  intro id hid hgone
  have hsound : Sound t := (GuardedRuns.along_of_step (fun _ _ _ => step_sound) before
    (start_sound hslots)).final hbefore
  have hsize := (step_usedSince hsound hstep (Nat.zero_le _)
    (.inr fun _ _ => Nat.zero_le _ : UsedSince 0 0 0 t)).2.1
  have hused : UsedSince t₁.clock il id.toNat t₁ := by
    obtain ⟨⟨c, p⟩, hplan, rfl⟩ := Option.map_eq_some_iff.mp hstep
    have hspec := plan_spec hsound hplan
    have hok := hspec.ok_iff.mpr hroom
    obtain ⟨s, -, hslot⟩ := hspec.placed hok id hid
    rw [if_pos hok]
    exact .inl ⟨s, hslot, (if_pos ⟨id, hid, hslot⟩).ge⟩
  have hkept : GuardedRuns.Along step (fun u => Sound u ∧ t₁.clock ≤ u.clock ∧
      u.lru.nSlots = t.lru.nSlots ∧ UsedSince t₁.clock il id.toNat u) t₁ between := by
    refine GuardedRuns.along_of_step (fun u call u' hu hstep' => ?_) between
      ⟨step_sound hsound hstep, le_rfl, hsize, hused⟩
    obtain ⟨hsound', hclock, hsize, hused⟩ := hu
    obtain ⟨hclock', hsize', hused'⟩ := step_usedSince hsound' hstep' hclock hused
    exact ⟨step_sound hsound' hstep', hclock', hsize'.trans hsize, hused'⟩
  obtain ⟨-, -, hsize, hused⟩ := hkept.final hrun
  rcases hused with ⟨s, hslot, -⟩ | hall
  · rw [hgone] at hslot
    omega
  · exact fun s hs => hall s (hsize ▸ hs)

theorem evicted_least_recent_two : ∃ t t₁ t₂,
    GuardedRuns.run step (start 4 2) [(1, [2])] = some t ∧ step t (0, [3]) = some t₁ ∧
    GuardedRuns.run step t₁ [(0, [1]), (0, [1, 2])] = some t₂ ∧
    t₂.lru.slotMap 0 3 = -1 ∧ ∀ s < t.lru.nSlots, t₁.clock ≤ t₂.lastUse s :=
  ⟨_, _, _, rfl, rfl, rfl, rfl, evicted_least_recent 4 2 (by decide) [(1, [2])]
    [(0, [1]), (0, [1, 2])] rfl (by decide) rfl rfl 3 (List.mem_singleton_self _) rfl⟩

end MoeCache
end RocmFpx
