import RocmFpx.NgramMapRuns

/-!
The statistics of the n-gram map. The first pass for a key counts its continuations as they stand in
the history; a second one begins at the position where the first one ended and counts it again.
-/

namespace RocmFpx
namespace NgramMap

open Fallible

/-! ## Comparisons that return -/

section

variable {inp : List Token} {i j size : ℕ}

theorem read_eq {t : Token} (h : read inp i = .ok t) : ∃ hi : i < inp.length, inp[i] = t := by
  rw [read] at h
  cases hx : inp[i]? with
  | none =>
    rw [hx] at h
    cases h
  | some x =>
    rw [hx] at h
    obtain ⟨hi, rfl⟩ := List.getElem?_eq_some_iff.mp hx
    exact ⟨hi, Except.ok.inj h⟩

theorem sameKey_eq {key : List Token} {b : Bool} (h : sameKey inp i key = .ok b) :
    b = true ↔ gram inp i key.length = key := by
  induction key generalizing i with
  | nil => exact iff_of_true (Except.ok.inj h).symm rfl
  | cons t ts ih =>
    obtain ⟨x, hx, h⟩ := bind_eq_ok.1 h
    obtain ⟨hi, rfl⟩ := read_eq hx
    rw [List.length_cons, gram_succ hi]
    split_ifs at h with ht
    · obtain rfl := Except.ok.inj h
      exact iff_of_false (by decide) fun h => ht (List.cons.inj h).1
    · rw [ih h, not_not.mp ht, List.cons_inj_right]

theorem sameGram_eq {b : Bool} (h : sameGram inp i j size = .ok b) :
    b = true ↔ gram inp i size = gram inp j size := by
  induction size generalizing i j with
  | zero => exact iff_of_true (Except.ok.inj h).symm rfl
  | succ size ih =>
    obtain ⟨x, hx, h⟩ := bind_eq_ok.1 h
    obtain ⟨y, hy, h⟩ := bind_eq_ok.1 h
    obtain ⟨hi, rfl⟩ := read_eq hx
    obtain ⟨hj, rfl⟩ := read_eq hy
    rw [gram_succ hi, gram_succ hj]
    split_ifs at h with ht
    · obtain rfl := Except.ok.inj h
      exact iff_of_false (by decide) fun h => ht (List.cons.inj h).1
    · rw [ih h, not_not.mp ht, List.cons_inj_right]

end

/-! ## Continuations -/

section

variable {inp : List Token} {key : List Token} {size i p : ℕ} {conts : List (List Token)}
  {used unused values values' : List Value}

/-- The m-grams behind the key, of the positions below `p`. -/
def continuations (inp key : List Token) (size p : ℕ) : List (List Token) :=
  ((List.range p).filter fun i => decide (gram inp i key.length = key)).map fun i =>
    gram inp (i + key.length) size

/-- A count up to the cap. -/
def capped (n : ℕ) : ℕ := min n commonNgramMaxValueCount

/-- The m-grams that get a slot: the first four that differ. -/
def stored (conts : List (List Token)) : List (List Token) :=
  conts.eraseDups.take commonNgramMaxValues

/-- The slots hold the continuations: the used ones in front, with their numbers. -/
structure Slots (inp : List Token) (size : ℕ) (conts : List (List Token))
    (used unused : List Value) : Prop where
  length : used.length + unused.length = commonNgramMaxValues
  empty : ∀ v ∈ unused, v.valueIdx = 0 ∧ v.valueNum = 0
  placed : ∀ v ∈ used, v.valueIdx ≠ 0 ∧ v.valueIdx + size ≤ inp.length
  counted : ∀ v ∈ used, v.valueNum = capped (conts.count (gram inp v.valueIdx size))
  grams : used.map (fun v => gram inp v.valueIdx size) = stored conts

/-- One more occurrence in the slot of the m-gram. -/
def bump (inp : List Token) (size i : ℕ) (v : Value) : Value :=
  if gram inp i size = gram inp v.valueIdx size then
    { v with valueNum := min (v.valueNum + 1) commonNgramMaxValueCount } else v

theorem bump_valueIdx (v : Value) : (bump inp size i v).valueIdx = v.valueIdx := by
  rw [bump]
  split_ifs <;> rfl

theorem countValue_eq (hused : ∀ v ∈ used, v.valueIdx ≠ 0) (hunused : ∀ v ∈ unused, v.valueIdx = 0)
    (hnodup : (used.map fun v => gram inp v.valueIdx size).Nodup)
    (h : countValue inp size i (used ++ unused) = .ok values') :
    (gram inp i size ∈ used.map (fun v => gram inp v.valueIdx size) ∧
        values' = used.map (bump inp size i) ++ unused) ∨
      (gram inp i size ∉ used.map (fun v => gram inp v.valueIdx size) ∧
        ((unused = [] ∧ values' = used) ∨ ∃ v vs, unused = v :: vs ∧
          values' = used ++ ⟨i, 1, int16 size⟩ :: vs)) := by
  induction used generalizing values' with
  | nil =>
    refine .inr ⟨List.not_mem_nil, ?_⟩
    cases unused with
    | nil => exact .inl ⟨rfl, (Except.ok.inj h).symm⟩
    | cons v vs =>
      rw [List.nil_append, countValue, if_pos (hunused v List.mem_cons_self)] at h
      exact .inr ⟨v, vs, rfl, (Except.ok.inj h).symm⟩
  | cons v vs ih =>
    rw [List.map_cons, List.nodup_cons] at hnodup
    rw [List.cons_append, countValue, if_neg (hused v List.mem_cons_self)] at h
    obtain ⟨b, hb, h⟩ := bind_eq_ok.1 h
    have hiff := sameGram_eq hb
    cases b with
    | true =>
      have hsame := hiff.mp rfl
      left
      refine ⟨List.mem_cons.mpr (.inl hsame), ?_⟩
      have hrest : vs.map (bump inp size i) = vs := by
        refine (List.map_congr_left fun w hw => ?_).trans (List.map_id vs)
        refine if_neg fun heq => hnodup.1 ?_
        rw [← hsame, heq]
        exact List.mem_map_of_mem (f := fun v : Value => gram inp v.valueIdx size) hw
      rw [List.map_cons, hrest, bump, if_pos hsame]
      exact (Except.ok.inj h).symm
    | false =>
      have hne : gram inp i size ≠ gram inp v.valueIdx size := fun heq => by cases hiff.mpr heq
      obtain ⟨vs', hvs', h⟩ := bind_eq_ok.1 h
      obtain rfl := Except.ok.inj h
      rcases ih (fun w hw => hused w (List.mem_cons_of_mem _ hw)) hnodup.2 hvs' with
        ⟨hmem, rfl⟩ | ⟨hmem, ⟨hnil, rfl⟩ | ⟨w, ws, hcons, rfl⟩⟩
      · refine .inl ⟨List.mem_cons_of_mem _ hmem, ?_⟩
        rw [List.map_cons, bump, if_neg hne]
        rfl
      · exact .inr ⟨fun h => (List.mem_cons.mp h).elim hne hmem, .inl ⟨hnil, rfl⟩⟩
      · exact .inr ⟨fun h => (List.mem_cons.mp h).elim hne hmem, .inr ⟨w, ws, hcons, rfl⟩⟩

theorem eraseDups_nodup (conts : List (List Token)) : conts.eraseDups.Nodup := by
  induction hn : conts.length using Nat.strong_induction_on generalizing conts with
  | _ n ih =>
    cases conts with
    | nil => exact List.nodup_nil
    | cons g conts =>
      rw [List.eraseDups_cons, List.nodup_cons]
      refine ⟨fun hmem => ?_, ih _ (hn ▸ ?_) _ rfl⟩
      · simpa using List.mem_eraseDups.mp hmem
      · exact Nat.lt_succ_of_le (List.length_filter_le _ _)

theorem stored_nodup (conts : List (List Token)) : (stored conts).Nodup :=
  (List.take_sublist _ _).nodup (eraseDups_nodup conts)

theorem eraseDups_concat (conts : List (List Token)) (g : List Token) :
    (conts ++ [g]).eraseDups = if g ∈ conts then conts.eraseDups else conts.eraseDups ++ [g] := by
  rw [List.eraseDups_append]
  split_ifs with h
  · rw [List.removeAll, List.filter_cons_of_neg (by simpa using h)]
    exact List.append_nil _
  · rw [List.removeAll, List.filter_cons_of_pos (by simpa using h)]
    rfl

theorem mem_of_mem_stored {conts : List (List Token)} {g : List Token} (h : g ∈ stored conts) :
    g ∈ conts :=
  List.mem_eraseDups.mp (List.mem_of_mem_take h)

theorem stored_concat_of_mem {conts : List (List Token)} {g : List Token} (h : g ∈ conts) :
    stored (conts ++ [g]) = stored conts := by
  rw [stored, eraseDups_concat, if_pos h]
  rfl

theorem stored_of_lt {conts : List (List Token)}
    (h : (stored conts).length < commonNgramMaxValues) : stored conts = conts.eraseDups := by
  rw [stored, List.length_take] at h
  exact List.take_of_length_le (by omega)

theorem stored_concat_new {conts : List (List Token)} {g : List Token} (h : g ∉ stored conts)
    (hlt : (stored conts).length < commonNgramMaxValues) :
    g ∉ conts ∧ stored (conts ++ [g]) = stored conts ++ [g] := by
  have hall := stored_of_lt hlt
  have hnew : g ∉ conts := fun hmem => h (hall ▸ List.mem_eraseDups.mpr hmem)
  refine ⟨hnew, ?_⟩
  rw [stored, eraseDups_concat, if_neg hnew, ← hall]
  refine List.take_of_length_le ?_
  rw [List.length_append]
  exact hlt

theorem stored_concat_full {conts : List (List Token)} {g : List Token}
    (hfull : (stored conts).length = commonNgramMaxValues) :
    stored (conts ++ [g]) = stored conts := by
  have hle : commonNgramMaxValues ≤ conts.eraseDups.length := by
    rw [stored, List.length_take] at hfull
    omega
  rw [stored, eraseDups_concat]
  split_ifs
  · rfl
  · exact List.take_append_of_le_length hle

theorem capped_succ (n : ℕ) : min (capped n + 1) commonNgramMaxValueCount = capped (n + 1) := by
  simp only [capped]
  omega

theorem Slots.nodup {conts : List (List Token)} (h : Slots inp size conts used unused) :
    (used.map fun v => gram inp v.valueIdx size).Nodup :=
  h.grams ▸ stored_nodup conts

theorem Slots.full {conts : List (List Token)} (h : Slots inp size conts used unused) :
    (stored conts).length + unused.length = commonNgramMaxValues := by
  rw [← h.grams, List.length_map, h.length]

theorem Slots.bump {conts : List (List Token)} (h : Slots inp size conts used unused)
    (hmem : gram inp i size ∈ stored conts) :
    Slots inp size (conts ++ [gram inp i size]) (used.map (bump inp size i)) unused where
  length := by rw [List.length_map, h.length]
  empty := h.empty
  placed v hv := by
    obtain ⟨w, hw, rfl⟩ := List.mem_map.mp hv
    rw [bump_valueIdx]
    exact h.placed w hw
  counted v hv := by
    obtain ⟨w, hw, rfl⟩ := List.mem_map.mp hv
    rw [bump_valueIdx, List.count_append, NgramMap.bump]
    split_ifs with heq
    · rw [heq, List.count_singleton_self, ← capped_succ, ← h.counted w hw]
    · rw [List.count_singleton, if_neg (by simpa using heq), Nat.add_zero]
      exact h.counted w hw
  grams := by
    rw [List.map_map, stored_concat_of_mem (mem_of_mem_stored hmem), ← h.grams]
    exact List.map_congr_left fun v _ => by rw [Function.comp_apply, bump_valueIdx]

theorem Slots.append {conts : List (List Token)} {v : Value}
    (h : Slots inp size conts used (v :: unused)) (hnew : gram inp i size ∉ stored conts)
    (hi : i ≠ 0) (hle : i + size ≤ inp.length) :
    Slots inp size (conts ++ [gram inp i size]) (used ++ [⟨i, 1, int16 size⟩]) unused := by
  have hlt : (stored conts).length < commonNgramMaxValues := by
    have hlen := h.full
    rw [List.length_cons] at hlen
    omega
  obtain ⟨hfresh, hstored⟩ := stored_concat_new hnew hlt
  refine ⟨?_, fun w hw => h.empty w (List.mem_cons_of_mem _ hw), fun w hw => ?_, fun w hw => ?_, ?_⟩
  · have hlen := h.length
    rw [List.length_cons] at hlen
    rw [List.length_append, List.length_singleton]
    omega
  · rcases List.mem_append.mp hw with hw | hw
    · exact h.placed w hw
    · rw [List.mem_singleton.mp hw]
      exact ⟨hi, hle⟩
  · rw [List.count_append]
    rcases List.mem_append.mp hw with hw | hw
    · have hstays : gram inp i size ≠ gram inp w.valueIdx size := fun heq => by
        refine hnew (heq ▸ h.grams ▸ ?_)
        exact List.mem_map_of_mem (f := fun v : Value => gram inp v.valueIdx size) hw
      rw [List.count_singleton, if_neg (by simpa using hstays), Nat.add_zero]
      exact h.counted w hw
    · rw [List.mem_singleton.mp hw, List.count_eq_zero_of_not_mem hfresh, List.count_singleton_self]
      rfl
  · rw [List.map_append, h.grams, hstored]
    rfl

theorem Slots.skip {conts : List (List Token)} (h : Slots inp size conts used [])
    (hnew : gram inp i size ∉ stored conts) :
    Slots inp size (conts ++ [gram inp i size]) used [] where
  length := h.length
  empty := h.empty
  placed := h.placed
  counted v hv := by
    have hother : gram inp i size ≠ gram inp v.valueIdx size := fun heq => by
      refine hnew (heq ▸ h.grams ▸ ?_)
      exact List.mem_map_of_mem (f := fun v : Value => gram inp v.valueIdx size) hv
    rw [List.count_append, List.count_singleton, if_neg (by simpa using hother), Nat.add_zero]
    exact h.counted v hv
  grams := by rw [stored_concat_full (by simpa using h.full), h.grams]

theorem Slots.countValue {conts : List (List Token)} (h : Slots inp size conts used unused)
    (hi : i ≠ 0) (hle : i + size ≤ inp.length)
    (hrun : countValue inp size i (used ++ unused) = .ok values') :
    ∃ used' unused', values' = used' ++ unused' ∧
      Slots inp size (conts ++ [gram inp i size]) used' unused' := by
  rcases countValue_eq (fun v hv => (h.placed v hv).1) (fun v hv => (h.empty v hv).1) h.nodup hrun
    with ⟨hmem, rfl⟩ | ⟨hmem, ⟨rfl, heq⟩ | ⟨v, vs, rfl, rfl⟩⟩
  · exact ⟨_, _, rfl, h.bump (h.grams ▸ hmem)⟩
  · exact ⟨used, [], heq.trans (List.append_nil _).symm, h.skip (h.grams ▸ hmem)⟩
  · exact ⟨_, vs, List.append_cons _ _ _, h.append (h.grams ▸ hmem) hi hle⟩

theorem continuations_succ : continuations inp key size (p + 1) = continuations inp key size p ++
    if gram inp p key.length = key then [gram inp (p + key.length) size] else [] := by
  rw [continuations, List.range_succ, List.filter_append, List.map_append, ← continuations]
  congr 1
  by_cases h : gram inp p key.length = key
  · rw [if_pos h, List.filter_cons_of_pos (by simpa using h)]
    rfl
  · rw [if_neg h, List.filter_cons_of_neg (by simpa using h)]
    rfl

theorem Slots.statStep (h : Slots inp size (continuations inp key size p) used unused)
    (hkey : 0 < key.length) (hle : p + key.length + size ≤ inp.length)
    (hrun : statStep inp size key (used ++ unused) p = .ok values') :
    ∃ used' unused', values' = used' ++ unused' ∧
      Slots inp size (continuations inp key size (p + 1)) used' unused' := by
  obtain ⟨b, hb, hrun⟩ := bind_eq_ok.1 hrun
  rw [continuations_succ]
  cases b with
  | true =>
    rw [if_pos ((sameKey_eq hb).mp rfl)]
    exact h.countValue (by omega) hle hrun
  | false =>
    have hother : gram inp p key.length ≠ key := fun heq => absurd ((sameKey_eq hb).mpr heq) (by decide)
    rw [if_neg hother, List.append_nil]
    exact ⟨used, unused, (Except.ok.inj hrun).symm, h⟩

theorem Slots.statSteps (count : ℕ) (h : Slots inp size (continuations inp key size p) used unused)
    (hkey : 0 < key.length) (hle : p + count + key.length + size ≤ inp.length + 1)
    (hrun : (List.range' p count).foldlM (NgramMap.statStep inp size key) (used ++ unused) =
      .ok values') :
    ∃ used' unused', values' = used' ++ unused' ∧
      Slots inp size (continuations inp key size (p + count)) used' unused' := by
  induction count generalizing p used unused with
  | zero => exact ⟨used, unused, (Except.ok.inj hrun).symm, h⟩
  | succ count ih =>
    rw [List.range'_succ, List.foldlM_cons] at hrun
    obtain ⟨values, hstep, hrun⟩ := bind_eq_ok.1 hrun
    obtain ⟨used₁, unused₁, rfl, h₁⟩ := h.statStep hkey (by omega) hstep
    obtain ⟨used', unused', rfl, h'⟩ := ih h₁ (by omega) hrun
    refine ⟨used', unused', rfl, ?_⟩
    rwa [Nat.add_right_comm, Nat.add_assoc] at h'

theorem Slots.recount {conts : List (List Token)} (h : Slots inp size conts used unused)
    (hmem : gram inp i size ∈ conts)
    (hcap : ∀ v ∈ used, gram inp i size = gram inp v.valueIdx size →
      v.valueNum = commonNgramMaxValueCount)
    (hrun : NgramMap.countValue inp size i (used ++ unused) = .ok values') :
    values' = used ++ unused := by
  rcases countValue_eq (fun v hv => (h.placed v hv).1) (fun v hv => (h.empty v hv).1) h.nodup hrun
    with ⟨-, rfl⟩ | ⟨hnew, ⟨rfl, heq⟩ | ⟨v, vs, rfl, -⟩⟩
  · congr 1
    refine (List.map_congr_left fun v hv => ?_).trans (List.map_id used)
    rw [NgramMap.bump]
    split_ifs with hsame
    · rw [hcap v hv hsame, Nat.min_eq_right (Nat.le_succ _), ← hcap v hv hsame]
      rfl
    · rfl
  · exact heq.trans (List.append_nil _).symm
  · have hlen := h.full
    rw [List.length_cons] at hlen
    exact absurd hmem (stored_concat_new (h.grams ▸ hnew) (by omega)).1

theorem Slots.restat (h : Slots inp size (continuations inp key size (p + 1)) used unused)
    (hcap : ∀ v ∈ used, gram inp (p + key.length) size = gram inp v.valueIdx size →
      v.valueNum = commonNgramMaxValueCount)
    (hrun : NgramMap.statStep inp size key (used ++ unused) p = .ok values') :
    values' = used ++ unused := by
  obtain ⟨b, hb, hrun⟩ := bind_eq_ok.1 hrun
  cases b with
  | true =>
    refine h.recount ?_ hcap hrun
    rw [continuations_succ, if_pos ((sameKey_eq hb).mp rfl)]
    exact List.mem_append_right _ (List.mem_singleton_self _)
  | false => exact (Except.ok.inj hrun).symm

theorem continuations_grown {hist : List Token} (h : hist <+: inp)
    (hle : p + key.length + size ≤ hist.length + 1) :
    continuations inp key size p = continuations hist key size p := by
  induction p with
  | zero => rfl
  | succ p ih =>
    rw [continuations_succ, continuations_succ, ih (by omega), gram_grown h (by omega),
      gram_grown h (by omega)]

theorem Slots.grown {hist : List Token} {conts : List (List Token)} (h : hist <+: inp)
    (hslots : Slots hist size conts used unused) : Slots inp size conts used unused where
  length := hslots.length
  empty := hslots.empty
  placed v hv := ⟨(hslots.placed v hv).1, (hslots.placed v hv).2.trans h.length_le⟩
  counted v hv := by
    rw [gram_grown h (hslots.placed v hv).2]
    exact hslots.counted v hv
  grams := by
    rw [← hslots.grams]
    exact List.map_congr_left fun v hv => gram_grown h (hslots.placed v hv).2

end

/-! ## The slot with the most occurrences -/

section

variable {inp : List Token} {size : ℕ} {conts : List (List Token)} {used unused values : List Value}

theorem slotMaxFrom_spec (values : List Value) (slot : ℕ) (best : ℕ × ℕ) :
    best.1 ≤ (slotMaxFrom values slot best).1 ∧
      (∀ v ∈ values, v.valueNum ≤ (slotMaxFrom values slot best).1) ∧
      (slotMaxFrom values slot best = best ∨ ∃ i v, values[i]? = some v ∧
        slotMaxFrom values slot best = (v.valueNum, slot + i)) := by
  induction values generalizing slot best with
  | nil => exact ⟨le_rfl, fun v hv => absurd hv List.not_mem_nil, .inl rfl⟩
  | cons v vs ih =>
    rw [slotMaxFrom]
    obtain ⟨hle, hall, hat⟩ := ih (slot + 1) (if best.1 < v.valueNum then (v.valueNum, slot) else best)
    have hbest : best.1 ≤ (if best.1 < v.valueNum then (v.valueNum, slot) else best).1 ∧
        v.valueNum ≤ (if best.1 < v.valueNum then (v.valueNum, slot) else best).1 := by
      split_ifs with hlt
      · exact ⟨hlt.le, le_rfl⟩
      · exact ⟨le_rfl, not_lt.mp hlt⟩
    refine ⟨hbest.1.trans hle, fun w hw => ?_, ?_⟩
    · rcases List.mem_cons.mp hw with rfl | hw
      · exact hbest.2.trans hle
      · exact hall w hw
    · rcases hat with heq | ⟨i, w, hw, heq⟩
      · rw [heq]
        split_ifs
        · exact .inr ⟨0, v, rfl, rfl⟩
        · exact .inl rfl
      · refine .inr ⟨i + 1, w, hw, ?_⟩
        rw [heq, Nat.add_right_comm, Nat.add_assoc]

theorem slotMax_spec (h : values ≠ []) : ∃ v, values[(slotMax values).2]? = some v ∧
    v.valueNum = (slotMax values).1 ∧ ∀ w ∈ values, w.valueNum ≤ (slotMax values).1 := by
  obtain ⟨-, hall, heq | ⟨i, v, hv, heq⟩⟩ := slotMaxFrom_spec values 0 (0, 0)
  · cases values with
    | nil => exact absurd rfl h
    | cons v vs =>
      have hzero := hall v List.mem_cons_self
      rw [slotMax]
      rw [heq] at hall hzero ⊢
      exact ⟨v, rfl, Nat.le_zero.mp hzero, hall⟩
  · rw [slotMax]
    rw [heq] at hall ⊢
    refine ⟨v, ?_, rfl, hall⟩
    rw [Nat.zero_add]
    exact hv

/-- The continuation comes at least twice as often as the others that are stored. -/
def Dominates (conts : List (List Token)) (g : List Token) : Prop :=
  2 * (((stored conts).erase g).map fun g => capped (conts.count g)).sum ≤ capped (conts.count g)

theorem Slots.used_nums (h : Slots inp size conts used unused) :
    used.map Value.valueNum = (stored conts).map fun g => capped (conts.count g) := by
  rw [← h.grams, List.map_map]
  exact List.map_congr_left h.counted

theorem Slots.slotMax_used (h : Slots inp size conts used unused) (hne : conts ≠ []) :
    ∃ (hs : (slotMax (used ++ unused)).2 < used.length),
      used[(slotMax (used ++ unused)).2].valueNum = (slotMax (used ++ unused)).1 ∧
      ∀ w ∈ used ++ unused, w.valueNum ≤ (slotMax (used ++ unused)).1 := by
  obtain ⟨g, rest, rfl⟩ := List.exists_cons_of_ne_nil hne
  have hstored : g ∈ stored (g :: rest) := by
    rw [stored, List.eraseDups_cons]
    exact List.mem_cons_self
  rw [← h.grams] at hstored
  obtain ⟨v, hv, rfl⟩ := List.mem_map.mp hstored
  have hpos : 0 < v.valueNum := by
    have hcount := List.count_pos_iff.mpr (List.mem_cons_self (a := gram inp v.valueIdx size) (l := rest))
    rw [h.counted v hv, capped]
    exact Nat.lt_min.mpr ⟨hcount, by decide⟩
  have hmem : v ∈ used ++ unused := List.mem_append_left _ hv
  obtain ⟨w, hw, hnum, hall⟩ := slotMax_spec (List.ne_nil_of_mem hmem)
  by_cases hs : (slotMax (used ++ unused)).2 < used.length
  · rw [List.getElem?_append_left hs, List.getElem?_eq_getElem hs] at hw
    obtain rfl := Option.some.inj hw
    exact ⟨hs, hnum, hall⟩
  · rw [List.getElem?_append_right (not_lt.mp hs)] at hw
    have hzero := (h.empty w (List.mem_of_getElem? hw)).2
    have := hall v hmem
    omega

theorem Slots.sum_eraseIdx (h : Slots inp size conts used unused) {slot : ℕ}
    (hs : slot < used.length) :
    used[slot].valueNum + (((used ++ unused).eraseIdx slot).map Value.valueNum).sum =
      (used.map Value.valueNum).sum := by
  have hunused : (unused.map Value.valueNum).sum = 0 :=
    List.sum_eq_zero fun n hn => by
      obtain ⟨v, hv, rfl⟩ := List.mem_map.mp hn
      exact (h.empty v hv).2
  have hperm := ((List.getElem_cons_eraseIdx_perm hs).map Value.valueNum).sum_eq
  rw [List.map_cons, List.sum_cons] at hperm
  rw [List.eraseIdx_append_of_lt_length hs, List.map_append, List.sum_append, hunused, Nat.add_zero,
    hperm]

theorem Slots.dominates (h : Slots inp size conts used unused)
    (hs : (slotMax (used ++ unused)).2 < used.length)
    (hnum : used[(slotMax (used ++ unused)).2].valueNum = (slotMax (used ++ unused)).1)
    (hdraft : 2 * sumOccur (used ++ unused) ≤ (slotMax (used ++ unused)).1) :
    Dominates conts (gram inp used[(slotMax (used ++ unused)).2].valueIdx size) := by
  have hsum := h.sum_eraseIdx hs
  rw [← sumOccur, h.used_nums] at hsum
  have hmem : gram inp used[(slotMax (used ++ unused)).2].valueIdx size ∈ stored conts :=
    h.grams ▸ List.mem_map_of_mem (f := fun v : Value => gram inp v.valueIdx size)
      (List.getElem_mem hs)
  have hperm := ((List.perm_cons_erase hmem).map fun g => capped (conts.count g)).sum_eq
  rw [List.map_cons, List.sum_cons, ← h.counted _ (List.getElem_mem hs)] at hperm
  rw [Dominates, ← h.counted _ (List.getElem_mem hs)]
  omega

end

/-! ## The entries along a run -/

section

variable {inp hist : List Token} {n m pos : ℕ} {key : List Token} {k : Key}

/-- The positions that the statistics have seen. -/
def Key.scanned (k : Key) : ℕ := if k.statIdx = 0 then 0 else k.statIdx + 1

/-- The slots of the entry hold the continuations of its key. -/
structure KeyCounted (inp : List Token) (n m : ℕ) (k : Key) : Prop where
  keyIdx : k.keyIdx + n + m + 1 ≤ inp.length
  statIdx : k.statIdx + n + m + 1 ≤ inp.length
  slots : ∃ used unused, k.values = used ++ unused ∧
    Slots inp m (continuations inp (gram inp k.keyIdx n) m k.scanned) used unused

/-- Statistics up to `pos` count no position twice: there are none yet, or the one position that is
seen again does not change its slot. -/
def Key.CountsOnce (k : Key) (inp : List Token) (n m pos : ℕ) : Prop :=
  k.statIdx = 0 ∨ k.statIdx ≤ pos ∧ ∀ v ∈ k.values, v.valueIdx ≠ 0 →
    gram inp (k.statIdx + n) m = gram inp v.valueIdx m → v.valueNum = commonNgramMaxValueCount

theorem KeyCounted.grown (h : hist <+: inp) (hk : KeyCounted hist n m k) :
    KeyCounted inp n m k where
  keyIdx := hk.keyIdx.trans h.length_le
  statIdx := hk.statIdx.trans h.length_le
  slots := by
    obtain ⟨used, unused, heq, hslots⟩ := hk.slots
    have hidx := hk.keyIdx
    have hstat := hk.statIdx
    have hlen : (gram hist k.keyIdx n).length = n := gram_length (by omega)
    refine ⟨used, unused, heq, ?_⟩
    rw [gram_grown h (by omega), continuations_grown h]
    · exact hslots.grown h
    · rw [hlen, Key.scanned]
      split_ifs <;> omega

theorem KeyCounted.of_map_eq {values : List Value} (hk : KeyCounted inp n m k)
    (h : values.map (fun v => (v.valueIdx, v.valueNum)) =
      k.values.map fun v => (v.valueIdx, v.valueNum)) :
    KeyCounted inp n m { k with values := values } where
  keyIdx := hk.keyIdx
  statIdx := hk.statIdx
  slots := by
    obtain ⟨used, unused, heq, hslots⟩ := hk.slots
    rw [heq, List.map_append] at h
    obtain ⟨used', unused', rfl, hused, hunused⟩ := List.map_eq_append_iff.mp h
    have hmem : ∀ {vs ws : List Value}, vs.map (fun v => (v.valueIdx, v.valueNum)) =
        ws.map (fun v => (v.valueIdx, v.valueNum)) → ∀ v ∈ vs, ∃ w ∈ ws,
          w.valueIdx = v.valueIdx ∧ w.valueNum = v.valueNum := by
      intro vs ws hmap v hv
      have hv := List.mem_map_of_mem (f := fun v : Value => (v.valueIdx, v.valueNum)) hv
      obtain ⟨w, hw, heq⟩ := List.mem_map.mp (hmap ▸ hv)
      exact ⟨w, hw, Prod.mk.inj heq⟩
    refine ⟨used', unused', rfl, ?_, fun v hv => ?_, fun v hv => ?_, fun v hv => ?_, ?_⟩
    · have hlen := congrArg List.length hused
      have hlen' := congrArg List.length hunused
      rw [List.length_map, List.length_map] at hlen hlen'
      rw [hlen, hlen']
      exact hslots.length
    · obtain ⟨w, hw, hidx, hnum⟩ := hmem hunused v hv
      exact hidx ▸ hnum ▸ hslots.empty w hw
    · obtain ⟨w, hw, hidx, -⟩ := hmem hused v hv
      exact hidx ▸ hslots.placed w hw
    · obtain ⟨w, hw, hidx, hnum⟩ := hmem hused v hv
      exact hidx ▸ hnum ▸ hslots.counted w hw
    · have hgrams := congrArg (List.map fun p : ℕ × ℕ => gram inp p.1 m) hused
      rw [List.map_map, List.map_map] at hgrams
      exact hgrams.trans hslots.grams

theorem KeyCounted.valueNum (hk : KeyCounted inp n m k) {v : Value} (hv : v ∈ k.values) :
    v.valueNum = if v.valueIdx = 0 then 0 else
      capped ((continuations inp (gram inp k.keyIdx n) m k.scanned).count
        (gram inp v.valueIdx m)) := by
  obtain ⟨used, unused, heq, hslots⟩ := hk.slots
  rw [heq] at hv
  rcases List.mem_append.mp hv with hv | hv
  · rw [if_neg (hslots.placed v hv).1]
    exact hslots.counted v hv
  · rw [if_pos (hslots.empty v hv).1]
    exact (hslots.empty v hv).2

theorem slots_replicate (x : ℤ) :
    Slots inp m [] [] (List.replicate commonNgramMaxValues ⟨0, 0, x⟩) where
  length := by rw [List.length_nil, List.length_replicate, Nat.zero_add]
  empty v hv := by
    rw [List.eq_of_mem_replicate hv]
    exact ⟨rfl, rfl⟩
  placed v hv := absurd hv List.not_mem_nil
  counted v hv := absurd hv List.not_mem_nil
  grams := rfl

end

namespace Map

variable {map map' : Map} {inp hist key draft : List Token} {sampled : Token} {pos offset : ℕ}

/-- A position that is found: key and value lie in front of the end. -/
def Found (map : Map) (inp key : List Token) (pos : ℕ) : Prop :=
  pos + map.sizeKey + map.sizeValue + 1 ≤ inp.length ∧ gram inp pos map.sizeKey = key

theorem found_of_le_lastPos {size : ℕ} (hpos : pos ≠ 0) (hle : pos ≤ map.lastPos size)
    (hsize : size ≤ inp.length) (hgram : gram inp pos map.sizeKey = key) :
    map.Found inp key pos := by
  rw [lastPos] at hle
  exact ⟨by omega, hgram⟩

theorem tableMatch_found (hkey : key.length = map.sizeKey) (h : map.tableMatch inp key = .ok pos)
    (hpos : pos ≠ 0) : map.Found inp key pos := by
  rw [tableMatch] at h
  split_ifs at h with hidx
  · obtain ⟨b, hb, h⟩ := bind_eq_ok.1 h
    cases b with
    | true =>
      obtain rfl := Except.ok.inj h
      exact found_of_le_lastPos hpos hidx.2.2.le le_rfl (hkey ▸ (sameKey_eq hb).mp rfl)
    | false => exact absurd (Except.ok.inj h).symm hpos
  · exact absurd (Except.ok.inj h).symm hpos

theorem searchDown_found {lo hi : ℕ} (hkey : key.length = map.sizeKey)
    (hi_le : hi + map.sizeKey ≤ inp.length) (h : searchDown inp key lo hi = .ok pos)
    (hpos : pos ≠ 0) : pos ≤ hi ∧ gram inp pos map.sizeKey = key := by
  obtain ⟨pos', hrun, hfound⟩ := searchDown_ok lo hi (hkey ▸ hi_le)
  obtain rfl := Except.ok.inj (h.symm.trans hrun)
  exact ⟨(hfound hpos).2.1, hkey ▸ (hfound hpos).2.2⟩

theorem matchBefore_found (hkey : key.length = map.sizeKey) (hbegin : map.sizeLastBegin ≤ inp.length)
    (h : map.matchBefore inp key = .ok pos) (hpos : pos ≠ 0) : map.Found inp key pos := by
  rw [matchBefore] at h
  split_ifs at h with hsize
  · obtain ⟨hle, hgram⟩ := searchDown_found hkey (by rw [lastPos]; omega) h hpos
    exact found_of_le_lastPos hpos hle hbegin hgram
  · exact absurd (Except.ok.inj h).symm hpos

theorem matchBehind_found (hkey : key.length = map.sizeKey) (henough : map.sizeKey ≤ inp.length)
    (h : map.matchBehind inp key = .ok pos) (hpos : pos ≠ 0) : map.Found inp key pos := by
  obtain ⟨hle, hgram⟩ := searchDown_found hkey (by rw [lastPos]; omega) h hpos
  exact found_of_le_lastPos hpos hle le_rfl hgram

theorem findMatch_found (hkey : key.length = map.sizeKey) (hbegin : map.sizeLastBegin ≤ inp.length)
    (henough : map.sizeKey ≤ inp.length) (h : map.findMatch inp key = .ok pos) (hpos : pos ≠ 0) :
    map.Found inp key pos := by
  obtain ⟨p₁, h₁, h⟩ := bind_eq_ok.1 h
  split_ifs at h with hp₁
  · obtain rfl := Except.ok.inj h
    exact tableMatch_found hkey h₁ hpos
  · obtain ⟨p₂, h₂, h⟩ := bind_eq_ok.1 h
    split_ifs at h with hp₂
    · obtain rfl := Except.ok.inj h
      exact matchBefore_found hkey hbegin h₂ hpos
    · exact matchBehind_found hkey henough h hpos

theorem enterHashes_eq (h : map.enterHashes inp = .ok map') :
    ∃ keyMap lastIdx, map' = map.withTable keyMap lastIdx := by
  rw [enterHashes] at h
  split_ifs at h
  · exact ⟨map.keyMap, map.keyMapLastIdx, (Except.ok.inj h).symm⟩
  · obtain ⟨keyMap, -, h⟩ := bind_eq_ok.1 h
    obtain ⟨keyMap', -, h⟩ := bind_eq_ok.1 h
    exact ⟨_, _, (Except.ok.inj h).symm⟩

/-- The entries of the map are counted. -/
def Counted (map : Map) (inp : List Token) : Prop :=
  map.keyOnly = false ∧ ∀ k ∈ map.keys, KeyCounted inp map.sizeKey map.sizeValue k

theorem newKey_counted (h : map.Found inp key pos) :
    KeyCounted inp map.sizeKey map.sizeValue (map.newKey pos) where
  keyIdx := h.1
  statIdx := by
    have := h.1
    change 0 + _ + _ + _ ≤ _
    omega
  slots := ⟨[], _, rfl, slots_replicate _⟩

theorem keysWith_counted (h : map.Counted inp) (hpos : map.Found inp key pos) :
    ∀ k ∈ map.keysWith offset pos, KeyCounted inp map.sizeKey map.sizeValue k := by
  rw [keysWith]
  split_ifs
  · intro k hk
    rcases List.mem_append.mp hk with hk | hk
    · exact h.2 k hk
    · exact List.mem_singleton.mp hk ▸ newKey_counted hpos
  · exact h.2

theorem currKey_counted (h : map.Counted inp) (hpos : map.Found inp key pos)
    (hkey : key.length = map.sizeKey) (hoffset : findKey inp key map.keys = .ok offset) :
    offset < (map.keysWith offset pos).length ∧
      KeyCounted inp map.sizeKey map.sizeValue (map.currKey offset pos) ∧
      gram inp (map.currKey offset pos).keyIdx map.sizeKey = key := by
  have hread : ∀ k ∈ map.keys, k.keyIdx + key.length ≤ inp.length := by
    intro k hk
    have := (h.2 k hk).keyIdx
    omega
  obtain ⟨offset', hrun, hle, hat, -⟩ := findKey_ok hread
  obtain rfl := Except.ok.inj (hrun.symm.trans hoffset)
  have hlt : offset' < (map.keysWith offset' pos).length := by
    rw [keysWith]
    split_ifs with hend
    · rw [List.length_append, List.length_singleton]
      omega
    · omega
  obtain ⟨k, hk, hcurr⟩ : ∃ k, (map.keysWith offset' pos)[offset']? = some k ∧
      map.currKey offset' pos = { k with keyNum := min (k.keyNum + 1) commonNgramMaxValueCount } :=
    ⟨_, List.getElem?_eq_getElem hlt, by rw [currKey, List.getD_eq_getElem _ _ hlt]⟩
  have hcounted := keysWith_counted h hpos k (List.mem_of_getElem? hk)
  rw [hcurr]
  refine ⟨hlt, ⟨hcounted.keyIdx, hcounted.statIdx, hcounted.slots⟩, ?_⟩
  rw [keysWith] at hk
  split_ifs at hk with hend
  · rw [hend, List.getElem?_concat_length] at hk
    obtain rfl := Option.some.inj hk
    exact hpos.2
  · exact hkey ▸ hat k hk

theorem statistics_counted {curr curr' : Key} (hcurr : KeyCounted inp map.sizeKey map.sizeValue curr)
    (hkey : gram inp curr.keyIdx map.sizeKey = key) (hpos : map.Found inp key pos)
    (honce : curr.CountsOnce inp map.sizeKey map.sizeValue pos)
    (hrun : map.statistics inp key pos curr = .ok curr') :
    curr'.keyIdx = curr.keyIdx ∧ ∃ used unused, curr'.values = used ++ unused ∧
      Slots inp map.sizeValue (continuations inp key map.sizeValue (pos + 1)) used unused ∧
      curr'.statIdx = pos := by
  obtain ⟨hle, -⟩ := hpos
  have hlen : key.length = map.sizeKey := by
    have hidx := hcurr.keyIdx
    rw [← hkey]
    exact gram_length (by omega)
  have hsize := map.sizeKey_pos
  obtain ⟨values, hsteps, hrun⟩ := bind_eq_ok.1 hrun
  obtain rfl := Except.ok.inj hrun
  obtain ⟨used, unused, heq, hslots⟩ := hcurr.slots
  rw [hkey, Key.scanned] at hslots
  rw [heq] at hsteps
  refine ⟨rfl, ?_⟩
  split_ifs at hslots with hzero
  · rw [hzero] at hsteps
    obtain ⟨used', unused', hvalues, hslots'⟩ := hslots.statSteps _ (by omega) (by omega) hsteps
    rw [Nat.zero_add] at hslots'
    exact ⟨used', unused', hvalues, hslots', rfl⟩
  · obtain ⟨hfront, hcap⟩ := honce.resolve_left hzero
    rw [show pos + 1 - curr.statIdx = (pos - curr.statIdx) + 1 by omega, List.range'_succ,
      List.foldlM_cons] at hsteps
    obtain ⟨values₁, hstep, hsteps⟩ := bind_eq_ok.1 hsteps
    obtain rfl := hslots.restat (fun v hv => hlen ▸ hcap v (heq ▸ List.mem_append_left _ hv)
      (hslots.placed v hv).1) hstep
    obtain ⟨used', unused', hvalues, hslots'⟩ := hslots.statSteps _ (by omega) (by omega) hsteps
    rw [show curr.statIdx + 1 + (pos - curr.statIdx) = pos + 1 by omega] at hslots'
    exact ⟨used', unused', hvalues, hslots', rfl⟩

/-- The continuation behind the match is the one that dominates, if one does. -/
def DraftsDominant (map : Map) (inp key : List Token) (pos : ℕ) : Prop :=
  ∀ g ∈ stored (continuations inp key map.sizeValue (pos + 1)),
    Dominates (continuations inp key map.sizeValue (pos + 1)) g →
      gram inp (pos + map.sizeKey) map.sizeValue = g

/-- The conditions on a draft: a match whose key has enough hits counts no position twice, and the
tokens behind it are the continuation that is most frequent. -/
def Straight (map : Map) (inp : List Token) (sampled : Token) : Prop :=
  ∀ pos offset, map.findMatch inp (map.keyTokens inp sampled) = .ok pos → pos ≠ 0 →
    findKey inp (map.keyTokens inp sampled) map.keys = .ok offset →
    map.minHits ≤ (map.currKey offset pos).keyNum →
      (map.currKey offset pos).CountsOnce inp map.sizeKey map.sizeValue pos ∧
      map.DraftsDominant inp (map.keyTokens inp sampled) pos

/-- A draft follows the statistics: it is the start of the m-gram in the slot that was chosen, which
has the most occurrences. -/
def Follows (map : Map) (inp key draft : List Token) : Prop :=
  ∃ k v, map.keys[map.lastDraftKeyIdx]? = some k ∧ gram inp k.keyIdx map.sizeKey = key ∧
    k.values[map.lastDraftValueIdx]? = some v ∧ v.valueIdx ≠ 0 ∧
    draft <+: gram inp v.valueIdx map.sizeValue ∧ ∀ w ∈ k.values, w.valueNum ≤ v.valueNum

theorem setKey_counted {k : Key} (h : map.Counted inp) (hpos : map.Found inp key pos)
    (hk : KeyCounted inp map.sizeKey map.sizeValue k) : (map.setKey offset pos k).Counted inp := by
  refine ⟨h.1, fun k' hk' => ?_⟩
  rcases List.mem_or_eq_of_mem_set hk' with hk' | rfl
  · exact keysWith_counted h hpos k' hk'
  · exact hk

theorem continuations_ne_nil (h : gram inp pos key.length = key) (size : ℕ) :
    continuations inp key size (pos + 1) ≠ [] := by
  rw [continuations_succ, if_pos h]
  exact List.append_ne_nil_of_right_ne_nil _ (List.cons_ne_nil _ _)

theorem fillDraft_follows {k : Key} {used unused : List Value} (hpos : map.Found inp key pos)
    (hkey : gram inp k.keyIdx map.sizeKey = key) (hlen : key.length = map.sizeKey)
    (hlt : offset < (map.keysWith offset pos).length) (hvalues : k.values = used ++ unused)
    (hslots : Slots inp map.sizeValue (continuations inp key map.sizeValue (pos + 1)) used unused)
    (hdominant : map.DraftsDominant inp key pos)
    (hdraft : 2 * sumOccur k.values ≤ (slotMax k.values).1)
    (hrun : map.fillDraft inp pos offset (slotMax k.values).2 k = .ok (map', draft)) :
    map'.Follows inp key draft := by
  obtain ⟨tokens, hread, hrun⟩ := bind_eq_ok.1 hrun
  obtain ⟨rfl, rfl⟩ := Prod.mk.inj (Except.ok.inj hrun)
  have hne := continuations_ne_nil (hlen.symm ▸ hpos.2) map.sizeValue
  obtain ⟨hs, hnum, hall⟩ := hslots.slotMax_used hne
  rw [hvalues] at hdraft hread
  have hbehind := hdominant _ (hslots.grams ▸ List.mem_map_of_mem
    (f := fun v : Value => gram inp v.valueIdx map.sizeValue) (List.getElem_mem hs))
    (hslots.dominates hs hnum hdraft)
  have hend := hpos.1
  rw [readGram_ok (by omega)] at hread
  refine ⟨k, used[(slotMax (used ++ unused)).2], List.getElem?_set_self hlt, hkey, ?_,
    (hslots.placed _ (List.getElem_mem hs)).1, ?_, fun w hw => ?_⟩
  · change k.values[(slotMax k.values).2]? = _
    rw [hvalues, List.getElem?_append_left hs, List.getElem?_eq_getElem hs]
  · change _ <+: gram inp _ map.sizeValue
    rw [← hbehind, ← Except.ok.inj hread]
    exact List.take_prefix_take_left (by omega)
  · rw [hnum]
    exact hall w (hvalues ▸ hw)

theorem fillDraft_counted {k : Key} {slot : ℕ} (h : map.Counted inp) (hpos : map.Found inp key pos)
    (hk : KeyCounted inp map.sizeKey map.sizeValue k)
    (hrun : map.fillDraft inp pos offset slot k = .ok (map', draft)) :
    map'.Counted inp ∧ map'.idxLastCheck = map.idxLastCheck := by
  obtain ⟨tokens, -, hrun⟩ := bind_eq_ok.1 hrun
  obtain ⟨rfl, rfl⟩ := Prod.mk.inj (Except.ok.inj hrun)
  exact ⟨⟨h.1, (setKey_counted h hpos hk).2⟩, rfl⟩

theorem draftMatch_counted (h : map.Counted inp) (hkey : key.length = map.sizeKey)
    (hpos : map.Found inp key pos) (hne : pos ≠ 0)
    (hstraight : ∀ offset, findKey inp key map.keys = .ok offset →
      map.minHits ≤ (map.currKey offset pos).keyNum →
      (map.currKey offset pos).CountsOnce inp map.sizeKey map.sizeValue pos ∧
        map.DraftsDominant inp key pos)
    (hrun : map.draftMatch inp key pos = .ok (map', draft)) :
    map'.Counted inp ∧ map'.idxLastCheck = map.idxLastCheck ∧
      (draft ≠ [] → map'.Follows inp key draft) := by
  obtain ⟨offset, hoffset, hrun⟩ := bind_eq_ok.1 hrun
  obtain ⟨hlt, hcurr, hgram⟩ := currKey_counted h hpos hkey hoffset
  dsimp only at hrun
  rw [if_neg (by simp [h.1])] at hrun
  split_ifs at hrun with hhits
  · obtain ⟨rfl, rfl⟩ := Prod.mk.inj (Except.ok.inj hrun)
    exact ⟨setKey_counted h hpos hcurr, rfl, fun h => absurd rfl h⟩
  · obtain ⟨honce, hdominant⟩ := hstraight offset hoffset (not_lt.mp hhits)
    obtain ⟨curr, hstat, hrun⟩ := bind_eq_ok.1 hrun
    obtain ⟨hidx, used, unused, hvalues, hslots, hstatIdx⟩ :=
      statistics_counted hcurr hgram hpos honce hstat
    have hgram' : gram inp curr.keyIdx map.sizeKey = key := hidx ▸ hgram
    have hk : KeyCounted inp map.sizeKey map.sizeValue curr := by
      refine ⟨hidx ▸ hcurr.keyIdx, hstatIdx ▸ hpos.1, used, unused, hvalues, ?_⟩
      rw [hgram', Key.scanned, hstatIdx, if_neg hne]
      exact hslots
    rw [draftValue] at hrun
    split_ifs at hrun with hdraft
    · obtain ⟨rfl, rfl⟩ := Prod.mk.inj (Except.ok.inj hrun)
      exact ⟨setKey_counted h hpos hk, rfl, fun h => absurd rfl h⟩
    · obtain ⟨hcounted, hcheck⟩ := fillDraft_counted h hpos hk hrun
      refine ⟨hcounted, hcheck, fun _ => ?_⟩
      exact fillDraft_follows hpos hgram' hkey hlt hvalues hslots hdominant (by omega) hrun

theorem draft_counted (h : map.Counted hist) (hgrows : hist <+: inp)
    (hstraight : map.Straight inp sampled) (hrun : map.draft inp sampled = .ok (map', draft)) :
    map'.Counted inp ∧ (map'.idxLastCheck = map.idxLastCheck ∨ map'.idxLastCheck = inp.length) ∧
      (draft ≠ [] → map'.Follows inp (map.keyTokens inp sampled) draft) := by
  have hcounted : map.Counted inp := ⟨h.1, fun k hk => (h.2 k hk).grown hgrows⟩
  rw [Map.draft] at hrun
  split_ifs at hrun with hshort habort
  · obtain ⟨rfl, rfl⟩ := Prod.mk.inj (Except.ok.inj hrun)
    exact ⟨hcounted, .inl rfl, fun h => absurd rfl h⟩
  · have hsize := map.sizeKey_pos
    have hkey : (map.keyTokens inp sampled).length = map.sizeKey := keyTokens_length (by omega)
    obtain ⟨pos, hfind, hrun⟩ := bind_eq_ok.1 hrun
    obtain ⟨map₁, henter, hrun⟩ := bind_eq_ok.1 hrun
    obtain ⟨keyMap, lastIdx, rfl⟩ := enterHashes_eq henter
    split_ifs at hrun with hzero
    · obtain ⟨rfl, rfl⟩ := Prod.mk.inj (Except.ok.inj hrun)
      exact ⟨hcounted, .inr rfl, fun h => absurd rfl h⟩
    · have hfound : map.Found inp (map.keyTokens inp sampled) pos :=
        findMatch_found hkey (by omega) (by omega) hfind hzero
      have hmap : ({ map.resetDraft with idxLastCheck := inp.length }.withTable keyMap
          lastIdx).Counted inp := hcounted
      obtain ⟨hcounted', hcheck, hfollows⟩ := draftMatch_counted hmap hkey hfound hzero
        (fun offset hoffset => hstraight pos offset hfind hzero hoffset) hrun
      exact ⟨hcounted', .inr hcheck, hfollows⟩

theorem accept_counted {nAccepted : ℕ} (h : map.Counted inp)
    (hrun : map.accept nAccepted = .ok map') :
    map'.Counted inp ∧ map'.idxLastCheck = map.idxLastCheck := by
  rw [accept] at hrun
  split_ifs at hrun
  · obtain rfl := Except.ok.inj hrun
    exact ⟨h, rfl⟩
  · cases hkey : map.keys[map.lastDraftKeyIdx]? with
    | none =>
      rw [hkey] at hrun
      cases hrun
    | some key =>
      rw [hkey] at hrun
      obtain rfl := Except.ok.inj hrun
      refine ⟨⟨h.1, fun k hk => ?_⟩, rfl⟩
      rcases List.mem_or_eq_of_mem_set hk with hk | rfl
      · exact h.2 k hk
      · refine (h.2 key (List.mem_of_getElem? hkey)).of_map_eq (List.ext_getElem? fun i => ?_)
        rw [List.getElem?_map, List.getElem?_map, List.getElem?_modify]
        cases key.values[i]? with
        | none => rfl
        | some v =>
          change some _ = some _
          split_ifs <;> rfl

theorem begin_counted {tokens : List Token} (h : map.Counted hist) (hgrows : hist <+: tokens)
    (hcheck : map.idxLastCheck ≤ hist.length) : (map.begin tokens).Counted tokens := by
  refine ⟨h.1, fun k hk => ?_⟩
  have hlong := hcheck.trans hgrows.length_le
  rw [begin] at hk
  dsimp only at hk
  rw [if_neg (by simpa using hlong)] at hk
  exact (h.2 k hk).grown hgrows

end Map

/-! ## Runs that append -/

/-- The calls of a history that is only appended to. -/
def Op.Appends (s : State) : Op → Prop
  | .begin tokens => s.hist <+: tokens
  | .draft inp _ => s.hist <+: inp
  | .accept _ => True

/-- A draft that counts no position twice, in front of the continuation that is most frequent. -/
def Op.Straight (s : State) : Op → Prop
  | .draft inp sampled => s.map.Straight inp sampled
  | _ => True

/-- The slots hold the numbers of the m-grams behind their keys, in what has been scanned. -/
def State.Exact (s : State) : Prop :=
  ∀ k ∈ s.map.keys, ∀ v ∈ k.values, v.valueNum = if v.valueIdx = 0 then 0 else
    capped ((continuations s.hist (gram s.hist k.keyIdx s.map.sizeKey) s.map.sizeValue
      k.scanned).count (gram s.hist v.valueIdx s.map.sizeValue))

/-- After the call the numbers are exact, and a draft that it has made follows them. -/
def Op.Right (s : State) (op : Op) : Prop :=
  ∀ s' draft, op.call s = .ok (s', draft) → s'.Exact ∧
    ∀ inp sampled, op = .draft inp sampled → draft ≠ [] →
      s'.map.Follows inp (s.map.keyTokens inp sampled) draft

def State.Counted (s : State) : Prop :=
  s.map.Counted s.hist ∧ s.map.idxLastCheck ≤ s.hist.length

theorem State.Counted.exact {s : State} (h : s.Counted) : s.Exact :=
  fun k hk _ hv => (h.1.2 k hk).valueNum hv

theorem Op.keeps_counted {s s' : State} {op : Op} {draft : List Token} (h : s.Counted)
    (hop : op.Appends s ∧ op.Straight s) (hcall : op.call s = .ok (s', draft)) :
    s'.Counted ∧ ∀ inp sampled, op = .draft inp sampled → draft ≠ [] →
      s'.map.Follows inp (s.map.keyTokens inp sampled) draft := by
  cases op with
  | begin tokens =>
    obtain ⟨rfl, rfl⟩ := Prod.mk.inj (Except.ok.inj hcall)
    exact ⟨⟨Map.begin_counted h.1 hop.1 h.2, le_rfl⟩, fun _ _ heq => nomatch heq⟩
  | draft inp sampled =>
    have hgrows : s.hist <+: inp := hop.1
    obtain ⟨⟨map, draft⟩, hrun, hcall⟩ := bind_eq_ok.1 hcall
    obtain ⟨rfl, rfl⟩ := Prod.mk.inj (Except.ok.inj hcall)
    obtain ⟨hcounted, hcheck, hfollows⟩ := Map.draft_counted h.1 hgrows hop.2 hrun
    refine ⟨⟨hcounted, ?_⟩, fun inp' sampled' heq => ?_⟩
    · rcases hcheck with hcheck | hcheck
      · exact (hcheck.trans_le h.2).trans hgrows.length_le
      · exact hcheck.le
    · obtain ⟨rfl, rfl⟩ := Op.draft.inj heq
      exact hfollows
  | accept nAccepted =>
    obtain ⟨map, hrun, hcall⟩ := bind_eq_ok.1 hcall
    obtain ⟨rfl, rfl⟩ := Prod.mk.inj (Except.ok.inj hcall)
    obtain ⟨hcounted, hcheck⟩ := Map.accept_counted h.1 hrun
    exact ⟨⟨hcounted, hcheck.trans_le h.2⟩, fun _ _ heq => nomatch heq⟩

theorem start_counted {sizeKey sizeValue minHits keyMapSize : ℕ} (h : 0 < sizeKey) :
    (start sizeKey sizeValue minHits keyMapSize false h).Counted :=
  ⟨⟨rfl, fun _ hk => absurd hk List.not_mem_nil⟩, le_rfl⟩

/-- A run that appends, with straight drafts, has exact statistics that its drafts follow. -/
theorem straight_run_follows (sizeKey sizeValue minHits keyMapSize : ℕ) (h : 0 < sizeKey)
    (ops : List Op) (hops : Each (fun s op => op.Appends s ∧ op.Straight s)
      (start sizeKey sizeValue minHits keyMapSize false h) ops) :
    Each (fun s op => op.Right s) (start sizeKey sizeValue minHits keyMapSize false h) ops :=
  each_of_invariant (I := State.Counted)
    (fun _ _ hs hop _ _ hcall =>
      ⟨(Op.keeps_counted hs hop hcall).1.exact, (Op.keeps_counted hs hop hcall).2⟩)
    (fun _ _ _ _ hs hop hcall => (Op.keeps_counted hs hop hcall).1) (start_counted h) hops

/-- Keys and values of one token, and a draft from the first match. -/
def startOne : State := start 1 1 1 commonNgramHashMapSize false Nat.one_pos

theorem draft_finds : ((startOne.map.begin [7]).findMatch [7, 0, 1, 2, 3] [1]).toOption = some 2 := by
  decide +kernel

theorem straight_run_follows_first : Each (fun s op => op.Right s) startOne
    [.begin [7], .draft [7, 0, 1, 2, 3] 1, .accept 1] := by
  refine straight_run_follows 1 1 1 commonNgramHashMapSize (by decide) _
    ⟨⟨List.nil_prefix, trivial⟩, fun s draft h => ?_⟩
  obtain ⟨rfl, -⟩ := Prod.mk.inj (Except.ok.inj h)
  refine ⟨⟨?_, fun pos offset hfind _ hoffset _ => ?_⟩,
    fun _ _ _ => ⟨⟨trivial, trivial⟩, fun _ _ _ => trivial⟩⟩
  · change [7] <+: ([7, 0, 1, 2, 3] : List Token)
    decide
  · have hfound := draft_finds
    rw [show startOne.map.begin [7] = (start 1 1 1 commonNgramHashMapSize false Nat.one_pos).map.begin [7]
      from rfl] at hfound
    change Map.findMatch _ [7, 0, 1, 2, 3] [1] = _ at hfind
    rw [hfind] at hfound
    obtain rfl := Option.some.inj hfound
    obtain rfl := Except.ok.inj hoffset
    refine ⟨.inl rfl, ?_⟩
    change ∀ g ∈ stored (continuations [7, 0, 1, 2, 3] [1] 1 3), Dominates _ g →
      gram [7, 0, 1, 2, 3] 3 1 = g
    rw [show stored (continuations [7, 0, 1, 2, 3] [1] 1 3) = [[2]] by decide]
    intro g hg _
    rw [List.mem_singleton.mp hg]
    decide

/-! ## The position that is counted twice -/

theorem draft_again : ∃ s draft s' draft', (Op.draft [7, 1, 2, 3] 1).call startOne = .ok (s, draft) ∧
    s.hist = [7, 1, 2, 3] ∧ (Op.draft [7, 1, 2, 3, 1, 2] 1).call s = .ok (s', draft') ∧
      s'.hist = [7, 1, 2, 3, 1, 2] ∧ s'.map.sizeKey = 1 ∧ s'.map.sizeValue = 1 ∧
        s'.map.keys = [⟨1, 1, 2, [⟨2, 2, 1⟩, ⟨0, 0, 1⟩, ⟨0, 0, 1⟩, ⟨0, 0, 1⟩]⟩] := by
  have hread : ((Op.draft [7, 1, 2, 3] 1).call startOne).toOption.bind (fun r =>
      ((Op.draft [7, 1, 2, 3, 1, 2] 1).call r.1).toOption.map fun r' =>
        ((r.1.hist, r'.1.hist), (r'.1.map.sizeKey, r'.1.map.sizeValue), r'.1.map.keys)) =
      some (([7, 1, 2, 3], [7, 1, 2, 3, 1, 2]), (1, 1),
        [⟨1, 1, 2, [⟨2, 2, 1⟩, ⟨0, 0, 1⟩, ⟨0, 0, 1⟩, ⟨0, 0, 1⟩]⟩]) := by decide +kernel
  cases hcall : (Op.draft [7, 1, 2, 3] 1).call startOne with
  | error e =>
    rw [hcall] at hread
    cases hread
  | ok r =>
    rw [hcall] at hread
    change ((Op.draft [7, 1, 2, 3, 1, 2] 1).call r.1).toOption.map _ = _ at hread
    cases hcall' : (Op.draft [7, 1, 2, 3, 1, 2] 1).call r.1 with
    | error e =>
      rw [hcall'] at hread
      cases hread
    | ok r' =>
      rw [hcall'] at hread
      obtain ⟨hhists, hread⟩ := Prod.mk.inj (Option.some.inj hread)
      obtain ⟨hsizes, hkeys⟩ := Prod.mk.inj hread
      obtain ⟨hhist, hhist'⟩ := Prod.mk.inj hhists
      obtain ⟨hkey, hvalue⟩ := Prod.mk.inj hsizes
      exact ⟨r.1, r.2, r'.1, r'.2, rfl, hhist, hcall', hhist', hkey, hvalue, hkeys⟩

/-- The history has one match, and the second draft counts it again. -/
theorem draft_counts_match_twice : ¬ ∀ (sizeKey sizeValue minHits keyMapSize : ℕ) (h : 0 < sizeKey)
    (ops : List Op), Each (fun s op => op.Appends s)
      (start sizeKey sizeValue minHits keyMapSize false h) ops →
    Each (fun s op => op.Right s) (start sizeKey sizeValue minHits keyMapSize false h) ops := by
  intro hall
  obtain ⟨s, draft, s', draft', hcall, hhist, hcall', hhist', hkey, hvalue, hkeys⟩ := draft_again
  have hrun := hall 1 1 1 commonNgramHashMapSize (by decide)
    [.draft [7, 1, 2, 3] 1, .draft [7, 1, 2, 3, 1, 2] 1] ?_
  · have hexact := (((hrun.2 s draft hcall).1) s' draft' hcall').1
    rw [State.Exact, hkeys, hhist', hkey, hvalue] at hexact
    exact absurd (hexact _ List.mem_cons_self _ List.mem_cons_self) (by decide)
  · refine ⟨List.nil_prefix, fun s₁ d₁ h₁ => ?_⟩
    obtain ⟨rfl, -⟩ := Prod.mk.inj (Except.ok.inj (h₁.symm.trans hcall))
    refine ⟨?_, fun _ _ _ => trivial⟩
    change s₁.hist <+: _
    rw [hhist]
    decide

end NgramMap
end RocmFpx
