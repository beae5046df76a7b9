import RocmFpx.Fallible
import Mathlib.Data.List.Sort
import Mathlib.Data.Rat.Floor
import Mathlib.Tactic.Positivity

/-!
The partial sort of candidates by buckets: the candidates are counted into buckets by their logit,
the upper buckets are scattered next to each other and sorted one by one.
-/

namespace RocmFpx
namespace BucketSort

/-- `llama_token_data`. -/
structure Candidate where
  id : ℤ
  logit : ℚ
  p : ℚ

instance : Inhabited Candidate := ⟨⟨0, 0, 0⟩⟩

def Ge (a b : Candidate) : Prop := b.logit ≤ a.logit

instance : DecidableRel Ge := fun a b => inferInstanceAs (Decidable (b.logit ≤ a.logit))

instance : Std.Total Ge := ⟨fun a b => le_total b.logit a.logit⟩

instance : IsTrans Candidate Ge := ⟨fun _ _ _ hab hbc => hbc.trans hab⟩

/-- A `llama_token_data_array`; vocabularies are counted by an `int32_t`. -/
structure Candidates where
  data : List Candidate
  size_lt : data.length < 2 ^ 31

/-- Rounding of a `float`. -/
structure Rounding where
  round : ℚ → ℚ
  mono : Monotone round
  map_zero : round 0 = 0

/-- `std::sort` and `std::partial_sort` under a comparison by logit. -/
structure StdSort where
  sort : List Candidate → List Candidate
  sort_perm : ∀ xs, (sort xs).Perm xs
  sort_sorted : ∀ xs, (sort xs).Pairwise Ge
  partialSort : ℕ → List Candidate → List Candidate
  partialSort_perm : ∀ n xs, (partialSort n xs).Perm xs
  partialSort_sorted : ∀ n xs, ((partialSort n xs).take n).Pairwise Ge
  partialSort_split : ∀ n xs, ∀ a ∈ (partialSort n xs).take n, ∀ b ∈ (partialSort n xs).drop n,
    Ge a b

def nbuckets : ℕ := 128

section
variable (R : Rounding)

def bucketScale : ℚ := R.round (nbuckets / (10 - -10))

def bucketInter : ℚ := R.round (10 * bucketScale R)

/-- The conversion to `int`, undefined outside of its range. -/
def toInt (x : ℚ) : Option ℤ :=
  let n := if 0 ≤ x then ⌊x⌋ else ⌈x⌉
  if -2 ^ 31 ≤ n ∧ n < 2 ^ 31 then some n else none

def scaled (val : ℚ) : ℚ := R.round (R.round (bucketScale R * val) + bucketInter R)

def bucketIdx (val : ℚ) : Option ℕ :=
  (toInt (scaled R val)).map fun ib => (max 0 (min (nbuckets - 1 : ℤ) ib)).toNat

end

/-- `++histo[ib]` for every candidate. -/
def histogram (bucketIdx : List ℕ) : ℕ → ℕ :=
  bucketIdx.foldl (fun histo ib => Function.update histo ib (histo ib + 1)) fun _ => 0

/-- The loop down to the bucket that completes `npartial` candidates; `none` reads `histo[-1]`. -/
def lastBucket (histo : ℕ → ℕ) ( npartial : ℕ) : ℕ → ℕ → Option (ℕ × ℕ)
  | 0, _ => none
  | ib + 1, nhave =>
    if npartial ≤ nhave + histo ib then some (ib, nhave + histo ib)
    else lastBucket histo npartial ib (nhave + histo ib)

/-- `nbuckets - 1` down to `ib`. -/
def buckets (ib : ℕ) : List ℕ := (List.range' ib (nbuckets - ib)).reverse

/-- Where each bucket begins. -/
def bucketPtrs (histo : ℕ → ℕ) : List ℕ → ℕ → ℕ → ℕ
  | [], _ => fun _ => 0
  | j :: js, ptr => Function.update (bucketPtrs histo js (ptr + histo j)) j ptr

/-- One turn of the loop that moves the candidates of the buckets from `ib` on to their places. -/
def scatterOne (ib : ℕ) (s : (ℕ → Candidate) × (ℕ → ℕ)) (c : ℕ × Candidate) :
    (ℕ → Candidate) × (ℕ → ℕ) :=
  if ib ≤ c.1 then
    (Function.update s.1 (s.2 c.1) c.2, Function.update s.2 c.1 (s.2 c.1 + 1))
  else s

def segment (res : ℕ → Candidate) (ptr n : ℕ) : List Candidate :=
  (List.range n).map fun k => res (ptr + k)

variable (S : StdSort)

/-- The buckets above `ib` are sorted from `res + ndone` on, and that one partially. -/
def sortBuckets (histo : ℕ → ℕ) ( npartial ib : ℕ) (res : ℕ → Candidate) :
    List ℕ → ℕ → List Candidate
  | [], ndone => S.partialSort ( npartial - ndone) (segment res ndone (histo ib))
  | j :: js, ndone =>
    S.sort (segment res ndone (histo j)) ++ sortBuckets histo npartial ib res js (ndone + histo j)

/-- `llama_token_data_array_partial_sort`, with the result in `res`. -/
def partialSort (R : Rounding) (cur : List Candidate) ( npartial : ℕ) :
    Option (List Candidate) := do
  let bucketIdx ← cur.mapM fun c => bucketIdx R c.logit
  let histo := histogram bucketIdx
  let (ib, _) ← lastBucket histo npartial nbuckets 0
  let ptrs := bucketPtrs histo (buckets ib) 0
  let (res, _) := (bucketIdx.zip cur).foldl (scatterOne ib) (fun _ => default, ptrs)
  some (sortBuckets S histo npartial ib res (buckets (ib + 1)) 0)

/-- `llama_token_data_array_partial_sort_inplace`, which then sets the size and `sorted`. -/
def partialSortInplace (R : Rounding) (cur : Candidates) ( npartial : ℕ) :
    Option (List Candidate × Bool) :=
  if npartial ≤ 128 then some ((S.partialSort npartial cur.data).take npartial, true)
  else (partialSort S R cur.data npartial).map fun tmp => (tmp.take npartial, true)

/-- The `n` largest logits in descending order, each with its own id. -/
structure Top (cur : List Candidate) (n : ℕ) (out : List Candidate) : Prop where
  sorted : out.Pairwise Ge
  length : out.length = n
  rest : ∃ others, (out ++ others).Perm cur ∧ ∀ a ∈ out, ∀ b ∈ others, Ge a b

/-! ## The buckets of a monotone map -/

/-- The candidates of one bucket, in order. -/
def bucketOf (bucket : Candidate → ℕ) (cur : List Candidate) (j : ℕ) : List Candidate :=
  cur.filter fun c => bucket c = j

theorem buckets_eq {ib : ℕ} (h : ib < nbuckets) : buckets ib = buckets (ib + 1) ++ [ib] := by
  rw [buckets, buckets, show nbuckets - ib = nbuckets - (ib + 1) + 1 by omega, List.range'_succ,
    List.reverse_cons]

theorem mem_buckets {ib j : ℕ} : j ∈ buckets ib ↔ ib ≤ j ∧ j < nbuckets := by
  rw [buckets, List.mem_reverse, List.mem_range'_1]
  omega

theorem buckets_sorted (ib : ℕ) : (buckets ib).Pairwise (· > ·) := by
  rw [buckets, List.pairwise_reverse]
  exact List.pairwise_lt_range'

theorem histogram_eq (bucketIdx : List ℕ) (j : ℕ) : histogram bucketIdx j = bucketIdx.count j := by
  have hall : ∀ (is : List ℕ) (histo : ℕ → ℕ),
      is.foldl (fun histo ib => Function.update histo ib (histo ib + 1)) histo j =
        histo j + is.count j := by
    intro is
    induction is with
    | nil => exact fun histo => rfl
    | cons i is ih =>
      intro histo
      rw [List.foldl_cons, ih, List.count_cons, Function.update_apply]
      by_cases hij : j = i
      · simp [hij]
        omega
      · simp [hij, Ne.symm hij]
  exact (hall bucketIdx _).trans (Nat.zero_add _)

/-! ## Scattering -/

section
variable {histo : ℕ → ℕ} {js : List ℕ} {ptr : ℕ}

theorem bucketPtrs_ge {j : ℕ} (hj : j ∈ js) : ptr ≤ bucketPtrs histo js ptr j := by
  induction js generalizing ptr with
  | nil => cases hj
  | cons i js ih =>
    rw [bucketPtrs, Function.update_apply]
    split_ifs with hji
    · exact le_rfl
    · exact (Nat.le_add_right ptr (histo i)).trans (ih ((List.mem_cons.mp hj).resolve_left hji))

/-- The places of two buckets do not meet. -/
theorem bucketPtrs_disjoint (hnodup : js.Nodup) {i j k l : ℕ} (hi : i ∈ js) (hj : j ∈ js)
    (hne : i ≠ j) (hk : k < histo i) (hl : l < histo j) :
    bucketPtrs histo js ptr i + k ≠ bucketPtrs histo js ptr j + l := by
  induction js generalizing ptr with
  | nil => cases hi
  | cons b js ih =>
    obtain ⟨hb, hnodup⟩ := List.nodup_cons.mp hnodup
    simp only [bucketPtrs, Function.update_apply]
    rcases List.mem_cons.mp hi with rfl | hi' <;> rcases List.mem_cons.mp hj with rfl | hj'
    · exact absurd rfl hne
    · have hge : ptr + histo i ≤ bucketPtrs histo js (ptr + histo i) j := bucketPtrs_ge hj'
      rw [if_pos rfl, if_neg (Ne.symm hne)]
      omega
    · have hge : ptr + histo j ≤ bucketPtrs histo js (ptr + histo j) i := bucketPtrs_ge hi'
      rw [if_pos rfl, if_neg hne]
      omega
    · rw [if_neg (ne_of_mem_of_not_mem hi' hb), if_neg (ne_of_mem_of_not_mem hj' hb)]
      exact ih hnodup hi' hj'

end

section
variable {bucket : Candidate → ℕ} {cur : List Candidate} {ib : ℕ}

/-- The candidates done so far lie behind the pointers of their buckets. -/
structure Scattered (bucket : Candidate → ℕ) (P : ℕ → ℕ) (ib : ℕ) (done : List Candidate)
    (s : (ℕ → Candidate) × (ℕ → ℕ)) : Prop where
  ptrs : ∀ j ∈ buckets ib, s.2 j = P j + (bucketOf bucket done j).length
  placed : ∀ j ∈ buckets ib, ∀ k c, (bucketOf bucket done j)[k]? = some c → s.1 (P j + k) = c

theorem bucketOf_concat (done : List Candidate) (c : Candidate) (j : ℕ) :
    bucketOf bucket (done ++ [c]) j =
      bucketOf bucket done j ++ if bucket c = j then [c] else [] := by
  rw [bucketOf, List.filter_append, bucketOf]
  by_cases hj : bucket c = j <;> simp [hj]

theorem Scattered.step {P : ℕ → ℕ} {done : List Candidate} (rest : List Candidate) {c : Candidate}
    {s : (ℕ → Candidate) × (ℕ → ℕ)} (hlt : bucket c < nbuckets)
    (hdisjoint : ∀ i ∈ buckets ib, ∀ j ∈ buckets ib, i ≠ j → ∀ k l,
      k < (bucketOf bucket (done ++ c :: rest) i).length →
      l < (bucketOf bucket (done ++ c :: rest) j).length → P i + k ≠ P j + l)
    (h : Scattered bucket P ib done s) :
    Scattered bucket P ib (done ++ [c]) (scatterOne ib s (bucket c, c)) := by
  have hlength : ∀ j, (bucketOf bucket (done ++ c :: rest) j).length =
      (bucketOf bucket (done ++ [c]) j).length + (bucketOf bucket rest j).length := by
    intro j
    rw [List.append_cons, bucketOf, List.filter_append, List.length_append]
    rfl
  by_cases hin : ib ≤ bucket c
  · have hmem : bucket c ∈ buckets ib := mem_buckets.2 ⟨hin, hlt⟩
    rw [scatterOne, if_pos hin]
    constructor
    · intro j hj
      simp only [Function.update_apply, bucketOf_concat]
      by_cases hjc : j = bucket c
      · subst hjc
        rw [if_pos rfl, if_pos rfl, h.ptrs _ hj, List.length_append, List.length_singleton,
          add_assoc]
      · rw [if_neg hjc, if_neg (Ne.symm hjc), h.ptrs j hj, List.append_nil]
    · intro j hj k d hk
      have hkl : k < (bucketOf bucket (done ++ [c]) j).length :=
        (List.getElem?_eq_some_iff.mp hk).1
      rw [bucketOf_concat] at hk
      simp only [Function.update_apply, h.ptrs _ hmem]
      by_cases hjc : j = bucket c
      · subst hjc
        rw [if_pos rfl] at hk
        rcases lt_or_ge k (bucketOf bucket done (bucket c)).length with hold | hnew
        · rw [List.getElem?_append_left hold] at hk
          rw [if_neg (by omega)]
          exact h.placed _ hj k d hk
        · rw [bucketOf_concat, if_pos rfl, List.length_append, List.length_singleton] at hkl
          have hkeq : k = (bucketOf bucket done (bucket c)).length := by omega
          rw [List.getElem?_append_right hnew, hkeq, Nat.sub_self] at hk
          rw [if_pos (by omega)]
          exact Option.some.inj hk
      · rw [if_neg (Ne.symm hjc), List.append_nil] at hk
        have hcount := hlength (bucket c)
        rw [bucketOf_concat, if_pos rfl, List.length_append, List.length_singleton] at hcount
        have hother := hlength j
        rw [if_neg (hdisjoint j hj _ hmem hjc k _ (by omega) (by omega))]
        exact h.placed j hj k d hk
  · have hnot : ∀ j ∈ buckets ib, bucketOf bucket (done ++ [c]) j = bucketOf bucket done j := by
      intro j hj
      have hge := (mem_buckets.1 hj).1
      rw [bucketOf_concat, if_neg (by omega), List.append_nil]
    rw [scatterOne, if_neg hin]
    exact ⟨fun j hj => by rw [hnot j hj, h.ptrs j hj],
      fun j hj k d hk => h.placed j hj k d (hnot j hj ▸ hk)⟩

theorem scatter_segment (hlt : ∀ c ∈ cur, bucket c < nbuckets) {j : ℕ} (hj : j ∈ buckets ib)
    (res₀ : ℕ → Candidate) : segment
      ((cur.foldl (fun s c => scatterOne ib s (bucket c, c))
        (res₀, bucketPtrs (fun j => (bucketOf bucket cur j).length) (buckets ib) 0)).1)
      (bucketPtrs (fun j => (bucketOf bucket cur j).length) (buckets ib) 0 j)
      (bucketOf bucket cur j).length = bucketOf bucket cur j := by
  set P := bucketPtrs (fun j => (bucketOf bucket cur j).length) (buckets ib) 0 with hP
  have hnodup : (buckets ib).Nodup := (buckets_sorted ib).imp fun h => Nat.ne_of_gt h
  have hall : ∀ (rest done : List Candidate) s, done ++ rest = cur → Scattered bucket P ib done s →
      Scattered bucket P ib cur (rest.foldl (fun s c => scatterOne ib s (bucket c, c)) s) := by
    intro rest
    induction rest with
    | nil =>
      intro done s hcur h
      rw [List.append_nil] at hcur
      exact hcur ▸ h
    | cons c rest ih =>
      intro done s hcur h
      refine ih (done ++ [c]) _ (by rw [← hcur, List.append_assoc, List.singleton_append])
        (h.step rest (hlt c (hcur ▸ List.mem_append_cons_self)) ?_)
      rw [hcur]
      exact fun i hi j hj hne k l hk hl => bucketPtrs_disjoint hnodup hi hj hne hk hl
  have hscattered := hall cur [] (res₀, P) rfl
    ⟨fun j _ => (Nat.add_zero _).symm, fun j _ k c hk => by cases hk⟩
  refine List.ext_getElem? fun k => ?_
  rw [segment, List.getElem?_map]
  rcases lt_or_ge k (bucketOf bucket cur j).length with hk | hk
  · rw [List.getElem?_range hk, Option.map_some, List.getElem?_eq_getElem hk]
    exact congrArg some (hscattered.placed j hj k _ (List.getElem?_eq_getElem hk))
  · rw [List.getElem?_eq_none (by rwa [List.length_range]), List.getElem?_eq_none hk]
    rfl

theorem sortBuckets_eq (S : StdSort) {histo : ℕ → ℕ} (B : ℕ → List Candidate) (n ib : ℕ)
    (res : ℕ → Candidate) (js : List ℕ) (ptr : ℕ) (hnodup : (js ++ [ib]).Nodup)
    (hseg : ∀ j ∈ js ++ [ib],
      segment res (bucketPtrs histo (js ++ [ib]) ptr j) (histo j) = B j) :
    sortBuckets S histo n ib res js ptr =
      (js.flatMap fun j => S.sort (B j)) ++
        S.partialSort (n - (ptr + (js.map histo).sum)) (B ib) := by
  induction js generalizing ptr with
  | nil =>
    have hib := hseg ib (List.mem_singleton_self ib)
    rw [List.nil_append, bucketPtrs, Function.update_self] at hib
    rw [sortBuckets, hib]
    rfl
  | cons j js ih =>
    rw [List.cons_append] at hnodup hseg
    have hj := hseg j List.mem_cons_self
    rw [bucketPtrs, Function.update_self] at hj
    have hrest : ∀ i ∈ js ++ [ib],
        segment res (bucketPtrs histo (js ++ [ib]) (ptr + histo j) i) (histo i) = B i := by
      intro i hi
      have hne : i ≠ j := ne_of_mem_of_not_mem hi (List.nodup_cons.mp hnodup).1
      have hsegi := hseg i (List.mem_cons_of_mem j hi)
      rwa [bucketPtrs, Function.update_of_ne hne] at hsegi
    rw [sortBuckets, hj, ih _ (List.nodup_cons.mp hnodup).2 hrest, List.flatMap_cons,
      List.map_cons, List.sum_cons, List.append_assoc, Nat.add_assoc]

/-! ## The largest logits -/

theorem flatMap_buckets_perm (hlt : ∀ c ∈ cur, bucket c < nbuckets) (hib : ib ≤ nbuckets) :
    ((buckets ib).flatMap (bucketOf bucket cur)).Perm (cur.filter fun c => ib ≤ bucket c) := by
  induction hn : nbuckets - ib generalizing ib with
  | zero =>
    have hnone : (cur.filter fun c => ib ≤ bucket c) = [] :=
      List.filter_eq_nil_iff.mpr fun c hc => by
        have := hlt c hc
        simp only [decide_eq_true_eq]
        omega
    rw [buckets, hn, hnone]
    rfl
  | succ n ih =>
    have hrest := ih (by omega : ib + 1 ≤ nbuckets) (by omega)
    have hsplit := List.filter_append_perm (fun c => decide (ib + 1 ≤ bucket c))
      (cur.filter fun c => ib ≤ bucket c)
    rw [List.filter_filter, List.filter_filter] at hsplit
    have habove : (cur.filter fun c => decide (ib + 1 ≤ bucket c) && decide (ib ≤ bucket c)) =
        cur.filter fun c => ib + 1 ≤ bucket c :=
      List.filter_congr fun c _ => by simp only [← Bool.decide_and]; congr 1; simp; omega
    have hbucket : (cur.filter fun c => !decide (ib + 1 ≤ bucket c) && decide (ib ≤ bucket c)) =
        bucketOf bucket cur ib :=
      List.filter_congr fun c _ => by
        simp only [← decide_not, ← Bool.decide_and]
        congr 1
        simp
        omega
    rw [habove, hbucket] at hsplit
    rw [buckets_eq (by omega), List.flatMap_append, List.flatMap_singleton]
    exact (hrest.append_right _).trans hsplit

theorem lastBucket_spec (histo : ℕ → ℕ) {n : ℕ} (htotal : n ≤ ((buckets 0).map histo).sum)
    {k nhave : ℕ} (hk : k ≤ nbuckets) (hsum : nhave = ((buckets k).map histo).sum)
    (hfew : nhave < n ∨ k = nbuckets ∧ nhave = 0) :
    ∃ ib < k, ∃ m, lastBucket histo n k nhave = some (ib, m) ∧
      ((buckets (ib + 1)).map histo).sum ≤ n ∧ n ≤ ((buckets ib).map histo).sum := by
  induction k generalizing nhave with
  | zero =>
    rcases hfew with hfew | ⟨hzero, -⟩
    · omega
    · cases hzero
  | succ k ih =>
    have hnext : ((buckets k).map histo).sum = nhave + histo k := by
      rw [buckets_eq (by omega), List.map_append, List.sum_append, ← hsum, List.map_singleton,
        List.sum_singleton]
    rw [lastBucket]
    split_ifs with hgot
    · exact ⟨k, Nat.lt_succ_self k, _, rfl, by omega, by omega⟩
    · obtain ⟨ib, hib, hfound⟩ := ih (by omega) hnext.symm (.inl (by omega))
      exact ⟨ib, Nat.lt_succ_of_lt hib, hfound⟩

/-- Whole buckets from the top, then the best of the bucket that is cut. -/
theorem sorted_top (S : StdSort) {n : ℕ} (hlt : ∀ c ∈ cur, bucket c < nbuckets)
    (hmono : ∀ a ∈ cur, ∀ b ∈ cur, bucket b < bucket a → Ge a b) (hib : ib < nbuckets)
    (hfew : (((buckets (ib + 1)).map fun j => (bucketOf bucket cur j).length)).sum ≤ n)
    (hmany : n ≤ (((buckets ib).map fun j => (bucketOf bucket cur j).length)).sum) :
    Top cur n ((((buckets (ib + 1)).flatMap fun j => S.sort (bucketOf bucket cur j)) ++
      S.partialSort (n - (((buckets (ib + 1)).map fun j => (bucketOf bucket cur j).length)).sum)
        (bucketOf bucket cur ib)).take n) := by
  set histo := fun j => (bucketOf bucket cur j).length
  set whole := (buckets (ib + 1)).flatMap fun j => S.sort (bucketOf bucket cur j)
  set m := n - ((buckets (ib + 1)).map histo).sum
  set cut := S.partialSort m (bucketOf bucket cur ib)
  set low := cur.filter fun c => !decide (ib ≤ bucket c)
  have hcut : cut.Perm (bucketOf bucket cur ib) := S.partialSort_perm m _
  have hwhole : whole.Perm ((buckets (ib + 1)).flatMap (bucketOf bucket cur)) :=
    List.Perm.flatMap_left _ fun j _ => S.sort_perm _
  have hmany' : n ≤ ((buckets (ib + 1)).map histo).sum + cut.length := by
    have hcount : histo ib = cut.length := hcut.length_eq.symm
    rwa [buckets_eq hib, List.map_append, List.sum_append, List.map_singleton, List.sum_singleton,
      hcount] at hmany
  have hlength : whole.length = n - m := by
    rw [hwhole.length_eq, List.length_flatMap]
    change ((buckets (ib + 1)).map histo).sum = n - m
    omega
  have htake : (whole ++ cut).take n = whole ++ cut.take m := by
    rw [List.take_append, List.take_of_length_le (by omega), hlength]
    congr 2
    omega
  have hinWhole : ∀ a ∈ whole, a ∈ cur ∧ ib < bucket a := by
    intro a ha
    obtain ⟨j, hj, haj⟩ := List.mem_flatMap.mp (hwhole.mem_iff.mp ha)
    obtain ⟨hcur, hbucket⟩ := List.mem_filter.mp haj
    exact ⟨hcur, (of_decide_eq_true hbucket).symm ▸ (mem_buckets.1 hj).1⟩
  have hinCut : ∀ a ∈ cut, a ∈ cur ∧ bucket a = ib := fun a ha =>
    (List.mem_filter.mp (hcut.mem_iff.mp ha)).imp_right of_decide_eq_true
  have hinLow : ∀ a ∈ low, a ∈ cur ∧ bucket a < ib := by
    intro a ha
    obtain ⟨hcur, hbelow⟩ := List.mem_filter.mp ha
    exact ⟨hcur, by simpa using hbelow⟩
  rw [htake]
  refine ⟨List.pairwise_append.mpr ⟨?_, S.partialSort_sorted m _, fun a ha b hb => ?_⟩, ?_,
    cut.drop m ++ low, ?_, fun a ha b hb => ?_⟩
  · refine List.pairwise_flatMap.mpr ⟨fun j _ => S.sort_sorted _,
      (buckets_sorted (ib + 1)).imp fun {i j} hij a ha b hb => ?_⟩
    obtain ⟨hacur, hai⟩ := List.mem_filter.mp ((S.sort_perm _).mem_iff.mp ha)
    obtain ⟨hbcur, hbj⟩ := List.mem_filter.mp ((S.sort_perm _).mem_iff.mp hb)
    have hai := of_decide_eq_true hai
    have hbj := of_decide_eq_true hbj
    exact hmono a hacur b hbcur (by omega)
  · obtain ⟨hacur, hai⟩ := hinWhole a ha
    obtain ⟨hbcur, hbi⟩ := hinCut b (List.mem_of_mem_take hb)
    exact hmono a hacur b hbcur (by omega)
  · rw [List.length_append, hlength, List.length_take]
    omega
  · have hupper : (whole ++ cut).Perm (cur.filter fun c => ib ≤ bucket c) := by
      have hall := flatMap_buckets_perm hlt hib.le
      rw [buckets_eq hib, List.flatMap_append, List.flatMap_singleton] at hall
      exact (hwhole.append hcut).trans hall
    rw [List.append_assoc, ← List.append_assoc (cut.take m), List.take_append_drop,
      ← List.append_assoc]
    exact (hupper.append_right low).trans (List.filter_append_perm _ cur)
  · rcases List.mem_append.mp ha with ha | ha <;> rcases List.mem_append.mp hb with hb | hb
    · obtain ⟨hacur, hai⟩ := hinWhole a ha
      obtain ⟨hbcur, hbi⟩ := hinCut b (List.mem_of_mem_drop hb)
      exact hmono a hacur b hbcur (by omega)
    · obtain ⟨hacur, hai⟩ := hinWhole a ha
      obtain ⟨hbcur, hbi⟩ := hinLow b hb
      exact hmono a hacur b hbcur (by omega)
    · exact S.partialSort_split m _ a ha b hb
    · obtain ⟨hacur, hai⟩ := hinCut a (List.mem_of_mem_take ha)
      obtain ⟨hbcur, hbi⟩ := hinLow b hb
      exact hmono a hacur b hbcur (by omega)

end

/-! ## The bucket of a logit -/

section
variable (R : Rounding)

theorem scaled_mono {a b : ℚ} (h : a ≤ b) : scaled R a ≤ scaled R b := by
  have hscale : 0 ≤ bucketScale R := by
    rw [bucketScale, ← R.map_zero]
    exact R.mono (by norm_num [nbuckets])
  exact R.mono (add_le_add_left (R.mono (mul_le_mul_of_nonneg_left h hscale)) _)

theorem toInt_mono {x y : ℚ} {n k : ℤ} (h : x ≤ y) (hx : toInt x = some n)
    (hy : toInt y = some k) : n ≤ k := by
  have htrunc : (if 0 ≤ x then ⌊x⌋ else ⌈x⌉) ≤ if 0 ≤ y then ⌊y⌋ else ⌈y⌉ := by
    split_ifs with hx0 hy0 hy0
    · exact Int.floor_le_floor h
    · exact absurd (hx0.trans h) hy0
    · exact (Int.ceil_nonpos.mpr (not_le.mp hx0).le).trans (Int.floor_nonneg.mpr hy0)
    · exact Int.ceil_le_ceil h
  simp only [toInt, Option.ite_none_right_eq_some, Option.some.injEq] at hx hy
  omega

theorem bucketIdx_lt {val : ℚ} {b : ℕ} (h : bucketIdx R val = some b) : b < nbuckets := by
  obtain ⟨ib, -, rfl⟩ := Option.map_eq_some_iff.mp h
  rw [nbuckets]
  omega

theorem bucketIdx_mono {a b : ℚ} {i j : ℕ} (h : a ≤ b) (hi : bucketIdx R a = some i)
    (hj : bucketIdx R b = some j) : i ≤ j := by
  obtain ⟨n, hn, rfl⟩ := Option.map_eq_some_iff.mp hi
  obtain ⟨k, hk, rfl⟩ := Option.map_eq_some_iff.mp hj
  have hle := toInt_mono (scaled_mono R h) hn hk
  omega

end

/-! ## The partial sort -/

/-- Every logit has a bucket: its scaled value is in the range of an `int`. -/
def Fits (R : Rounding) (cur : List Candidate) : Prop :=
  ∀ c ∈ cur, (toInt (scaled R c.logit)).isSome = true

theorem partialSort_undefined (S : StdSort) {R : Rounding} {cur : List Candidate} {n : ℕ}
    (hfits : ¬ Fits R cur) : partialSort S R cur n = none := by
  have hnone : (cur.mapM fun c => bucketIdx R c.logit) = none := by
    rw [← Option.not_isSome_iff_eq_none, Fallible.isSome_mapM]
    exact fun h => hfits fun c hc => Option.isSome_map.symm.trans (h c hc)
  rw [partialSort, hnone]
  rfl

theorem zip_map_self (bucket : Candidate → ℕ) (cur : List Candidate) :
    (cur.map bucket).zip cur = cur.map fun c => (bucket c, c) := by
  induction cur with
  | nil => rfl
  | cons c cur ih => exact congrArg (_ :: ·) ih

theorem partialSort_top (S : StdSort) {R : Rounding} {cur : List Candidate} {n : ℕ}
    (hn : n ≤ cur.length) (hfits : Fits R cur) :
    ∃ res, partialSort S R cur n = some res ∧ Top cur n (res.take n) := by
  let bucket : Candidate → ℕ := fun c => (bucketIdx R c.logit).getD 0
  let histo : ℕ → ℕ := fun j => (bucketOf bucket cur j).length
  have hbucket : ∀ c ∈ cur, bucketIdx R c.logit = some (bucket c) := by
    intro c hc
    obtain ⟨b, hb⟩ := Option.isSome_iff_exists.mp (Option.isSome_map.trans (hfits c hc))
    exact hb.trans (congrArg some (congrArg (·.getD 0) hb).symm)
  have hlt : ∀ c ∈ cur, bucket c < nbuckets := fun c hc => bucketIdx_lt R (hbucket c hc)
  have hmono : ∀ a ∈ cur, ∀ b ∈ cur, bucket b < bucket a → Ge a b := by
    intro a ha b hb hless
    refine le_of_not_ge fun hge => ?_
    exact absurd (bucketIdx_mono R hge (hbucket a ha) (hbucket b hb)) (not_le.mpr hless)
  have hhisto : histogram (cur.map bucket) = histo := by
    funext j
    rw [histogram_eq, List.count_eq_countP, List.countP_map, List.countP_eq_length_filter]
    rfl
  have hzip : (cur.map bucket).zip cur = cur.map fun c => (bucket c, c) := zip_map_self bucket cur
  have htotal : n ≤ ((buckets 0).map histo).sum := by
    have hlength := (flatMap_buckets_perm hlt (Nat.zero_le nbuckets)).length_eq
    rw [List.length_flatMap] at hlength
    rw [hlength, List.filter_eq_self.mpr fun c _ => decide_eq_true (Nat.zero_le _)]
    exact hn
  obtain ⟨ib, hib, m, hlast, hfew, hmany⟩ :=
    lastBucket_spec histo htotal le_rfl (rfl : 0 = ((buckets nbuckets).map histo).sum)
      (.inr ⟨rfl, rfl⟩)
  have hsorted := sortBuckets_eq S (bucketOf bucket cur) n ib
    ((cur.foldl (fun s c => scatterOne ib s (bucket c, c))
      (fun _ => default, bucketPtrs histo (buckets ib) 0)).1) (buckets (ib + 1)) 0
    (by rw [← buckets_eq hib]; exact (buckets_sorted ib).imp fun h => Nat.ne_of_gt h)
    (by rw [← buckets_eq hib]; exact fun j hj => scatter_segment hlt hj _)
  rw [Nat.zero_add] at hsorted
  refine ⟨_, ?_, hsorted.symm ▸ sorted_top S hlt hmono hib hfew hmany⟩
  rw [partialSort, Fallible.mapM_eq_map hbucket]
  simp only [Option.bind_eq_bind, Option.bind_some, hhisto, hlast, hzip, List.foldl_map]
  rfl

/-- The logits of the largest `n` are those of a full sort. -/
theorem Top.logits_eq {cur out : List Candidate} {n : ℕ} (h : Top cur n out) :
    out.map Candidate.logit = ((cur.map Candidate.logit).mergeSort (· ≥ ·)).take n := by
  obtain ⟨others, hperm, hsplit⟩ := h.rest
  have hall : (out.map Candidate.logit ++ (others.map Candidate.logit).mergeSort (· ≥ ·)).Perm
      ((cur.map Candidate.logit).mergeSort (· ≥ ·)) := by
    have hmap := hperm.map Candidate.logit
    rw [List.map_append] at hmap
    exact ((List.mergeSort_perm _ _).append_left _).trans
      (hmap.trans (List.mergeSort_perm _ _).symm)
  have hfull := List.pairwise_mergeSort' (· ≥ ·) (cur.map Candidate.logit)
  have hrest := List.pairwise_mergeSort' (· ≥ ·) (others.map Candidate.logit)
  have hsorted : (out.map Candidate.logit ++
      (others.map Candidate.logit).mergeSort (· ≥ ·)).Pairwise (· ≥ ·) := by
    refine List.pairwise_append.mpr ⟨List.pairwise_map.mpr h.sorted, hrest, fun a ha b hb => ?_⟩
    obtain ⟨c, hc, rfl⟩ := List.mem_map.mp ha
    obtain ⟨d, hd, rfl⟩ := List.mem_map.mp ((List.mergeSort_perm _ _).mem_iff.mp hb)
    exact hsplit c hc d hd
  rw [← hall.eq_of_pairwise' hsorted hfull, List.take_left' (by rw [List.length_map, h.length])]

theorem StdSort.partialSort_top (S : StdSort) {cur : List Candidate} {n : ℕ}
    (hn : n ≤ cur.length) : Top cur n ((S.partialSort n cur).take n) where
  sorted := S.partialSort_sorted n cur
  length := by rw [List.length_take, (S.partialSort_perm n cur).length_eq, min_eq_left hn]
  rest := ⟨(S.partialSort n cur).drop n, by
    rw [List.take_append_drop]
    exact S.partialSort_perm n cur, S.partialSort_split n cur⟩

/-- The largest logits in order, the logits of a full sort. -/
def TopSorted (cur : List Candidate) (n : ℕ) (out : List Candidate) : Prop :=
  Top cur n out ∧
    out.map Candidate.logit = ((cur.map Candidate.logit).mergeSort (· ≥ ·)).take n

/-- The partial sort gives the largest logits exactly when every logit has a bucket; the short form
in place needs none. -/
theorem partialSort_iff (S : StdSort) (R : Rounding) (cur : Candidates) (n : ℕ)
    (hn : n ≤ cur.data.length) :
    ((∃ res, partialSort S R cur.data n = some res ∧ TopSorted cur.data n (res.take n)) ↔
      Fits R cur.data) ∧
    ((∃ out, partialSortInplace S R cur n = some (out, true) ∧ TopSorted cur.data n out) ↔
      n ≤ 128 ∨ Fits R cur.data) := by
  have hiff : (∃ res, partialSort S R cur.data n = some res ∧
      TopSorted cur.data n (res.take n)) ↔ Fits R cur.data := by
    constructor
    · rintro ⟨res, hres, -⟩
      by_contra hfits
      rw [partialSort_undefined S hfits] at hres
      cases hres
    · intro hfits
      obtain ⟨res, hres, htop⟩ := partialSort_top S hn hfits
      exact ⟨res, hres, htop, htop.logits_eq⟩
  refine ⟨hiff, ?_⟩
  rw [partialSortInplace]
  split_ifs with hshort
  · have htop := S.partialSort_top hn
    exact iff_of_true ⟨_, rfl, htop, htop.logits_eq⟩ (.inl hshort)
  · rw [or_iff_right hshort, ← hiff]
    constructor
    · rintro ⟨out, hout, htop⟩
      obtain ⟨res, hres, heq⟩ := Option.map_eq_some_iff.mp hout
      cases heq
      exact ⟨res, hres, htop⟩
    · rintro ⟨res, hres, htop⟩
      exact ⟨_, congrArg _ hres, htop⟩

/-! ## A logit without a bucket -/

def unrounded : Rounding := ⟨id, monotone_id, rfl⟩

/-- Both sorts by a full sort. -/
def fullSort : StdSort where
  sort xs := xs.insertionSort Ge
  sort_perm := List.perm_insertionSort Ge
  sort_sorted := List.pairwise_insertionSort Ge
  partialSort _ xs := xs.insertionSort Ge
  partialSort_perm _ xs := List.perm_insertionSort Ge xs
  partialSort_sorted n xs := (List.pairwise_insertionSort Ge xs).sublist (List.take_sublist n _)
  partialSort_split n xs a ha b hb := by
    have hsorted := List.pairwise_insertionSort Ge xs
    rw [← List.take_append_drop n (xs.insertionSort Ge), List.pairwise_append] at hsorted
    exact hsorted.2.2 a ha b hb

theorem partialSort_two :
    ((∃ res, partialSort fullSort unrounded [⟨0, 1, 0⟩, ⟨1, 2, 0⟩] 1 = some res ∧
      TopSorted [⟨0, 1, 0⟩, ⟨1, 2, 0⟩] 1 (res.take 1)) ↔ Fits unrounded [⟨0, 1, 0⟩, ⟨1, 2, 0⟩]) ∧
    ((∃ out, partialSortInplace fullSort unrounded ⟨[⟨0, 1, 0⟩, ⟨1, 2, 0⟩], by decide⟩ 1 =
      some (out, true) ∧ TopSorted [⟨0, 1, 0⟩, ⟨1, 2, 0⟩] 1 out) ↔
      1 ≤ 128 ∨ Fits unrounded [⟨0, 1, 0⟩, ⟨1, 2, 0⟩]) :=
  partialSort_iff fullSort unrounded ⟨[⟨0, 1, 0⟩, ⟨1, 2, 0⟩], by decide⟩ 1 (by decide)

/-- A logit of `10 ^ 9` has no bucket. -/
theorem partialSort_large : ¬ ∀ (S : StdSort) (R : Rounding) (cur : Candidates) (n : ℕ),
    n ≤ cur.data.length →
      ∃ res, partialSort S R cur.data n = some res ∧ TopSorted cur.data n (res.take n) := by
  intro h
  obtain ⟨res, hres, -⟩ := h fullSort unrounded ⟨[⟨0, 10 ^ 9, 0⟩], by decide⟩ 1 le_rfl
  have hnone : toInt (scaled unrounded (10 ^ 9)) = none := by
    simp only [toInt, scaled, bucketInter, bucketScale, unrounded, nbuckets, id]
    norm_num
  rw [partialSort_undefined fullSort fun hfits => by
    have hsome := hfits ⟨0, 10 ^ 9, 0⟩ (List.mem_singleton_self _)
    rw [hnone] at hsome
    cases hsome] at hres
  cases hres

end BucketSort
end RocmFpx
