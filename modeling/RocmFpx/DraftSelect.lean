import RocmFpx.BitScan
import RocmFpx.NthElement

/-!
The draft vocabulary selector: a permanent front of the ids, the previous token, and the
best-ranked ids of the rest, found by a sampled cutoff, a screen of the scores (four at a
time where the vector unit allows), a partial sort and a bitmap.
-/

namespace RocmFpx
namespace DraftSelect

open BitScan

/-- What a call ends in besides a result. Overflow of an `int` has no defined outcome. -/
inductive Fault
  | invalidArgument (what : String)
  | signedOverflow
deriving DecidableEq, Repr

def intMax : ℕ := 2 ^ 31 - 1

instance linearOrder_bitVec (w : ℕ) : LinearOrder (BitVec w) where
  le_refl x := Nat.le_refl x.toNat
  le_trans _ _ _ hab hbc := Nat.le_trans hab hbc
  le_antisymm _ _ hab hba := BitVec.eq_of_toNat_eq (Nat.le_antisymm hab hba)
  le_total x y := Nat.le_total x.toNat y.toNat
  lt_iff_le_not_ge _ _ := Nat.lt_iff_le_and_not_ge
  toDecidableLE := inferInstance

/-! ## The rank of a score -/

/-- The encoding of a float's pattern whose unsigned order is the ranking; the two zeros are
one. -/
def orderedBits (value : BitVec 32) : BitVec 32 :=
  let raw := if value <<< 1 = 0 then 0 else value
  raw ^^^ (if raw >>> 31 ≠ 0 then BitVec.allOnes 32 else 0x80000000#32)

def rank (value : BitVec 32) (token : ℕ) : BitVec 64 :=
  (orderedBits value).setWidth 64 <<< 32 ||| (~~~ BitVec.ofNat 32 token).setWidth 64

/-- The token of a key, read back as an `int32_t`. -/
def tokenOf (key : BitVec 64) : ℤ := (~~~ key.setWidth 32).toInt

/-! ## Screening the scores -/

section
variable (scores : ℕ → BitVec 32) (previous : ℤ) (cutoff : BitVec 64)

/-- One turn of either loop over the candidates. -/
def consider (candidates : List (BitVec 64)) (token : ℕ) : List (BitVec 64) :=
  let key := rank (scores token) token
  if (token : ℤ) ≠ previous ∧ cutoff ≤ key then candidates ++ [key] else candidates

def scan (stop token : ℕ) (candidates : List (BitVec 64)) : List (BitVec 64) :=
  (List.range' token (stop - token)).foldl (consider scores previous cutoff) candidates

def sign : BitVec 32 := 0x80000000#32

/-- One of the four lanes of the vector screen. -/
def eligible (threshold value : BitVec 32) : Bool :=
  let raw := ~~~ (if value <<< 1 = 0 then BitVec.allOnes 32 else 0) &&& value
  let ordered := raw ^^^ (raw.sshiftRight 31 ||| sign)
  let signedOrder := ordered ^^^ sign
  threshold.slt signedOrder || signedOrder == threshold

def movemask (lanes : List Bool) : BitVec 32 := (BitVec.ofBoolListLE lanes).setWidth 32

def screenBlock (token : ℕ) (candidates : List (BitVec 64)) : List (BitVec 64) :=
  let threshold := (cutoff >>> 32).setWidth 32 ^^^ sign
  let mask := movemask ((List.range 4).map fun i => eligible threshold (scores (token + i)))
  (setBits 32 mask).foldl
    (fun candidates bit => consider scores previous cutoff candidates (token + bit)) candidates

/-- The vector loop; `token + 4` is an `int`. -/
def screen (stop token : ℕ) (candidates : List (BitVec 64)) :
    Except Fault (ℕ × List (BitVec 64)) :=
  if intMax < token + 4 then .error .signedOverflow
  else if token + 4 ≤ stop then
    screen stop (token + 4) (screenBlock scores previous cutoff token candidates)
  else .ok (token, candidates)
termination_by stop - token

def collect (sse2 : Bool) (first stop : ℕ) (candidates : List (BitVec 64)) :
    Except Fault (List (BitVec 64)) :=
  if sse2 then
    (screen scores previous cutoff stop first candidates).map fun (token, candidates) =>
      scan scores previous cutoff stop token candidates
  else .ok (scan scores previous cutoff stop first candidates)

end

/-! ## Selection -/

structure DraftSelector where
  result : List ℕ
  samples : List (BitVec 64)
  candidates : List (BitVec 64)
  membership : List (BitVec 64)

def permanent (budget : ℕ) : ℕ := budget / 2

def reservePrevious (vocabulary budget : ℕ) (previous : ℤ) : Bool :=
  decide ((permanent budget : ℤ) ≤ previous ∧ previous < vocabulary)

def wanted (vocabulary budget : ℕ) (previous : ℤ) : ℕ :=
  budget - permanent budget - (reservePrevious vocabulary budget previous).toNat

section
variable (nth : NthElement (BitVec 64)) (scores : ℕ → BitVec 32)

def sample (first population : ℕ) (previous : ℤ) : List (BitVec 64) :=
  let sampleCount := min population 1024
  (((List.range sampleCount).map fun i =>
      first + (i * population + population / 2) / sampleCount).filter
    fun token : ℕ => (token : ℤ) ≠ previous).map fun token => rank (scores token) token

/-- The samples partially sorted, and the cutoff taken from them. -/
def sampledCutoff (wanted population : ℕ) (samples : List (BitVec 64)) :
    List (BitVec 64) × BitVec 64 :=
  if samples = [] then (samples, 0)
  else
    let target := min (samples.length - 1)
      (wanted * samples.length * 3 / (population * 2) + 8)
    let samples := nth.run target samples
    (samples, samples.getD target 0)

/-- Every key, for a pool that came out too small. -/
def everything (first stop : ℕ) (previous : ℤ) : List (BitVec 64) :=
  ((List.range' first (stop - first)).filter fun token : ℕ => (token : ℤ) ≠ previous).map
    fun token => rank (scores token) token

/-- The bitmap with the previous token in it, counted from the first id that is not
permanent. -/
def markReserved (vocabulary budget : ℕ) (previous : ℤ) : List (BitVec 64) :=
  let blank := List.replicate ((vocabulary - permanent budget + 63) / 64) (0 : BitVec 64)
  if reservePrevious vocabulary budget previous then
    mark blank (previous - permanent budget).toNat
  else blank

def markChosen (vocabulary budget : ℕ) (previous : ℤ) (candidates : List (BitVec 64)) :
    List (BitVec 64) :=
  ((candidates.take (wanted vocabulary budget previous)).map fun key =>
    (tokenOf key - permanent budget).toNat).foldl mark (markReserved vocabulary budget previous)

/-- `select` once the cutoff is known. -/
def selectAbove (sse2 : Bool) (vocabulary budget : ℕ) (previous : ℤ) (cutoff : BitVec 64)
    (samples : List (BitVec 64)) : Except Fault DraftSelector :=
  let first := permanent budget
  let wanted := wanted vocabulary budget previous
  (collect scores previous cutoff sse2 first vocabulary []).bind fun candidates =>
    let candidates := if candidates.length < wanted
      then everything scores first vocabulary previous else candidates
    let candidates := nth.front wanted candidates
    if intMax < vocabulary - first + 63 then .error .signedOverflow
    else
      let membership := markChosen vocabulary budget previous candidates
      .ok { result := List.range first ++ (enumerate membership).map (first + ·)
            samples := samples
            candidates := candidates
            membership := membership }

def select (sse2 : Bool) (selector : DraftSelector) (scores : Option (ℕ → BitVec 32))
    (vocabulary budget previous : Int32) : Except Fault DraftSelector :=
  if vocabulary.toInt < 0 ∨ budget.toInt < 0 ∨ vocabulary.toInt < budget.toInt ∨
      vocabulary.toInt ≠ 0 ∧ scores = none then
    .error (.invalidArgument "invalid draft vocabulary selection")
  else
    let scores := scores.getD fun _ => 0
    let vocabulary := vocabulary.toInt.toNat
    let budget := budget.toInt.toNat
    let previous := previous.toInt
    let first := permanent budget
    let wanted := wanted vocabulary budget previous
    if budget = 0 then .ok { selector with result := [] }
    else if wanted = 0 then
      .ok { selector with
        result := List.range first ++
          if reservePrevious vocabulary budget previous then [previous.toNat] else [] }
    else
      let population := vocabulary - first
      let sampled := sampledCutoff nth wanted population (sample scores first population previous)
      selectAbove nth scores sse2 vocabulary budget previous sampled.2 sampled.1

end
end DraftSelect
end RocmFpx

/-!
What the screen, the fallback and the partial sort of the draft vocabulary selector come to:
the keys with fewer than `wanted` others above them, whatever the cutoff.
-/

namespace RocmFpx
namespace DraftSelect

open BitScan NthElement

/-! ## Keys -/

theorem rank_toNat {value : BitVec 32} {token : ℕ} (htoken : token < 2 ^ 32) :
    (rank value token).toNat = (orderedBits value).toNat * 2 ^ 32 + (2 ^ 32 - 1 - token) := by
  have hhigh := (orderedBits value).isLt
  have hlow : (~~~ BitVec.ofNat 32 token).toNat = 2 ^ 32 - 1 - token := by
    rw [BitVec.toNat_not, BitVec.toNat_ofNat, Nat.mod_eq_of_lt htoken]
  rw [rank, BitVec.toNat_or, BitVec.toNat_shiftLeft, BitVec.toNat_setWidth,
    BitVec.toNat_setWidth, hlow, Nat.mod_eq_of_lt (by omega), Nat.shiftLeft_eq,
    Nat.mod_eq_of_lt (by omega), Nat.mod_eq_of_lt (by omega), ← Nat.shiftLeft_eq,
    ← Nat.shiftLeft_add_eq_or_of_lt (by omega)]

theorem rank_lt_rank {u v : BitVec 32} {a b : ℕ} (ha : a < 2 ^ 32) (hb : b < 2 ^ 32) :
    rank u a < rank v b ↔
      orderedBits u < orderedBits v ∨ orderedBits u = orderedBits v ∧ b < a := by
  rw [BitVec.lt_def, BitVec.lt_def, ← BitVec.toNat_inj, rank_toNat ha, rank_toNat hb]
  omega

theorem tokenOf_rank {value : BitVec 32} {token : ℕ} (htoken : token < 2 ^ 31) :
    tokenOf (rank value token) = token := by
  have hlow : (~~~ (rank value token).setWidth 32).toNat = token := by
    rw [BitVec.toNat_not, BitVec.toNat_setWidth, rank_toNat (by omega)]
    omega
  rw [tokenOf, BitVec.toInt_eq_toNat_of_lt (by omega), hlow]

theorem rank_high {value : BitVec 32} {token : ℕ} (htoken : token < 2 ^ 32) :
    (rank value token >>> 32).setWidth 32 = orderedBits value := by
  have hhigh := (orderedBits value).isLt
  refine BitVec.eq_of_toNat_eq ?_
  rw [BitVec.toNat_setWidth, BitVec.toNat_ushiftRight, rank_toNat htoken,
    Nat.shiftRight_eq_div_pow]
  omega

theorem high_le {cutoff key : BitVec 64} (h : cutoff ≤ key) :
    (cutoff >>> 32).setWidth 32 ≤ (key >>> 32).setWidth 32 := by
  have hle := BitVec.le_def.mp h
  have hkey := key.isLt
  rw [BitVec.le_def, BitVec.toNat_setWidth, BitVec.toNat_setWidth, BitVec.toNat_ushiftRight,
    BitVec.toNat_ushiftRight, Nat.shiftRight_eq_div_pow, Nat.shiftRight_eq_div_pow]
  omega

/-! ## The vector screen -/

theorem orderedBits_eq_lane (value : BitVec 32) :
    orderedBits value =
      (~~~ (if value <<< 1 = 0 then BitVec.allOnes 32 else 0) &&& value) ^^^
        ((~~~ (if value <<< 1 = 0 then BitVec.allOnes 32 else 0) &&& value).sshiftRight 31 |||
          sign) := by
  have hraw : (~~~ (if value <<< 1 = 0 then BitVec.allOnes 32 else 0) &&& value) =
      if value <<< 1 = 0 then 0 else value := by
    split_ifs
    · simp
    · have hall : ~~~(0 : BitVec 32) = BitVec.allOnes 32 := by decide
      rw [hall, BitVec.allOnes_and]
  have hsign : ∀ raw : BitVec 32, raw.sshiftRight 31 ||| sign =
      if raw >>> 31 ≠ 0 then BitVec.allOnes 32 else 0x80000000#32 := by
    intro raw
    have htop : (raw >>> 31).toNat = if raw.msb then 1 else 0 := by
      have hlt := raw.isLt
      rw [BitVec.toNat_ushiftRight, Nat.shiftRight_eq_div_pow, BitVec.msb_eq_decide]
      split_ifs with hmsb
      · have hge := of_decide_eq_true hmsb
        omega
      · have hge := of_decide_eq_false (Bool.eq_false_iff.mpr hmsb)
        omega
    cases hmsb : raw.msb with
    | false =>
      have hzero : raw >>> 31 = 0 := BitVec.eq_of_toNat_eq (by simpa [hmsb] using htop)
      rw [if_neg (not_not.mpr hzero), BitVec.sshiftRight_eq_of_msb_false hmsb, hzero]
      rfl
    | true =>
      have hone : raw >>> 31 = 1 := BitVec.eq_of_toNat_eq (by simpa [hmsb] using htop)
      rw [if_pos (by rw [hone]; decide), BitVec.sshiftRight_eq_of_msb_true hmsb]
      refine BitVec.eq_of_getLsbD_eq fun i hi => ?_
      have hout : ¬ 31 + i < 32 ∨ i = 0 := by omega
      simp only [BitVec.getLsbD_or, BitVec.getLsbD_not, BitVec.getLsbD_ushiftRight,
        BitVec.getLsbD_allOnes, hi, decide_true, Bool.true_and]
      rcases hout with hout | rfl
      · simp [hout]
      · have hlast : raw.getLsbD 31 = true := by rw [← hmsb, BitVec.msb_eq_getLsbD_last]
        simp [hlast]
  rw [hraw, hsign, orderedBits]

theorem slt_xor_sign (x y : BitVec 32) : (x ^^^ sign).slt (y ^^^ sign) = x.ult y := by
  have hflip : ∀ z : BitVec 32, (z ^^^ sign).toInt = z.toNat - 2 ^ 31 := by
    intro z
    have hz := z.isLt
    have hlow : (z ^^^ sign).toNat % 2 ^ 31 = z.toNat % 2 ^ 31 := by
      rw [BitVec.toNat_xor, Nat.xor_mod_two_pow]
      exact Nat.xor_zero _
    have hhigh : (z ^^^ sign).toNat / 2 ^ 31 = (z.toNat / 2 ^ 31) ^^^ 1 := by
      rw [BitVec.toNat_xor, Nat.xor_div_two_pow]
      rfl
    rw [BitVec.toInt_eq_toNat_cond]
    have hbit : z.toNat / 2 ^ 31 = 0 ∨ z.toNat / 2 ^ 31 = 1 := by omega
    rcases hbit with hbit | hbit
    · rw [hbit, Nat.zero_xor] at hhigh
      split_ifs <;> omega
    · rw [hbit, Nat.xor_self] at hhigh
      split_ifs <;> omega
  rw [Bool.eq_iff_iff, BitVec.slt_iff_toInt_lt, hflip, hflip, BitVec.ult_iff_lt, BitVec.lt_def]
  omega

theorem eligible_eq (threshold value : BitVec 32) :
    eligible (threshold ^^^ sign) value = decide (threshold ≤ orderedBits value) := by
  simp only [eligible]
  rw [← orderedBits_eq_lane, slt_xor_sign, Bool.eq_iff_iff, Bool.or_eq_true,
    decide_eq_true_eq, beq_iff_eq, BitVec.ult_iff_lt, BitVec.xor_left_inj, le_iff_lt_or_eq,
    eq_comm]

/-! ## The pool of keys -/

section
variable (scores : ℕ → BitVec 32) (previous : ℤ) (cutoff : BitVec 64)

/-- What `consider` keeps. -/
def kept (token : ℕ) : Bool :=
  decide ((token : ℤ) ≠ previous ∧ cutoff ≤ rank (scores token) token)

/-- The keys that the tokens from `first` to `stop` contribute. -/
def survivors (first count : ℕ) : List (BitVec 64) :=
  ((List.range' first count).filter (kept scores previous cutoff)).map
    fun token => rank (scores token) token

theorem foldl_consider (tokens : List ℕ) (candidates : List (BitVec 64)) :
    tokens.foldl (consider scores previous cutoff) candidates =
      candidates ++ (tokens.filter (kept scores previous cutoff)).map
        fun token => rank (scores token) token := by
  induction tokens generalizing candidates with
  | nil => simp
  | cons token tokens ih =>
    rw [List.foldl_cons, ih, List.filter_cons]
    by_cases hkept : (token : ℤ) ≠ previous ∧ cutoff ≤ rank (scores token) token
    · have htrue : kept scores previous cutoff token = true := decide_eq_true hkept
      rw [consider, if_pos hkept, if_pos htrue, List.map_cons, List.append_assoc]
      rfl
    · have hfalse : ¬ kept scores previous cutoff token = true := by simpa [kept] using hkept
      rw [consider, if_neg hkept, if_neg hfalse]

theorem scan_eq (stop token : ℕ) (candidates : List (BitVec 64)) :
    scan scores previous cutoff stop token candidates =
      candidates ++ survivors scores previous cutoff token (stop - token) :=
  foldl_consider scores previous cutoff _ candidates

theorem setBits_movemask (lanes : ℕ → Bool) :
    setBits 32 (movemask ((List.range 4).map lanes)) = (List.range 4).filter lanes := by
  have hbit : ∀ i, (movemask ((List.range 4).map lanes)).getLsbD i =
      (decide (i < 4) && lanes i) := by
    intro i
    rw [movemask, BitVec.getLsbD_setWidth, BitVec.getLsbD_ofBoolListLE,
      List.getD_eq_getElem?_getD, List.getElem?_map]
    by_cases hi : i < 4
    · have hw : i < 32 := by omega
      simp [hi, hw]
    · rw [List.getElem?_eq_none (by simpa using hi)]
      simp [hi]
  rw [setBits_eq_filter, show List.range 32 = List.range (4 + 28) from rfl, List.range_add,
    List.filter_append, List.filter_congr fun i _ => hbit i]
  have hfront : (List.range 4).filter (fun i => decide (i < 4) && lanes i) =
      (List.range 4).filter lanes :=
    List.filter_congr fun i hi => by simp [List.mem_range.mp hi]
  have hback : ((List.range 28).map (4 + ·)).filter
      (fun i => (movemask ((List.range 4).map lanes)).getLsbD i) = [] := by
    refine List.filter_eq_nil_iff.mpr fun i hi => ?_
    obtain ⟨k, -, rfl⟩ := List.mem_map.mp hi
    simp [hbit]
  rw [hfront, hback, List.append_nil]

theorem eligible_of_kept {token : ℕ} (htoken : token < 2 ^ 32)
    (hkept : kept scores previous cutoff token = true) :
    eligible ((cutoff >>> 32).setWidth 32 ^^^ sign) (scores token) = true := by
  rw [eligible_eq, decide_eq_true_eq, ← rank_high htoken]
  exact high_le (of_decide_eq_true hkept).2

theorem screenBlock_eq {token : ℕ} (htoken : token + 4 ≤ 2 ^ 32)
    (candidates : List (BitVec 64)) :
    screenBlock scores previous cutoff token candidates =
      candidates ++ survivors scores previous cutoff token 4 := by
  have hfold : ∀ bits : List ℕ,
      bits.foldl (fun candidates bit => consider scores previous cutoff candidates (token + bit))
        candidates =
      (bits.map (token + ·)).foldl (consider scores previous cutoff) candidates :=
    fun bits => (List.foldl_map ..).symm
  rw [screenBlock, setBits_movemask, hfold, foldl_consider, List.filter_map, List.filter_filter,
    survivors, List.range'_eq_map_range, List.filter_map]
  congr 3
  refine List.filter_congr fun i hi => ?_
  have hi := List.mem_range.mp hi
  by_cases hkept : kept scores previous cutoff (token + i) = true
  · have helig := eligible_of_kept scores previous cutoff (by omega) hkept
    simp [hkept, helig]
  · simp [hkept]

theorem survivors_add (first m n : ℕ) :
    survivors scores previous cutoff first (m + n) =
      survivors scores previous cutoff first m ++
        survivors scores previous cutoff (first + m) n := by
  rw [survivors, survivors, survivors, ← List.map_append, ← List.filter_append,
    List.range'_append_1]

theorem screen_eq (stop token : ℕ) (candidates : List (BitVec 64)) :
    screen scores previous cutoff stop token candidates =
      if intMax < token + 4 * ((stop - token) / 4 + 1) then .error .signedOverflow
      else .ok (token + 4 * ((stop - token) / 4),
        candidates ++ survivors scores previous cutoff token (4 * ((stop - token) / 4))) := by
  fun_induction screen scores previous cutoff stop token candidates with
  | case1 token candidates hover =>
    rw [if_pos (by omega)]
  | case2 token candidates hfits hround ih =>
    have hblock : token + 4 ≤ 2 ^ 32 := by
      simp only [intMax] at hfits
      omega
    have hquot : (stop - token) / 4 = (stop - (token + 4)) / 4 + 1 := by omega
    have hfour : 4 * ((stop - token) / 4) = 4 + 4 * ((stop - (token + 4)) / 4) := by omega
    rw [ih, screenBlock_eq scores previous cutoff hblock, hfour, survivors_add,
      List.append_assoc, hquot]
    have hsame : token + 4 + 4 * ((stop - (token + 4)) / 4 + 1) =
        token + 4 * ((stop - (token + 4)) / 4 + 1 + 1) := by ring
    rw [hsame, add_assoc token 4]
  | case3 token candidates hfits hdone =>
    have hzero : (stop - token) / 4 = 0 := by omega
    rw [hzero, if_neg (by omega)]
    simp [survivors]

theorem collect_eq (sse2 : Bool) (first stop : ℕ) (candidates : List (BitVec 64)) :
    collect scores previous cutoff sse2 first stop candidates =
      if sse2 ∧ intMax < first + 4 * ((stop - first) / 4 + 1) then .error .signedOverflow
      else .ok (candidates ++ survivors scores previous cutoff first (stop - first)) := by
  cases sse2 with
  | false => simp [collect, scan_eq]
  | true =>
    rw [collect, if_pos rfl, screen_eq]
    by_cases hover : intMax < first + 4 * ((stop - first) / 4 + 1)
    · rw [if_pos hover, if_pos ⟨rfl, hover⟩]
      rfl
    · rw [if_neg hover, if_neg fun h => hover h.2]
      have hrest : 4 * ((stop - first) / 4) + (stop - (first + 4 * ((stop - first) / 4))) =
          stop - first := by omega
      change Except.ok (scan scores previous cutoff stop _ _) = _
      rw [scan_eq, List.append_assoc, ← survivors_add, hrest]

end

/-! ## The chosen keys -/

section
variable {scores : ℕ → BitVec 32} {previous : ℤ} {first stop : ℕ}

/-- The ids that are neither permanent nor the previous one. -/
def remaining (first stop : ℕ) (previous : ℤ) : List ℕ :=
  (List.range' first (stop - first)).filter fun token : ℕ => (token : ℤ) ≠ previous

theorem mem_remaining {token : ℕ} :
    token ∈ remaining first stop previous ↔
      first ≤ token ∧ token < stop ∧ (token : ℤ) ≠ previous := by
  simp only [remaining, List.mem_filter, List.mem_range'_1, decide_eq_true_eq, ne_eq]
  omega

theorem remaining_nodup (first stop : ℕ) (previous : ℤ) :
    (remaining first stop previous).Nodup :=
  List.Nodup.filter _ List.nodup_range'

theorem everything_eq (scores : ℕ → BitVec 32) (first stop : ℕ) (previous : ℤ) :
    everything scores first stop previous =
      (remaining first stop previous).map fun token => rank (scores token) token := rfl

theorem survivors_eq_filter (scores : ℕ → BitVec 32) (previous : ℤ) (cutoff : BitVec 64)
    (first stop : ℕ) :
    survivors scores previous cutoff first (stop - first) =
      (everything scores first stop previous).filter (cutoff ≤ ·) := by
  rw [everything_eq, List.filter_map, remaining, List.filter_filter, survivors]
  congr 1
  refine List.filter_congr fun token _ => ?_
  simp [kept, Bool.and_comm]

theorem everything_nodup (hstop : stop ≤ 2 ^ 31) :
    (everything scores first stop previous).Nodup := by
  refine List.Nodup.map_on (fun a ha b hb heq => ?_) (remaining_nodup first stop previous)
  have ha' := (mem_remaining.1 ha).2.1
  have hb' := (mem_remaining.1 hb).2.1
  have htoken := congrArg tokenOf heq
  rw [tokenOf_rank (by omega), tokenOf_rank (by omega)] at htoken
  exact_mod_cast htoken

/-- The pool that the partial sort is given. -/
def pool (scores : ℕ → BitVec 32) (previous : ℤ) (cutoff : BitVec 64) (first stop wanted : ℕ) :
    List (BitVec 64) :=
  if (survivors scores previous cutoff first (stop - first)).length < wanted
    then everything scores first stop previous
    else survivors scores previous cutoff first (stop - first)

theorem pool_nodup (scores : ℕ → BitVec 32) (previous : ℤ) (first : ℕ) (cutoff : BitVec 64) (wanted : ℕ) (hstop : stop ≤ 2 ^ 31) :
    (pool scores previous cutoff first stop wanted).Nodup := by
  unfold pool
  split_ifs
  · exact everything_nodup hstop
  · rw [survivors_eq_filter]
    exact (everything_nodup hstop).filter _

theorem le_pool_length (scores : ℕ → BitVec 32) (cutoff : BitVec 64) {wanted : ℕ}
    (hroom : wanted ≤ (remaining first stop previous).length) :
    wanted ≤ (pool scores previous cutoff first stop wanted).length := by
  unfold pool
  split_ifs with hfew
  · rwa [everything_eq, List.length_map]
  · exact not_lt.mp hfew

theorem mem_front_pool (nth : NthElement (BitVec 64)) (cutoff : BitVec 64) (wanted : ℕ)
    (hstop : stop ≤ 2 ^ 31) (key : BitVec 64) :
    key ∈ (nth.front wanted (pool scores previous cutoff first stop wanted)).take wanted ↔
      key ∈ everything scores first stop previous ∧
        (above (everything scores first stop previous) key).length < wanted := by
  rw [nth.mem_front_take (pool_nodup scores previous first cutoff wanted hstop)]
  unfold pool
  split_ifs with hfew
  · exact Iff.rfl
  · rw [survivors_eq_filter] at hfew ⊢
    exact above_cut (not_lt.mp hfew) key

end

end DraftSelect
end RocmFpx
