import RocmFpx.JinjaSlice

/-!
Integer arithmetic in the template engine. Every integer carries a `double`; the operators compute
on these and convert back. Undefined conversions have no value here.
-/

namespace RocmFpx
namespace Jinja

/-- The doubles that come up: integers, infinities by whether they are negative, and NaN. -/
inductive Double where
  | finite (n : ℤ)
  | inf (neg : Bool)
  | nan

/-- The nearest multiple of the unit in the last of 53 places, ties to even. -/
def roundDouble (n : ℤ) : ℤ :=
  let ulp : ℤ := 2 ^ (Nat.log2 n.natAbs - 52)
  if 2 * (n % ulp) < ulp ∨ 2 * (n % ulp) = ulp ∧ n / ulp % 2 = 0 then n / ulp * ulp
  else (n / ulp + 1) * ulp

namespace Double

def ofInt (n : ℤ) : Double := .finite (roundDouble n)

/-- `static_cast<int64_t>`. -/
def toInt64 : Double → Option ℤ
  | .finite n => if FitsInt64 n then some n else none
  | _ => none

def add : Double → Double → Double
  | .finite a, .finite b => ofInt (a + b)
  | .inf s, .inf t => if s = t then .inf s else .nan
  | .inf s, .finite _ => .inf s
  | .finite _, .inf t => .inf t
  | _, _ => .nan

def sub : Double → Double → Double
  | .finite a, .finite b => ofInt (a - b)
  | .inf s, .inf t => if s = t then .nan else .inf s
  | .inf s, .finite _ => .inf s
  | .finite _, .inf t => .inf !t
  | _, _ => .nan

def mul : Double → Double → Double
  | .finite a, .finite b => ofInt (a * b)
  | .inf s, .inf t => .inf (s ^^ t)
  | .inf s, .finite b => if b = 0 then .nan else .inf (s ^^ decide (b < 0))
  | .finite a, .inf t => if a = 0 then .nan else .inf (decide (a < 0) ^^ t)
  | _, _ => .nan

def fmod : Double → Double → Double
  | .finite a, .finite b => if b = 0 then .nan else .finite (a.tmod b)
  | .finite a, .inf _ => .finite a
  | _, _ => .nan

def lt : Double → Double → Bool
  | .finite a, .finite b => a < b
  | .inf s, .inf t => s && !t
  | .inf s, .finite _ => s
  | .finite _, .inf t => !t
  | _, _ => false

def le : Double → Double → Bool
  | .finite a, .finite b => a ≤ b
  | .inf s, .inf t => s || !t
  | .inf s, .finite _ => s
  | .finite _, .inf t => !t
  | _, _ => false

end Double

open Double

/-- `val_flt` of an integer: an infinity when the conversion does not come back. -/
def asFloat (v : ℤ) : Option Double :=
  (toInt64 (ofInt v)).map fun n => if n = v then ofInt v else .inf (v < 0)

/-- The operators of the numeric branch but `/`, which gives a float. -/
inductive Op where
  | add | sub | mul | mod | lt | gt | ge | le

inductive Outcome where
  | int (n : ℤ)
  | bool (b : Bool)
  | raised
  | undefined

def intResult (d : Double) : Outcome := (toInt64 d).elim .undefined .int

def apply (op : Op) (a b : Double) : Outcome :=
  match op with
  | .add => intResult (a.add b)
  | .sub => intResult (a.sub b)
  | .mul => intResult (a.mul b)
  | .mod => intResult (a.fmod b)
  | .lt => .bool (a.lt b)
  | .gt => .bool (b.lt a)
  | .ge => .bool (b.le a)
  | .le => .bool (a.le b)

/-- `binary_expression::execute_impl` on two integers. -/
def execute (op : Op) (left right : ℤ) : Outcome :=
  match asFloat left, asFloat right with
  | some a, some b => apply op a b
  | _, _ => .undefined

/-- The operators of Python. -/
def python (op : Op) (a b : ℤ) : Outcome :=
  match op with
  | .add => .int (a + b)
  | .sub => .int (a - b)
  | .mul => .int (a * b)
  | .mod => if b = 0 then .raised else .int (a.fmod b)
  | .lt => .bool (a < b)
  | .gt => .bool (b < a)
  | .ge => .bool (b ≤ a)
  | .le => .bool (a ≤ b)

/-- The result is that of Python, when it is representable. -/
def Exact (op : Op) (a b : ℤ) : Prop :=
  (∀ n, python op a b = .int n → FitsInt64 n) → execute op a b = python op a b

/-- An integer that is a double. -/
def IsDouble (n : ℤ) : Prop := roundDouble n = n

/-- An integer whose double can be converted back, which the constructor tries. -/
def Convertible (n : ℤ) : Prop := FitsInt64 (roundDouble n)

/-! ## The double of an integer -/

variable {a b : ℤ}

theorem asFloat_of_isDouble (h : IsDouble a) (hfits : FitsInt64 a) : asFloat a = some (.finite a) := by
  rw [asFloat, ofInt, h, toInt64, if_pos hfits, Option.map_some, if_pos rfl]

theorem asFloat_of_not_isDouble (h : ¬ IsDouble a) (hconv : Convertible a) :
    asFloat a = some (.inf (a < 0)) := by
  have hback : toInt64 (ofInt a) = some (roundDouble a) := if_pos hconv
  rw [asFloat, hback, Option.map_some]
  exact congrArg some (if_neg h)

theorem asFloat_of_not_convertible (h : ¬ Convertible a) : asFloat a = none := by
  have hback : toInt64 (ofInt a) = none := if_neg h
  rw [asFloat, hback, Option.map_none]

theorem asFloat_cases (hfits : FitsInt64 a) :
    IsDouble a ∧ Convertible a ∧ asFloat a = some (.finite a) ∨
    ¬ IsDouble a ∧ Convertible a ∧ a ≠ 0 ∧ asFloat a = some (.inf (a < 0)) ∨
    ¬ IsDouble a ∧ ¬ Convertible a ∧ asFloat a = none := by
  by_cases h : IsDouble a
  · exact .inl ⟨h, by rwa [Convertible, h], asFloat_of_isDouble h hfits⟩
  · by_cases hconv : Convertible a
    · exact .inr (.inl ⟨h, hconv, fun hzero => h (hzero ▸ rfl), asFloat_of_not_isDouble h hconv⟩)
    · exact .inr (.inr ⟨h, hconv, asFloat_of_not_convertible hconv⟩)

theorem execute_eq {op : Op} {x y : Double} (ha : asFloat a = some x) (hb : asFloat b = some y) :
    execute op a b = apply op x y := by
  rw [execute, ha, hb]

theorem execute_undefined {op : Op} (h : ¬(Convertible a ∧ Convertible b)) :
    execute op a b = .undefined := by
  rw [execute]
  by_cases ha : Convertible a
  · rw [asFloat_of_not_convertible fun hb => h ⟨ha, hb⟩]
    cases asFloat a <;> rfl
  · rw [asFloat_of_not_convertible ha]

/-! ## Operators -/

/-- An operator that rounds once and makes nothing of an infinity that could be converted back. -/
theorem exact_rounded_iff {op : Op} {dop : Double → Double → Double} {zop : ℤ → ℤ → ℤ}
    (happly : ∀ x y, apply op x y = intResult (dop x y))
    (hpython : ∀ a b, python op a b = .int (zop a b))
    (hfinite : ∀ a b, dop (.finite a) (.finite b) = ofInt (zop a b))
    (hleft : ∀ s y, toInt64 (dop (.inf s) y) = none)
    (hright : ∀ x s, toInt64 (dop x (.inf s)) = none) (ha : FitsInt64 a) (hb : FitsInt64 b) :
    Exact op a b ↔ (FitsInt64 (zop a b) → IsDouble a ∧ IsDouble b ∧ IsDouble (zop a b)) := by
  rw [Exact, hpython]
  refine ⟨fun h hfits => ?_, fun h hfits => ?_⟩
  · have hexec := h fun n hn => Outcome.int.inj hn ▸ hfits
    rcases asFloat_cases ha with ⟨hda, -, hfa⟩ | ⟨-, -, -, hfa⟩ | ⟨-, hca, -⟩
    · rcases asFloat_cases hb with ⟨hdb, -, hfb⟩ | ⟨-, -, -, hfb⟩ | ⟨-, hcb, -⟩
      · refine ⟨hda, hdb, ?_⟩
        rw [execute_eq hfa hfb, happly, hfinite, intResult, ofInt, toInt64] at hexec
        split_ifs at hexec
        · exact Outcome.int.inj hexec
        · cases hexec
      · rw [execute_eq hfa hfb, happly, intResult, hright] at hexec
        cases hexec
      · rw [execute_undefined fun hc => hcb hc.2] at hexec
        cases hexec
    · cases hfb : asFloat b with
      | none =>
        rw [execute, hfa, hfb] at hexec
        cases hexec
      | some y =>
        rw [execute_eq hfa hfb, happly, intResult, hleft] at hexec
        cases hexec
    · rw [execute_undefined fun hc => hca hc.1] at hexec
      cases hexec
  · have hfits := hfits _ rfl
    obtain ⟨hda, hdb, hdr⟩ := h hfits
    rw [execute_eq (asFloat_of_isDouble hda ha) (asFloat_of_isDouble hdb hb), happly, hfinite,
      ofInt, hdr, intResult, toInt64, if_pos hfits]
    rfl

theorem fmod_range (a : ℤ) (hb : b ≠ 0) :
    0 < b ∧ 0 ≤ a.fmod b ∧ a.fmod b < b ∨ b < 0 ∧ b < a.fmod b ∧ a.fmod b ≤ 0 := by
  rcases lt_or_gt_of_ne hb with hneg | hpos
  · have hnonneg := Int.fmod_nonneg_of_pos (-a) (neg_pos.mpr hneg)
    have hlt := Int.fmod_lt_of_pos (-a) (neg_pos.mpr hneg)
    rw [Int.neg_fmod_neg] at hnonneg hlt
    omega
  · exact .inl ⟨hpos, Int.fmod_nonneg_of_pos a hpos, Int.fmod_lt_of_pos a hpos⟩

theorem tmod_eq_fmod_iff (hb : b ≠ 0) : a.tmod b = a.fmod b ↔ b ∣ a ∨ (0 < a ↔ 0 < b) := by
  by_cases hdvd : b ∣ a
  · rw [Int.fmod_eq_tmod, if_pos hdvd, add_zero]
    exact iff_of_true rfl (.inl hdvd)
  · have ha : a ≠ 0 := fun hzero => hdvd (hzero ▸ dvd_zero b)
    rw [Int.fmod_eq_tmod, if_neg hdvd, or_iff_right hdvd]
    split_ifs <;> omega

theorem fmod_eq_self_iff (hb : b ≠ 0) : a.fmod b = a ↔ 0 ≤ a ∧ a < b ∨ b < a ∧ a ≤ 0 := by
  constructor
  · intro heq
    have hrange := fmod_range a hb
    rw [heq] at hrange
    omega
  · rintro (⟨h0, hlt⟩ | ⟨hlt, h0⟩)
    · exact Int.fmod_eq_of_lt h0 hlt
    · have hneg := Int.fmod_eq_of_lt (neg_nonneg.mpr h0) (neg_lt_neg hlt)
      rw [Int.neg_fmod_neg] at hneg
      exact neg_inj.mp hneg

theorem tmod_fits (a : ℤ) (hb : FitsInt64 b) (hzero : b ≠ 0) : FitsInt64 (a.tmod b) := by
  have habs : (a.tmod b).natAbs < b.natAbs := by
    rw [Int.natAbs_tmod]
    exact Nat.mod_lt _ (Int.natAbs_pos.mpr hzero)
  obtain ⟨hlow, hhigh⟩ := hb
  exact ⟨by omega, by omega⟩

/-- With a divisor that is no double the remainder is the dividend. -/
theorem exact_mod_iff (ha : FitsInt64 a) (hb : FitsInt64 b) : Exact .mod a b ↔
    b ≠ 0 ∧ IsDouble a ∧ (IsDouble b ∧ (b ∣ a ∨ (0 < a ↔ 0 < b)) ∨
      ¬ IsDouble b ∧ Convertible b ∧ (0 ≤ a ∧ a < b ∨ b < a ∧ a ≤ 0)) := by
  have hint : ∀ d, intResult d ≠ .raised := fun d => by
    rw [intResult]
    cases toInt64 d <;> exact fun h => nomatch h
  by_cases hzero : b = 0
  · refine iff_of_false (fun h => ?_) fun h => h.1 hzero
    have hpython : python .mod a b = .raised := if_pos hzero
    have hexec := h fun n hn => by
      rw [hpython] at hn
      cases hn
    rw [hpython, execute] at hexec
    cases hfa : asFloat a <;> cases hfb : asFloat b <;> rw [hfa, hfb] at hexec
    case some.some x y => exact hint _ hexec
    all_goals cases hexec
  have hpython : python .mod a b = .int (a.fmod b) := if_neg hzero
  have hfits : ∀ n, python .mod a b = .int n → FitsInt64 n := by
    intro n hn
    rw [hpython] at hn
    cases hn
    have hrange := fmod_range a hzero
    obtain ⟨hlow, hhigh⟩ := hb
    exact ⟨by omega, by omega⟩
  rw [Exact, imp_iff_right hfits, hpython, and_iff_right hzero]
  have hvalue : ∀ n, FitsInt64 n → (intResult (.finite n) = .int (a.fmod b) ↔ n = a.fmod b) := by
    intro n hn
    rw [intResult, toInt64, if_pos hn]
    exact ⟨Outcome.int.inj, congrArg _⟩
  rcases asFloat_cases ha with ⟨hda, -, hfa⟩ | ⟨hda, -, -, hfa⟩ | ⟨hda, hca, -⟩
  · rw [and_iff_right hda]
    rcases asFloat_cases hb with ⟨hdb, -, hfb⟩ | ⟨hdb, hcb, -, hfb⟩ | ⟨hdb, hcb, -⟩
    · have hother : ¬(¬ IsDouble b ∧ Convertible b ∧ (0 ≤ a ∧ a < b ∨ b < a ∧ a ≤ 0)) :=
        fun h => h.1 hdb
      rw [or_iff_left hother, and_iff_right hdb, execute_eq hfa hfb, apply, fmod, if_neg hzero,
        hvalue _ (tmod_fits a hb hzero), tmod_eq_fmod_iff hzero]
    · have hother : ¬(IsDouble b ∧ (b ∣ a ∨ (0 < a ↔ 0 < b))) := fun h => hdb h.1
      rw [or_iff_right hother, and_iff_right hdb, and_iff_right hcb, execute_eq hfa hfb, apply,
        fmod, hvalue a ha, eq_comm, fmod_eq_self_iff hzero]
    · rw [execute_undefined fun hc => hcb hc.2]
      exact iff_of_false (fun h => nomatch h) (not_or.mpr ⟨fun h => hdb h.1, fun h => hcb h.2.1⟩)
  · refine iff_of_false (fun h => ?_) fun h => hda h.1
    rw [execute, hfa] at h
    cases hfb : asFloat b <;> rw [hfb] at h <;> cases h
  · rw [execute_undefined fun hc => hca hc.1]
    exact iff_of_false (fun h => nomatch h) fun h => hda h.1

/-! ## Comparisons -/

/-- Two integers whose doubles are ordered as they are. -/
def Ordered (a b : ℤ) : Prop := (IsDouble a ∨ a < 0) ∧ (IsDouble b ∨ 0 < b)

theorem lt_asymm {x y : Double} (h : x.lt y = true) : y.lt x = false := by
  cases x with
  | finite a =>
    cases y with
    | finite b => exact decide_eq_false (not_lt.mpr (of_decide_eq_true h).le)
    | inf t => exact (Bool.not_eq_true' t).mp h
    | nan => cases h
  | inf s =>
    cases y with
    | finite b => exact congrArg Bool.not h
    | inf t => cases s <;> cases t <;> first | rfl | cases h
    | nan => cases h
  | nan => cases h

theorem le_eq_not_lt {x y : Double} (hx : x ≠ .nan) (hy : y ≠ .nan) : x.le y = !y.lt x := by
  cases x with
  | finite a =>
    cases y with
    | finite b => simp only [le, lt, ← decide_not, not_lt]
    | inf t => rfl
    | nan => exact absurd rfl hy
  | inf s =>
    cases y with
    | finite b => exact (Bool.not_not s).symm
    | inf t => cases s <;> cases t <;> rfl
    | nan => exact absurd rfl hy
  | nan => exact absurd rfl hx

theorem lt_self (x : Double) : x.lt x = false := by
  by_contra h
  exact h (lt_asymm (Bool.eq_true_of_not_eq_false h))

/-- What the constructor makes of a convertible integer. -/
theorem asFloat_of_convertible (hfits : FitsInt64 a) (hconv : Convertible a) :
    ∃ x, asFloat a = some x ∧ x ≠ .nan ∧
      (IsDouble a ∧ x = .finite a ∨ ¬ IsDouble a ∧ a ≠ 0 ∧ x = .inf (a < 0)) := by
  rcases asFloat_cases hfits with ⟨hd, -, heq⟩ | ⟨hd, -, hne, heq⟩ | ⟨-, hc, -⟩
  · exact ⟨_, heq, Double.noConfusion, .inl ⟨hd, rfl⟩⟩
  · exact ⟨_, heq, Double.noConfusion, .inr ⟨hd, hne, rfl⟩⟩
  · exact absurd hconv hc

theorem lt_iff_ordered {x y : Double} (hlt : a < b)
    (hx : IsDouble a ∧ x = .finite a ∨ ¬ IsDouble a ∧ a ≠ 0 ∧ x = .inf (a < 0))
    (hy : IsDouble b ∧ y = .finite b ∨ ¬ IsDouble b ∧ b ≠ 0 ∧ y = .inf (b < 0)) :
    x.lt y = true ↔ Ordered a b := by
  rcases hx with ⟨hda, rfl⟩ | ⟨hda, ha, rfl⟩ <;> rcases hy with ⟨hdb, rfl⟩ | ⟨hdb, hb, rfl⟩
  · exact iff_of_true (decide_eq_true hlt) ⟨.inl hda, .inl hdb⟩
  · simp only [lt, Ordered, hda, hdb, true_or, true_and, false_or, Bool.not_eq_true',
      decide_eq_false_iff_not]
    omega
  · simp only [lt, Ordered, hda, hdb, true_or, and_true, false_or, decide_eq_true_iff]
  · simp only [lt, Ordered, hda, hdb, false_or, Bool.and_eq_true, decide_eq_true_iff,
      Bool.not_eq_true', decide_eq_false_iff_not]
    omega

theorem exact_comparison_iff (op : Op) {result : Bool} (h : python op a b = .bool result) :
    Exact op a b ↔ execute op a b = .bool result := by
  rw [Exact, h, imp_iff_right fun n hn => by cases hn]

theorem exact_comparisons_iff (ha : FitsInt64 a) (hb : FitsInt64 b) :
    (Exact .lt a b ∧ Exact .gt a b ∧ Exact .ge a b ∧ Exact .le a b) ↔
      Convertible a ∧ Convertible b ∧ (a < b → Ordered a b) ∧ (b < a → Ordered b a) := by
  rw [exact_comparison_iff .lt rfl, exact_comparison_iff .gt rfl,
    exact_comparison_iff .ge rfl, exact_comparison_iff .le rfl]
  by_cases hconv : Convertible a ∧ Convertible b
  · obtain ⟨x, hfa, hx, hxa⟩ := asFloat_of_convertible ha hconv.1
    obtain ⟨y, hfb, hy, hyb⟩ := asFloat_of_convertible hb hconv.2
    simp only [execute_eq hfa hfb, apply, Outcome.bool.injEq, le_eq_not_lt hx hy,
      le_eq_not_lt hy hx, hconv.1, hconv.2, true_and]
    rcases lt_trichotomy a b with hlt | rfl | hgt
    · have hiff := lt_iff_ordered hlt hxa hyb
      constructor
      · rintro ⟨h, -⟩
        exact ⟨fun _ => hiff.mp (h.trans (decide_eq_true hlt)), fun h => absurd h hlt.asymm⟩
      · rintro ⟨h, -⟩
        have htrue := hiff.mpr (h hlt)
        simp [htrue, lt_asymm htrue, hlt, hlt.le, hlt.not_gt, hlt.not_ge]
    · cases hfa.symm.trans hfb
      simp [lt_self]
    · have hiff := lt_iff_ordered hgt hyb hxa
      constructor
      · rintro ⟨-, h, -⟩
        exact ⟨fun h => absurd h hgt.asymm, fun _ => hiff.mp (h.trans (decide_eq_true hgt))⟩
      · rintro ⟨-, h⟩
        have htrue := hiff.mpr (h hgt)
        simp [htrue, lt_asymm htrue, hgt, hgt.le, hgt.not_gt, hgt.not_ge]
  · refine iff_of_false (fun h => ?_) fun h => hconv ⟨h.1, h.2.1⟩
    have hlt := h.1
    rw [execute_undefined hconv] at hlt
    cases hlt

/-- When each operator is exact on two 64-bit integers. -/
theorem execute_exact_iff (a b : Int64) :
    (Exact .add a.toInt b.toInt ↔ (FitsInt64 (a.toInt + b.toInt) →
      IsDouble a.toInt ∧ IsDouble b.toInt ∧ IsDouble (a.toInt + b.toInt))) ∧
    (Exact .sub a.toInt b.toInt ↔ (FitsInt64 (a.toInt - b.toInt) →
      IsDouble a.toInt ∧ IsDouble b.toInt ∧ IsDouble (a.toInt - b.toInt))) ∧
    (Exact .mul a.toInt b.toInt ↔ (FitsInt64 (a.toInt * b.toInt) →
      IsDouble a.toInt ∧ IsDouble b.toInt ∧ IsDouble (a.toInt * b.toInt))) ∧
    (Exact .mod a.toInt b.toInt ↔ b.toInt ≠ 0 ∧ IsDouble a.toInt ∧
      (IsDouble b.toInt ∧ (b.toInt ∣ a.toInt ∨ (0 < a.toInt ↔ 0 < b.toInt)) ∨
        ¬ IsDouble b.toInt ∧ Convertible b.toInt ∧
          (0 ≤ a.toInt ∧ a.toInt < b.toInt ∨ b.toInt < a.toInt ∧ a.toInt ≤ 0))) ∧
    ((Exact .lt a.toInt b.toInt ∧ Exact .gt a.toInt b.toInt ∧ Exact .ge a.toInt b.toInt ∧
        Exact .le a.toInt b.toInt) ↔
      Convertible a.toInt ∧ Convertible b.toInt ∧
        (a.toInt < b.toInt → Ordered a.toInt b.toInt) ∧
        (b.toInt < a.toInt → Ordered b.toInt a.toInt)) := by
  have ha : FitsInt64 a.toInt := ⟨a.le_toInt, a.toInt_lt⟩
  have hb : FitsInt64 b.toInt := ⟨b.le_toInt, b.toInt_lt⟩
  refine ⟨exact_rounded_iff (fun _ _ => rfl) (fun _ _ => rfl) (fun _ _ => rfl) ?_ ?_ ha hb,
    exact_rounded_iff (fun _ _ => rfl) (fun _ _ => rfl) (fun _ _ => rfl) ?_ ?_ ha hb,
    exact_rounded_iff (fun _ _ => rfl) (fun _ _ => rfl) (fun _ _ => rfl) ?_ ?_ ha hb,
    exact_mod_iff ha hb, exact_comparisons_iff ha hb⟩
  · rintro s (b | t | _)
    · rfl
    · cases s <;> cases t <;> rfl
    · rfl
  · rintro (a | t | _) s
    · rfl
    · cases t <;> cases s <;> rfl
    · rfl
  · rintro s (b | t | _)
    · rfl
    · cases s <;> cases t <;> rfl
    · rfl
  · rintro (a | t | _) s
    · rfl
    · cases t <;> cases s <;> rfl
    · rfl
  · rintro s (b | t | _)
    · change toInt64 (if b = 0 then .nan else .inf (s ^^ decide (b < 0))) = none
      split_ifs <;> rfl
    · rfl
    · rfl
  · rintro (a | t | _) s
    · change toInt64 (if a = 0 then .nan else .inf (decide (a < 0) ^^ s)) = none
      split_ifs <;> rfl
    · rfl
    · rfl

/-- The remainder of `-1` by 3 is 2, not `-1`. -/
theorem execute_mod_neg : ¬ ∀ (op : Op) (a b : Int64), Exact op a.toInt b.toInt := by
  intro h
  have hexact : Exact .mod (-1) 3 := h .mod (-1) 3
  have hcode : execute .mod (-1) 3 = .int (-1) := by rfl
  have hpython : python .mod (-1) 3 = .int 2 := rfl
  have hsame := hexact fun n hn => by
    rw [hpython] at hn
    cases hn
    decide
  rw [hcode, hpython] at hsame
  cases hsame

end Jinja
end RocmFpx
