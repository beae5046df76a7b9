import Mathlib.Data.List.Nodup
import Mathlib.Tactic.IntervalCases
import RocmFpx.Fallible
import RocmFpx.Utf8Boundary

/-!
Code points and bytes of `unicode.cpp`. The decoder takes the bytes from an offset on and gives
the code point with the bytes behind it; it reads every sequence whose first byte announces its
length, also one that is longer than it need be or lies beyond the last code point.
-/

namespace RocmFpx
namespace Unicode

/-- `unicode_len_utf8`. -/
def lenUtf8 (src : UInt8) : ℕ :=
  [1, 1, 1, 1, 1, 1, 1, 1, 1, 1, 1, 1, 2, 2, 3, 4].getD (src.toNat / 16) 1

/-! ## Decoding -/

/-- The `k` continuation bytes of a sequence, `acc` read so far. -/
def cptTail : ℕ → ℕ → List UInt8 → Option (ℕ × List UInt8)
  | 0, acc, s => some (acc, s)
  | _ + 1, _, [] => none
  | k + 1, acc, b :: s => if isContinuation b then cptTail k (acc * 64 + b.toNat % 64) s else none

/-- `unicode_cpt_from_utf8`; `none` stands for the exception. -/
def cptFromUtf8 : List UInt8 → Option (ℕ × List UInt8)
  | [] => none
  | b :: s =>
    if b.toNat < 0x80 then some (b.toNat, s)
    else if b.toNat < 0xC0 then none
    else if b.toNat < 0xE0 then cptTail 1 (b.toNat % 32) s
    else if b.toNat < 0xF0 then cptTail 2 (b.toNat % 16) s
    else if b.toNat < 0xF8 then cptTail 3 (b.toNat % 8) s
    else none

def replacementCpt : ℕ := 0xFFFD

def cptsFrom : ℕ → List UInt8 → List ℕ
  | 0, _ => []
  | _ + 1, [] => []
  | n + 1, b :: s =>
    match cptFromUtf8 (b :: s) with
    | some (cpt, t) => cpt :: cptsFrom n t
    | none => replacementCpt :: cptsFrom n s

/-- `unicode_cpts_from_utf8`. -/
def cptsFromUtf8 (utf8 : List UInt8) : List ℕ := cptsFrom utf8.length utf8

/-! ## Encoding -/

/-- The bytes of a code point, as many as its size asks for. -/
def utf8Bytes (cpt : ℕ) : List UInt8 :=
  if cpt ≤ 0x7F then [.ofNat cpt]
  else if cpt ≤ 0x7FF then [.ofNat (0xC0 + cpt / 64 % 32), .ofNat (0x80 + cpt % 64)]
  else if cpt ≤ 0xFFFF then
    [.ofNat (0xE0 + cpt / 4096 % 16), .ofNat (0x80 + cpt / 64 % 64), .ofNat (0x80 + cpt % 64)]
  else
    [.ofNat (0xF0 + cpt / 262144 % 8), .ofNat (0x80 + cpt / 4096 % 64),
      .ofNat (0x80 + cpt / 64 % 64), .ofNat (0x80 + cpt % 64)]

def maxCpt : ℕ := 0x10FFFF

/-- `unicode_cpt_to_utf8`. -/
def cptToUtf8 (cpt : ℕ) : Except String (List UInt8) :=
  if cpt ≤ maxCpt then .ok (utf8Bytes cpt) else .error "invalid codepoint"

theorem cptToUtf8_ok {cpt : ℕ} (h : cpt ≤ maxCpt) : cptToUtf8 cpt = .ok (utf8Bytes cpt) := if_pos h

theorem cptToUtf8_eq_ok {cpt : ℕ} {s : List UInt8} :
    cptToUtf8 cpt = .ok s ↔ cpt ≤ maxCpt ∧ utf8Bytes cpt = s := by
  rw [cptToUtf8]
  by_cases h : cpt ≤ maxCpt
  · rw [if_pos h]
    exact ⟨fun e => ⟨h, Except.ok.inj e⟩, fun e => congrArg Except.ok e.2⟩
  · rw [if_neg h]
    exact ⟨fun e => (nomatch e), fun e => absurd e.1 h⟩

theorem utf8Bytes_ne_nil (cpt : ℕ) : utf8Bytes cpt ≠ [] := by
  rw [utf8Bytes]
  split_ifs <;> exact List.cons_ne_nil _ _

theorem utf8Bytes_lenUtf8 {cpt : ℕ} (h : cpt ≤ maxCpt) :
    ∃ b s, utf8Bytes cpt = b :: s ∧ lenUtf8 b = (utf8Bytes cpt).length := by
  have hlen : ∀ n, n < 256 → lenUtf8 (.ofNat n) =
      [1, 1, 1, 1, 1, 1, 1, 1, 1, 1, 1, 1, 2, 2, 3, 4].getD (n / 16) 1 := by
    intro n hn
    rw [lenUtf8, UInt8.toNat_ofNat', Nat.mod_eq_of_lt hn]
  rw [maxCpt] at h
  rw [utf8Bytes]
  split_ifs
  · refine ⟨_, _, rfl, ?_⟩
    rw [hlen _ (by omega)]
    have hdiv : cpt / 16 < 8 := by omega
    interval_cases cpt / 16 <;> rfl
  · refine ⟨_, _, rfl, ?_⟩
    rw [hlen _ (by omega)]
    have hdiv : (0xC0 + cpt / 64 % 32) / 16 = 12 ∨ (0xC0 + cpt / 64 % 32) / 16 = 13 := by omega
    rcases hdiv with hdiv | hdiv <;> rw [hdiv] <;> rfl
  · refine ⟨_, _, rfl, ?_⟩
    rw [hlen _ (by omega)]
    have hdiv : (0xE0 + cpt / 4096 % 16) / 16 = 14 := by omega
    rw [hdiv]
    rfl
  · refine ⟨_, _, rfl, ?_⟩
    rw [hlen _ (by omega)]
    have hdiv : (0xF0 + cpt / 262144 % 8) / 16 = 15 := by omega
    rw [hdiv]
    rfl

/-! ## Decoding what was encoded -/

theorem isContinuation_ofNat {n : ℕ} (h : n < 64) : isContinuation (.ofNat (0x80 + n)) := by
  have hmod : (0x80 + n) % 2 ^ 8 = 0x80 + n := Nat.mod_eq_of_lt (by omega)
  rw [isContinuation, UInt8.toNat_ofNat', hmod, beq_iff_eq]
  omega

theorem cptTail_ofNat {n : ℕ} (h : n < 64) (k acc : ℕ) (s : List UInt8) :
    cptTail (k + 1) acc (.ofNat (0x80 + n) :: s) = cptTail k (acc * 64 + n) s := by
  have hmod : (0x80 + n) % 2 ^ 8 % 64 = n := by omega
  rw [cptTail, if_pos (isContinuation_ofNat h), UInt8.toNat_ofNat', hmod]

theorem cptFromUtf8_utf8Bytes {cpt : ℕ} (h : cpt ≤ maxCpt) (t : List UInt8) :
    cptFromUtf8 (utf8Bytes cpt ++ t) = some (cpt, t) := by
  have h4096 : cpt / 4096 = cpt / 64 / 64 := by omega
  have h262144 : cpt / 262144 = cpt / 64 / 64 / 64 := by omega
  rw [maxCpt] at h
  rw [utf8Bytes]
  by_cases h1 : cpt ≤ 0x7F
  · have hb : (UInt8.ofNat cpt).toNat = cpt := by rw [UInt8.toNat_ofNat']; omega
    rw [if_pos h1, List.singleton_append, cptFromUtf8, hb, if_pos (by omega)]
  rw [if_neg h1]
  by_cases h2 : cpt ≤ 0x7FF
  · have hb : (UInt8.ofNat (0xC0 + cpt / 64 % 32)).toNat = 0xC0 + cpt / 64 % 32 := by
      rw [UInt8.toNat_ofNat']; omega
    rw [if_pos h2, List.cons_append, List.singleton_append, cptFromUtf8, hb, if_neg (by omega),
      if_neg (by omega), if_pos (by omega), cptTail_ofNat (Nat.mod_lt _ (by decide)), cptTail]
    congr 2
    omega
  rw [if_neg h2]
  by_cases h3 : cpt ≤ 0xFFFF
  · have hb : (UInt8.ofNat (0xE0 + cpt / 4096 % 16)).toNat = 0xE0 + cpt / 4096 % 16 := by
      rw [UInt8.toNat_ofNat']; omega
    rw [if_pos h3, List.cons_append, List.cons_append, List.singleton_append, cptFromUtf8, hb,
      if_neg (by omega), if_neg (by omega), if_neg (by omega), if_pos (by omega),
      cptTail_ofNat (Nat.mod_lt _ (by decide)), cptTail_ofNat (Nat.mod_lt _ (by decide)), cptTail]
    congr 2
    omega
  · have hb : (UInt8.ofNat (0xF0 + cpt / 262144 % 8)).toNat = 0xF0 + cpt / 262144 % 8 := by
      rw [UInt8.toNat_ofNat']; omega
    rw [if_neg h3, List.cons_append, List.cons_append, List.cons_append, List.singleton_append,
      cptFromUtf8, hb, if_neg (by omega), if_neg (by omega), if_neg (by omega), if_neg (by omega),
      if_pos (by omega), cptTail_ofNat (Nat.mod_lt _ (by decide)),
      cptTail_ofNat (Nat.mod_lt _ (by decide)), cptTail_ofNat (Nat.mod_lt _ (by decide)), cptTail]
    congr 2
    omega

/-! ## What the decoder accepts -/

theorem cptTail_succ {k acc : ℕ} {s : List UInt8} {r : ℕ × List UInt8}
    (h : cptTail (k + 1) acc s = some r) :
    ∃ b u, s = b :: u ∧ b.toNat / 64 = 2 ∧ cptTail k (acc * 64 + b.toNat % 64) u = some r := by
  cases s with
  | nil => cases h
  | cons b u =>
    rw [cptTail] at h
    by_cases hb : isContinuation b
    · rw [if_pos hb] at h
      exact ⟨b, u, rfl, by simpa [isContinuation] using hb, h⟩
    · rw [if_neg hb] at h
      cases h

/-- The least code point that needs so many bytes. -/
def leastOfLength : ℕ → ℕ
  | 2 => 0x80
  | 3 => 0x800
  | 4 => 0x10000
  | _ => 0

theorem ofNat_eq {n : ℕ} {b : UInt8} (h : n = b.toNat) : UInt8.ofNat n = b := by
  rw [h, UInt8.ofNat_toNat]

/-- What the decoder reads as the code point `cpt` from the bytes `used`: no more of them than the
largest code point of their number, and the encoding of `cpt` where they are not too many. -/
structure Reads (used : List UInt8) (cpt : ℕ) : Prop where
  one_le : 1 ≤ used.length
  le_four : used.length ≤ 4
  lt : cpt < if used.length = 4 then 0x200000 else leastOfLength (used.length + 1)
  encoded : leastOfLength used.length ≤ cpt → utf8Bytes cpt = used

theorem cptFromUtf8_reads {s t : List UInt8} {cpt : ℕ} (h : cptFromUtf8 s = some (cpt, t)) :
    ∃ used, s = used ++ t ∧ Reads used cpt := by
  cases s with
  | nil => cases h
  | cons a s =>
    rw [cptFromUtf8] at h
    have ha := a.toNat_lt
    by_cases h1 : a.toNat < 0x80
    · rw [if_pos h1] at h
      obtain ⟨rfl, rfl⟩ := Prod.mk.inj (Option.some.inj h)
      refine ⟨[a], rfl, le_rfl, by simp, h1, fun _ => ?_⟩
      rw [utf8Bytes, if_pos (by omega), UInt8.ofNat_toNat]
    rw [if_neg h1] at h
    by_cases h2 : a.toNat < 0xC0
    · rw [if_pos h2] at h
      cases h
    rw [if_neg h2] at h
    by_cases h3 : a.toNat < 0xE0
    · rw [if_pos h3] at h
      obtain ⟨b, s, rfl, hb, h⟩ := cptTail_succ h
      obtain ⟨rfl, rfl⟩ := Prod.mk.inj (Option.some.inj h)
      refine ⟨[a, b], rfl, by simp, by simp, ?_, fun hle => ?_⟩
      · change _ < 0x800
        omega
      change 0x80 ≤ _ at hle
      rw [utf8Bytes, if_neg (by omega), if_pos (by omega), ofNat_eq (b := a) (by omega),
        ofNat_eq (b := b) (by omega)]
    rw [if_neg h3] at h
    by_cases h4 : a.toNat < 0xF0
    · rw [if_pos h4] at h
      obtain ⟨b, s, rfl, hb, h⟩ := cptTail_succ h
      obtain ⟨c, s, rfl, hc, h⟩ := cptTail_succ h
      obtain ⟨rfl, rfl⟩ := Prod.mk.inj (Option.some.inj h)
      refine ⟨[a, b, c], rfl, by simp, by simp, ?_, fun hle => ?_⟩
      · change _ < 0x10000
        omega
      change 0x800 ≤ _ at hle
      rw [utf8Bytes, if_neg (by omega), if_neg (by omega), if_pos (by omega),
        ofNat_eq (b := a) (by omega), ofNat_eq (b := b) (by omega), ofNat_eq (b := c) (by omega)]
    rw [if_neg h4] at h
    by_cases h5 : a.toNat < 0xF8
    · rw [if_pos h5] at h
      obtain ⟨b, s, rfl, hb, h⟩ := cptTail_succ h
      obtain ⟨c, s, rfl, hc, h⟩ := cptTail_succ h
      obtain ⟨d, s, rfl, hd, h⟩ := cptTail_succ h
      obtain ⟨rfl, rfl⟩ := Prod.mk.inj (Option.some.inj h)
      refine ⟨[a, b, c, d], rfl, by simp, by simp, ?_, fun hle => ?_⟩
      · change _ < 0x200000
        omega
      change 0x10000 ≤ _ at hle
      rw [utf8Bytes, if_neg (by omega), if_neg (by omega), if_neg (by omega),
        ofNat_eq (b := a) (by omega), ofNat_eq (b := b) (by omega), ofNat_eq (b := c) (by omega),
        ofNat_eq (b := d) (by omega)]
    · rw [if_neg h5] at h
      cases h

theorem Reads.length_le {used : List UInt8} {cpt : ℕ} (h : Reads used cpt) :
    (utf8Bytes cpt).length ≤ used.length ∧
      ((utf8Bytes cpt).length = used.length → leastOfLength used.length ≤ cpt) := by
  obtain ⟨h1, h4, hlt, -⟩ := h
  rw [utf8Bytes]
  generalize used.length = k at *
  have hk : k = 1 ∨ k = 2 ∨ k = 3 ∨ k = 4 := by omega
  rcases hk with rfl | rfl | rfl | rfl <;> simp only [leastOfLength] at hlt ⊢ <;> split_ifs <;>
    simp_all <;> omega

/-! ## The rounds of the decoding loop -/

theorem cptFromUtf8_length {s t : List UInt8} {cpt : ℕ} (h : cptFromUtf8 s = some (cpt, t)) :
    t.length < s.length := by
  obtain ⟨used, rfl, hr⟩ := cptFromUtf8_reads h
  have h1 := hr.one_le
  rw [List.length_append]
  omega

/-- The bytes of each round with the code point they are read as, or with none where the first of
them is rejected. -/
def unitsFrom : ℕ → List UInt8 → List (List UInt8 × Option ℕ)
  | 0, _ => []
  | _ + 1, [] => []
  | n + 1, b :: s =>
    match cptFromUtf8 (b :: s) with
    | some (cpt, t) => ((b :: s).take (s.length + 1 - t.length), some cpt) :: unitsFrom n t
    | none => ([b], none) :: unitsFrom n s

def units (utf8 : List UInt8) : List (List UInt8 × Option ℕ) := unitsFrom utf8.length utf8

theorem cptsFrom_eq_units (n : ℕ) (s : List UInt8) :
    cptsFrom n s = (unitsFrom n s).map fun u => u.2.getD replacementCpt := by
  induction n generalizing s with
  | zero => rfl
  | succ n ih =>
    cases s with
    | nil => rfl
    | cons b s =>
      rw [cptsFrom, unitsFrom]
      cases h : cptFromUtf8 (b :: s) with
      | none => simp only [List.map_cons, ih, Option.getD_none]
      | some r =>
        obtain ⟨cpt, t⟩ := r
        simp only [List.map_cons, ih, Option.getD_some]

theorem cptsFromUtf8_eq_units (utf8 : List UInt8) :
    cptsFromUtf8 utf8 = (units utf8).map fun u => u.2.getD replacementCpt :=
  cptsFrom_eq_units _ _

theorem unitsFrom_reads {n : ℕ} {s : List UInt8} {u : List UInt8 × Option ℕ}
    (h : u ∈ unitsFrom n s) : ∀ cpt, u.2 = some cpt → Reads u.1 cpt := by
  induction n generalizing s with
  | zero => cases h
  | succ n ih =>
    cases s with
    | nil => cases h
    | cons b s =>
      rw [unitsFrom] at h
      cases hc : cptFromUtf8 (b :: s) with
      | none =>
        simp only [hc, List.mem_cons] at h
        obtain rfl | h := h
        · intro _ h
          cases h
        · exact ih h
      | some r =>
        obtain ⟨cpt, t⟩ := r
        simp only [hc, List.mem_cons] at h
        obtain rfl | h := h
        · intro cpt' hcpt
          obtain rfl := Option.some.inj hcpt
          obtain ⟨used, hs, hr⟩ := cptFromUtf8_reads hc
          have hlen : s.length + 1 - t.length = used.length := by
            have := congrArg List.length hs
            rw [List.length_append, List.length_cons] at this
            omega
          simp only [hlen, hs, List.take_left']
          exact hr
        · exact ih h

theorem flatten_unitsFrom {n : ℕ} {s : List UInt8} (h : s.length ≤ n) :
    (unitsFrom n s).flatMap Prod.fst = s := by
  induction n generalizing s with
  | zero => exact (List.length_eq_zero_iff.mp (Nat.le_zero.mp h)).symm
  | succ n ih =>
    cases s with
    | nil => rfl
    | cons b s =>
      rw [unitsFrom]
      have hs : s.length ≤ n := Nat.le_of_succ_le_succ h
      cases hc : cptFromUtf8 (b :: s) with
      | none => simp only [List.flatMap_cons, ih hs, List.singleton_append]
      | some r =>
        obtain ⟨cpt, t⟩ := r
        obtain ⟨used, hused, -⟩ := cptFromUtf8_reads hc
        have ht := cptFromUtf8_length hc
        have hlen : s.length + 1 - t.length = used.length := by
          have := congrArg List.length hused
          rw [List.length_append, List.length_cons] at this
          omega
        simp only [List.flatMap_cons, ih ((Nat.le_of_lt_succ ht).trans hs), hlen]
        rw [hused, List.take_left']
        rfl

theorem cptsFromUtf8_lt {utf8 : List UInt8} {cpt : ℕ} (h : cpt ∈ cptsFromUtf8 utf8) :
    cpt < 0x200000 := by
  rw [cptsFromUtf8_eq_units] at h
  obtain ⟨u, hu, rfl⟩ := List.mem_map.mp h
  cases hc : u.2 with
  | none => decide
  | some c =>
    obtain ⟨h1, h4, hlt, -⟩ := unitsFrom_reads hu c hc
    rw [Option.getD_some]
    have hlen : u.1.length = 1 ∨ u.1.length = 2 ∨ u.1.length = 3 ∨ u.1.length = 4 := by omega
    rcases hlen with hlen | hlen | hlen | hlen <;> rw [hlen] at hlt <;>
      exact lt_of_lt_of_le hlt (by decide)

theorem units_ne_nil {utf8 : List UInt8} (h : utf8 ≠ []) : units utf8 ≠ [] := by
  intro he
  have hf := flatten_unitsFrom (le_refl utf8.length)
  rw [← units, he] at hf
  exact h hf.symm

theorem cptsFrom_flatMap {cpts : List ℕ} (h : ∀ c ∈ cpts, c ≤ maxCpt) {n : ℕ}
    (hn : (cpts.flatMap utf8Bytes).length ≤ n) : cptsFrom n (cpts.flatMap utf8Bytes) = cpts := by
  induction cpts generalizing n with
  | nil => cases n <;> rfl
  | cons c cpts ih =>
    have hdec := cptFromUtf8_utf8Bytes (h c List.mem_cons_self) (cpts.flatMap utf8Bytes)
    obtain ⟨b, s, hb⟩ := List.exists_cons_of_ne_nil (utf8Bytes_ne_nil c)
    rw [List.flatMap_cons, hb, List.cons_append] at hn ⊢
    rw [hb, List.cons_append] at hdec
    cases n with
    | zero => cases hn
    | succ n =>
      rw [cptsFrom, hdec]
      refine congrArg (c :: ·) (ih (fun x hx => h x (List.mem_cons_of_mem _ hx)) ?_)
      rw [List.length_cons, List.length_append] at hn
      omega

theorem cptsFromUtf8_flatMap {cpts : List ℕ} (h : ∀ c ∈ cpts, c ≤ maxCpt) :
    cptsFromUtf8 (cpts.flatMap utf8Bytes) = cpts := cptsFrom_flatMap h le_rfl

/-! ## Bytes as printable code points -/

/-- The bytes that stand for themselves, by their ranges. -/
def printable : List ℕ :=
  (List.range 94).map (0x21 + ·) ++ (List.range 12).map (0xA1 + ·) ++
    (List.range 82).map (0xAE + ·)

/-- The other bytes, in order; the `n`-th is mapped to the code point `256 + n`. -/
def unprintable : List ℕ := (List.range 256).filter (· ∉ printable)

/-- The code points of `unicode_byte_to_utf8_map` by their bytes. -/
def byteCpts : List (UInt8 × ℕ) :=
  printable.map (fun ch => (.ofNat ch, ch)) ++
    unprintable.zipIdx.map fun p => (.ofNat p.1, 256 + p.2)

/-- `unicode_byte_to_utf8_map`. -/
def byteToUtf8Map : List (UInt8 × List UInt8) := byteCpts.map fun p => (p.1, utf8Bytes p.2)

/-- `unicode_utf8_to_byte_map`. -/
def utf8ToByteMap : List (List UInt8 × UInt8) := byteCpts.map fun p => (utf8Bytes p.2, p.1)

/-- `unicode_byte_to_utf8`. -/
def byteToUtf8 (byte : UInt8) : Except String (List UInt8) :=
  match byteToUtf8Map.lookup byte with
  | some utf8 => .ok utf8
  | none => .error "map::at"

/-- `unicode_utf8_to_byte`; `none` where the map has no such key. -/
def utf8ToByte (utf8 : List UInt8) : Option UInt8 := utf8ToByteMap.lookup utf8

/-- The code point that stands for a byte. -/
def byteCpt (byte : UInt8) : ℕ := (byteCpts.lookup byte).getD 0

theorem mem_printable {n : ℕ} :
    n ∈ printable ↔ 33 ≤ n ∧ n ≤ 126 ∨ 161 ≤ n ∧ n ≤ 172 ∨ 174 ≤ n ∧ n ≤ 255 := by
  simp only [printable, List.mem_append, List.mem_map, List.mem_range]
  constructor
  · rintro ((⟨k, hk, rfl⟩ | ⟨k, hk, rfl⟩) | ⟨k, hk, rfl⟩) <;> omega
  · rintro (h | h | h)
    · exact .inl (.inl ⟨n - 33, by omega, by omega⟩)
    · exact .inl (.inr ⟨n - 161, by omega, by omega⟩)
    · exact .inr ⟨n - 174, by omega, by omega⟩

theorem mem_unprintable {n : ℕ} : n ∈ unprintable ↔ n < 256 ∧ n ∉ printable := by
  rw [unprintable, List.mem_filter, List.mem_range, decide_eq_true_iff]

theorem nodup_shifted (k n : ℕ) : ((List.range n).map (k + ·)).Nodup :=
  List.nodup_range.map (add_right_injective k)

theorem nodup_printable : printable.Nodup := by
  rw [printable]
  refine List.Nodup.append (List.Nodup.append (nodup_shifted _ _) (nodup_shifted _ _) ?_)
    (nodup_shifted _ _) ?_
  all_goals
    intro n h h'
    simp only [List.mem_append, List.mem_map, List.mem_range] at h h'
    omega

theorem byteCpts_fst : byteCpts.map Prod.fst = (printable ++ unprintable).map UInt8.ofNat := by
  have hidx : unprintable = unprintable.zipIdx.map Prod.fst := (List.zipIdx_map_fst 0 _).symm
  rw [byteCpts, List.map_append, List.map_append, List.map_map, List.map_map]
  conv_rhs => rw [hidx, List.map_map]
  rfl

theorem lt_of_mem_bytes {n : ℕ} (h : n ∈ printable ++ unprintable) : n < 256 := by
  obtain h | h := List.mem_append.mp h
  · have := mem_printable.1 h
    omega
  · exact (mem_unprintable.1 h).1

theorem nodup_byteCpts_fst : (byteCpts.map Prod.fst).Nodup := by
  rw [byteCpts_fst]
  refine List.Nodup.map_on ?_ (List.Nodup.append nodup_printable (List.nodup_range.filter _)
    fun n h h' => (mem_unprintable.1 h').2 h)
  intro m hm n hn hmn
  have hval := congrArg UInt8.toNat hmn
  rwa [UInt8.toNat_ofNat', UInt8.toNat_ofNat', Nat.mod_eq_of_lt (lt_of_mem_bytes hm),
    Nat.mod_eq_of_lt (lt_of_mem_bytes hn)] at hval

theorem nodup_byteCpts_snd : (byteCpts.map Prod.snd).Nodup := by
  have hsnd : byteCpts.map Prod.snd =
      printable ++ (List.range unprintable.length).map (256 + ·) := by
    rw [List.range_eq_range', ← List.zipIdx_map_snd 0 unprintable, List.map_map, byteCpts,
      List.map_append, List.map_map, List.map_map]
    exact congrArg (· ++ _) (List.map_id printable)
  rw [hsnd]
  refine List.Nodup.append nodup_printable (nodup_shifted _ _) fun n h h' => ?_
  have := mem_printable.1 h
  obtain ⟨k, -, rfl⟩ := List.mem_map.mp h'
  omega

theorem byteCpts_le {p : UInt8 × ℕ} (h : p ∈ byteCpts) : p.2 ≤ maxCpt := by
  rw [byteCpts] at h
  obtain h | h := List.mem_append.mp h
  · obtain ⟨n, hn, rfl⟩ := List.mem_map.mp h
    have := mem_printable.1 hn
    exact (show n ≤ 255 by omega).trans (by decide)
  · obtain ⟨q, hq, rfl⟩ := List.mem_map.mp h
    have hidx := (List.mem_zipIdx hq).2.1
    have hlen : unprintable.length ≤ 256 :=
      (List.length_filter_le _ _).trans (List.length_range).le
    change 256 + q.2 ≤ 0x10FFFF
    omega

theorem lookup_of_mem {α β : Type} [BEq α] [LawfulBEq α] {l : List (α × β)} {a : α} {b : β}
    (hl : (l.map Prod.fst).Nodup) (h : (a, b) ∈ l) : l.lookup a = some b := by
  induction l with
  | nil => cases h
  | cons p l ih =>
    obtain ⟨hp, hl⟩ := List.nodup_cons.mp hl
    obtain h | h := List.mem_cons.mp h
    · obtain rfl := h
      exact List.lookup_cons_self
    · have hne : a ≠ p.1 := fun he => hp (he ▸ List.mem_map_of_mem (f := Prod.fst) h)
      rw [List.lookup_cons, beq_eq_false_iff_ne.mpr hne]
      exact ih hl h

/-- The two maps undo each other, through a code point of the encoder's range. -/
theorem byteCpt_spec (byte : UInt8) : byteCpt byte ≤ maxCpt ∧
    byteToUtf8 byte = .ok (utf8Bytes (byteCpt byte)) ∧
    utf8ToByte (utf8Bytes (byteCpt byte)) = some byte := by
  obtain ⟨cpt, hmem⟩ : ∃ cpt, (byte, cpt) ∈ byteCpts := by
    have hb : byte ∈ byteCpts.map Prod.fst := by
      rw [byteCpts_fst]
      refine List.mem_map.mpr ⟨byte.toNat, List.mem_append.mpr ?_, UInt8.ofNat_toNat⟩
      by_cases h : byte.toNat ∈ printable
      · exact .inl h
      · exact .inr (mem_unprintable.2 ⟨byte.toNat_lt, h⟩)
    obtain ⟨p, hp, rfl⟩ := List.mem_map.mp hb
    exact ⟨p.2, hp⟩
  have hcpt : byteCpt byte = cpt := by
    rw [byteCpt, lookup_of_mem nodup_byteCpts_fst hmem, Option.getD_some]
  rw [hcpt]
  refine ⟨byteCpts_le hmem, ?_, ?_⟩
  · have hkeys : (byteToUtf8Map.map Prod.fst).Nodup := by
      rw [byteToUtf8Map, List.map_map]
      exact nodup_byteCpts_fst
    rw [byteToUtf8, lookup_of_mem hkeys (List.mem_map_of_mem hmem)]
  · have hkeys : (utf8ToByteMap.map Prod.fst).Nodup := by
      rw [utf8ToByteMap, List.map_map]
      change (byteCpts.map (utf8Bytes ∘ Prod.snd)).Nodup
      rw [← List.map_map]
      refine List.Nodup.map_on ?_ nodup_byteCpts_snd
      intro m hm n hn hmn
      obtain ⟨p, hp, rfl⟩ := List.mem_map.mp hm
      obtain ⟨q, hq, rfl⟩ := List.mem_map.mp hn
      have hdec := cptFromUtf8_utf8Bytes (byteCpts_le hp) []
      rw [hmn, cptFromUtf8_utf8Bytes (byteCpts_le hq)] at hdec
      exact (Prod.mk.inj (Option.some.inj hdec)).1.symm
    rw [utf8ToByte, lookup_of_mem hkeys (List.mem_map_of_mem hmem)]

end Unicode
end RocmFpx
