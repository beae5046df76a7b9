import Mathlib.Algebra.Order.Group.Int
import Mathlib.Data.List.TakeWhile
import Mathlib.Tactic.IntervalCases

/-!
Decoding UTF-8 in pieces. A piece may begin and end inside a character; what has been read of it
is carried over. On the bytes of a valid text the decoder reads one byte after the other, so it
makes no difference to the characters found how the bytes are cut into pieces.
-/

namespace RocmFpx

/-- `llama_partial_utf8`. -/
structure PartialUtf8 where
  value : ℕ
  nRemain : ℤ
  deriving DecidableEq

namespace PartialUtf8

/-- The table of lengths by the high bits of the first byte. -/
def lookup (b : UInt8) : ℤ :=
  [1, 1, 1, 1, 1, 1, 1, 1, 0, 0, 0, 0, 2, 2, 3, 4].getD (b.toNat / 16) 0

/-- `(value << 6) + (b & 0x3F)`. -/
def shift (value : ℕ) (b : UInt8) : ℕ := (value * 64 + b.toNat % 64) % 2 ^ 32

/-- The first loop: going on with the character carried over; `none` for an invalid sequence. -/
def continueDecode : List UInt8 → ℕ → ℤ → Option (List UInt8 × ℕ × ℤ)
  | [], value, n => some ([], value, n)
  | b :: bs, value, n =>
    if 0 < n then
      if b.toNat / 64 = 2 then continueDecode bs (shift value b) (n - 1) else none
    else some (b :: bs, value, n)

/-- The inner loop: the bytes behind the first of a character. -/
def takeTail : List UInt8 → ℕ → ℤ → List UInt8 × ℕ × ℤ
  | [], value, n => ([], value, n)
  | b :: bs, value, n => if 0 < n then takeTail bs (shift value b) (n - 1) else (b :: bs, value, n)

/-- The characters behind, with the terminating zero; `fuel` bounds their number. -/
def decodeLoop : ℕ → List UInt8 → ℕ → ℤ → List ℕ → List ℕ × PartialUtf8
  | 0, _, value, n, codePoints => (codePoints ++ [0], ⟨value, n⟩)
  | _ + 1, [], value, n, codePoints => (codePoints ++ [0], ⟨value, n⟩)
  | fuel + 1, b :: bs, _, _, codePoints =>
    if lookup b - 1 < 0 then ([0], ⟨0, lookup b - 1⟩)
    else
      let t := takeTail bs (b.toNat % 2 ^ (7 - (lookup b - 1).toNat)) (lookup b - 1)
      decodeLoop fuel t.1 t.2.1 t.2.2 (if t.2.2 = 0 then codePoints ++ [t.2.1] else codePoints)

/-- `decode_utf8` with a partial start. -/
def decodeUtf8 (src : List UInt8) (start : PartialUtf8) : List ℕ × PartialUtf8 :=
  match continueDecode (src.takeWhile (· ≠ 0)) start.value start.nRemain with
  | none => ([0], ⟨0, -1⟩)
  | some (rest, value, n) =>
    decodeLoop rest.length rest value n (if 0 < start.nRemain ∧ n = 0 then [value] else [])

/-! ## One byte after the other -/

/-- The decoder takes one byte of a valid text; the character it completes, if it does. -/
def feed (st : PartialUtf8) (b : UInt8) : Option (List ℕ × PartialUtf8) :=
  if 0 < st.nRemain then
    if b.toNat / 64 = 2 then
      some (if st.nRemain = 1 then [shift st.value b] else [], ⟨shift st.value b, st.nRemain - 1⟩)
    else none
  else if lookup b - 1 < 0 then none
  else
    some (if lookup b - 1 = 0 then [b.toNat % 2 ^ (7 - (lookup b - 1).toNat)] else [],
      ⟨b.toNat % 2 ^ (7 - (lookup b - 1).toNat), lookup b - 1⟩)

def feedAll : List UInt8 → PartialUtf8 → Option (List ℕ × PartialUtf8)
  | [], st => some ([], st)
  | b :: bs, st => do
    let r ← feed st b
    let q ← feedAll bs r.2
    some (r.1 ++ q.1, q.2)

theorem feedAll_cons {b : UInt8} {bs : List UInt8} {st st' : PartialUtf8} {cs : List ℕ}
    (h : feedAll (b :: bs) st = some (cs, st')) :
    ∃ c mid ds, feed st b = some (c, mid) ∧ feedAll bs mid = some (ds, st') ∧ cs = c ++ ds := by
  rw [feedAll] at h
  obtain ⟨r, hr, h⟩ := Option.bind_eq_some_iff.mp h
  obtain ⟨q, hq, h⟩ := Option.bind_eq_some_iff.mp h
  obtain ⟨rfl, rfl⟩ := Prod.mk.inj (Option.some.inj h)
  exact ⟨_, _, _, hr, hq, rfl⟩

theorem feedAll_append {a b : List UInt8} {st st' : PartialUtf8} {cs : List ℕ} :
    feedAll (a ++ b) st = some (cs, st') ↔
      ∃ ds mid es, feedAll a st = some (ds, mid) ∧ feedAll b mid = some (es, st') ∧
        cs = ds ++ es := by
  induction a generalizing st cs with
  | nil =>
    constructor
    · intro h
      exact ⟨[], st, cs, rfl, h, rfl⟩
    · rintro ⟨ds, mid, es, h, hb, rfl⟩
      obtain ⟨rfl, rfl⟩ := Prod.mk.inj (Option.some.inj h)
      exact hb
  | cons x a ih =>
    constructor
    · intro h
      obtain ⟨c, mid, ds, hx, hrest, rfl⟩ := feedAll_cons h
      obtain ⟨ds', mid', es, ha, hb, rfl⟩ := ih.mp hrest
      refine ⟨c ++ ds', mid', es, ?_, hb, (List.append_assoc ..).symm⟩
      rw [feedAll, hx, Option.bind_eq_bind, Option.bind_some, ha, Option.bind_some]
    · rintro ⟨ds, mid, es, ha, hb, rfl⟩
      obtain ⟨c, mid', ds', hx, hrest, rfl⟩ := feedAll_cons ha
      rw [List.cons_append, feedAll, hx, Option.bind_eq_bind, Option.bind_some,
        ih.mpr ⟨ds', mid, es, hrest, hb, rfl⟩, Option.bind_some, List.append_assoc]

theorem takeTail_feed {bs : List UInt8} {value : ℕ} {n : ℤ} (hn : 0 ≤ n) {cs : List ℕ}
    {st' : PartialUtf8} (h : feedAll bs ⟨value, n⟩ = some (cs, st')) :
    ∃ rest v m ds, takeTail bs value n = (rest, v, m) ∧
      continueDecode bs value n = some (rest, v, m) ∧ 0 ≤ m ∧ (m = 0 ∨ rest = []) ∧
      rest.length ≤ bs.length ∧ feedAll rest ⟨v, m⟩ = some (ds, st') ∧
      cs = (if 0 < n ∧ m = 0 then [v] else []) ++ ds := by
  induction bs generalizing value n cs with
  | nil =>
    refine ⟨[], value, n, cs, rfl, rfl, hn, Or.inr rfl, le_rfl, h, ?_⟩
    rw [if_neg (fun h => by omega), List.nil_append]
  | cons b bs ih =>
    by_cases hpos : 0 < n
    · obtain ⟨c, mid, ds, hb, hbs, rfl⟩ := feedAll_cons h
      rw [feed, if_pos hpos] at hb
      split_ifs at hb with hcont hone
      · obtain ⟨rfl, rfl⟩ := Prod.mk.inj (Option.some.inj hb)
        have hone : n = 1 := hone
        subst hone
        refine ⟨bs, shift value b, 0, ds, ?_, ?_, le_rfl, Or.inl rfl, Nat.le_succ _, hbs, rfl⟩
        · cases bs <;> rfl
        · rw [continueDecode, if_pos hpos, if_pos hcont]
          cases bs <;> rfl
      · obtain ⟨rfl, rfl⟩ := Prod.mk.inj (Option.some.inj hb)
        have hone : n ≠ 1 := hone
        have hn1 : 0 ≤ n - 1 := by omega
        obtain ⟨rest, v, m, es, ht, hc, hm, hend, hlen, hfeed, rfl⟩ := ih hn1 hbs
        refine ⟨rest, v, m, es, ?_, ?_, hm, hend, hlen.trans (Nat.le_succ _), hfeed, ?_⟩
        · rw [takeTail, if_pos hpos, ht]
        · rw [continueDecode, if_pos hpos, if_pos hcont, hc]
        · have hn1 : 0 < n - 1 := by omega
          rw [List.nil_append]
          simp only [hpos, hn1, true_and]
    · obtain rfl : n = 0 := by omega
      refine ⟨b :: bs, value, 0, cs, rfl, rfl, le_rfl, Or.inl rfl, le_rfl, h, ?_⟩
      rw [if_neg (fun h => hpos h.1), List.nil_append]

theorem decodeLoop_feed {fuel : ℕ} {bs : List UInt8} {value : ℕ} {n : ℤ} {acc cs : List ℕ}
    {st' : PartialUtf8} (hn : n ≤ 0 ∨ bs = []) (hfuel : bs.length ≤ fuel)
    (h : feedAll bs ⟨value, n⟩ = some (cs, st')) :
    decodeLoop fuel bs value n acc = (acc ++ cs ++ [0], st') := by
  induction fuel generalizing bs value n acc cs with
  | zero =>
    obtain rfl := List.length_eq_zero_iff.mp (Nat.le_zero.mp hfuel)
    obtain ⟨rfl, rfl⟩ := Prod.mk.inj (Option.some.inj h)
    rw [decodeLoop, List.append_nil]
  | succ fuel ih =>
    cases bs with
    | nil =>
      obtain ⟨rfl, rfl⟩ := Prod.mk.inj (Option.some.inj h)
      rw [decodeLoop, List.append_nil]
    | cons b bs =>
      obtain ⟨c, mid, ds, hb, hbs, rfl⟩ := feedAll_cons h
      have hn : ¬ 0 < n := not_lt.mpr (hn.resolve_right (List.cons_ne_nil _ _))
      rw [feed, if_neg hn] at hb
      rw [decodeLoop]
      by_cases hlead : lookup b - 1 < 0
      · rw [if_pos hlead] at hb
        nomatch hb
      · rw [if_neg hlead] at hb ⊢
        obtain ⟨rfl, rfl⟩ := Prod.mk.inj (Option.some.inj hb)
        obtain ⟨rest, v, m, es, ht, -, -, hend, hlen, hfeed, rfl⟩ := takeTail_feed (by omega) hbs
        have hfuel' : rest.length ≤ fuel := by
          rw [List.length_cons] at hfuel
          omega
        simp only [ht]
        rw [ih (hend.imp (fun h => h.le) id) hfuel' hfeed]
        refine congrArg (fun l => (l ++ [0], st')) ?_
        by_cases hone : lookup b - 1 = 0
        · -- a single byte: there is no tail to take
          rw [hone] at ht ⊢
          have htail : takeTail bs (b.toNat % 2 ^ (7 - (0 : ℤ).toNat)) 0 =
              (bs, b.toNat % 2 ^ (7 - (0 : ℤ).toNat), 0) := by cases bs <;> rfl
          obtain ⟨rfl, hvm⟩ := Prod.mk.inj (ht.symm.trans htail)
          obtain ⟨rfl, rfl⟩ := Prod.mk.inj hvm
          simp
        · have hpos : 0 < lookup b - 1 := by omega
          rw [if_neg hone]
          simp only [hpos, true_and, List.nil_append]
          split_ifs
          · rw [List.append_assoc]
          · rw [List.nil_append]

/-- Decoding a piece of a valid text reads its bytes one after the other. -/
theorem decodeUtf8_feed {src : List UInt8} {st st' : PartialUtf8} {cs : List ℕ}
    (hzero : ∀ b ∈ src, b ≠ 0) (h : feedAll src st = some (cs, st')) :
    decodeUtf8 src st = (cs ++ [0], st') := by
  have hsrc : src.takeWhile (· ≠ 0) = src :=
    List.takeWhile_eq_self_iff.mpr fun b hb => by simpa using hzero b hb
  rw [decodeUtf8, hsrc]
  by_cases hn : 0 ≤ st.nRemain
  · obtain ⟨rest, v, m, ds, -, hc, -, hend, -, hfeed, rfl⟩ := takeTail_feed hn h
    simp only [hc]
    exact decodeLoop_feed (hend.imp (fun h => h.le) id) le_rfl hfeed
  · have hc : continueDecode src st.value st.nRemain = some (src, st.value, st.nRemain) := by
      cases src with
      | nil => rfl
      | cons b src => rw [continueDecode, if_neg (by omega)]
    simp only [hc]
    rw [if_neg (fun h => by omega), decodeLoop_feed (Or.inl (by omega)) le_rfl h, List.nil_append]

theorem feedAll_ne_nil {bs : List UInt8} {st st' : PartialUtf8} {cs : List ℕ} (hbs : bs ≠ [])
    (h : feedAll bs st = some (cs, st')) (hend : st'.nRemain = 0) : cs ≠ [] := by
  induction bs generalizing st cs with
  | nil => exact absurd rfl hbs
  | cons b bs ih =>
    obtain ⟨c, mid, ds, hb, hrest, rfl⟩ := feedAll_cons h
    by_cases hnil : bs = []
    · rw [hnil] at hrest
      obtain ⟨rfl, rfl⟩ := Prod.mk.inj (Option.some.inj hrest)
      rw [List.append_nil]
      rw [feed] at hb
      split_ifs at hb <;> obtain ⟨rfl, rfl⟩ := Prod.mk.inj (Option.some.inj hb) <;>
        simp_all
      omega
    · exact List.append_ne_nil_of_right_ne_nil _ (ih hnil hrest)

/-! ## Valid texts -/

/-- The bytes of a text. -/
def encode (text : List Char) : List UInt8 := text.flatMap String.utf8EncodeChar

theorem feed_lead {b : UInt8} {v m x : ℕ} {n k : ℤ} (hn : n ≤ 0) (hlook : lookup b - 1 = k)
    (hk : 0 ≤ k) (hm : 2 ^ (7 - k.toNat) = m) (hx : b.toNat % m = x) :
    feed ⟨v, n⟩ b = some (if k = 0 then [x] else [], ⟨x, k⟩) := by
  rw [feed, if_neg (not_lt.mpr hn), hlook, if_neg (not_lt.mpr hk), hm, hx]

theorem feed_tail {b : UInt8} {v x : ℕ} {n : ℤ} (hn : 0 < n) (hcont : b.toNat / 64 = 2)
    (hx : shift v b = x) :
    feed ⟨v, n⟩ b = some (if n = 1 then [x] else [], ⟨x, n - 1⟩) := by
  rw [feed, if_pos hn, if_pos hcont, hx]

theorem toNat_byte {u : ℕ} (h : u < 256) : (UInt8.ofNat u).toNat = u := by
  rw [UInt8.toNat_ofNat']
  omega

theorem feed_ofNat {v w : ℕ} {n : ℤ} (hn : 0 < n) :
    feed ⟨v, n⟩ (UInt8.ofNat (w % 64 + 128)) =
      some (if n = 1 then [(v * 64 + w % 64) % 2 ^ 32] else [],
        ⟨(v * 64 + w % 64) % 2 ^ 32, n - 1⟩) := by
  have hb := toNat_byte (u := w % 64 + 128) (by omega)
  refine feed_tail hn (by rw [hb]; omega) ?_
  rw [shift, hb]
  congr 1
  omega

theorem feedAll_one {u v : ℕ} {n : ℤ} (hn : n ≤ 0) (hu : u ≤ 0x7f) :
    feedAll [UInt8.ofNat u] ⟨v, n⟩ = some ([u], ⟨u, 0⟩) := by
  have hb := toNat_byte (u := u) (by omega)
  have hlook : lookup (UInt8.ofNat u) - 1 = 0 := by
    have hk : u / 16 < 8 := by omega
    rw [lookup, hb]
    interval_cases u / 16 <;> rfl
  rw [feedAll, feed_lead hn hlook le_rfl rfl (x := u)
    (by rw [hb]; exact Nat.mod_eq_of_lt (Nat.lt_succ_of_le hu))]
  rfl

theorem feed_two {u v : ℕ} {n : ℤ} (hn : n ≤ 0) (hu : u ≤ 0x7ff) :
    feed ⟨v, n⟩ (UInt8.ofNat (u / 64 % 0x20 + 0xc0)) = some ([], ⟨u / 64, 1⟩) := by
  have hb := toNat_byte (u := u / 64 % 0x20 + 0xc0) (by omega)
  have hlook : lookup (UInt8.ofNat (u / 64 % 0x20 + 0xc0)) - 1 = 1 := by
    have hk : (u / 64 % 0x20 + 0xc0) / 16 = 12 ∨ (u / 64 % 0x20 + 0xc0) / 16 = 13 := by omega
    rw [lookup, hb]
    rcases hk with hk | hk <;> rw [hk] <;> rfl
  exact feed_lead hn hlook (by decide) rfl (by rw [hb]; simp only [Int.reduceToNat]; omega)

theorem feed_three {u v : ℕ} {n : ℤ} (hn : n ≤ 0) (hu : u ≤ 0xffff) :
    feed ⟨v, n⟩ (UInt8.ofNat (u / 4096 % 0x10 + 0xe0)) = some ([], ⟨u / 4096, 2⟩) := by
  have hb := toNat_byte (u := u / 4096 % 0x10 + 0xe0) (by omega)
  have hlook : lookup (UInt8.ofNat (u / 4096 % 0x10 + 0xe0)) - 1 = 2 := by
    rw [lookup, hb, show (u / 4096 % 0x10 + 0xe0) / 16 = 14 by omega]
    rfl
  exact feed_lead hn hlook (by decide) rfl (by rw [hb]; simp only [Int.reduceToNat]; omega)

theorem feed_four {u v : ℕ} {n : ℤ} (hn : n ≤ 0) (hu : u < 0x110000) :
    feed ⟨v, n⟩ (UInt8.ofNat (u / 262144 % 0x08 + 0xf0)) = some ([], ⟨u / 262144, 3⟩) := by
  have hb := toNat_byte (u := u / 262144 % 0x08 + 0xf0) (by omega)
  have hlook : lookup (UInt8.ofNat (u / 262144 % 0x08 + 0xf0)) - 1 = 3 := by
    rw [lookup, hb, show (u / 262144 % 0x08 + 0xf0) / 16 = 15 by omega]
    rfl
  exact feed_lead hn hlook (by decide) rfl (by rw [hb]; simp only [Int.reduceToNat]; omega)

theorem feedAll_two {u v : ℕ} {n : ℤ} (hn : n ≤ 0) (hu : u ≤ 0x7ff) :
    feedAll [UInt8.ofNat (u / 64 % 0x20 + 0xc0), UInt8.ofNat (u % 0x40 + 0x80)] ⟨v, n⟩ =
      some ([u], ⟨u, 0⟩) := by
  rw [feedAll, feed_two hn hu]
  simp only [Option.bind_eq_bind, Option.bind_some, feedAll]
  rw [feed_ofNat (by decide)]
  have hval : (u / 64 * 64 + u % 64) % 2 ^ 32 = u := by omega
  simp only [hval]
  rfl

theorem feedAll_three {u v : ℕ} {n : ℤ} (hn : n ≤ 0) (hu : u ≤ 0xffff) :
    feedAll [UInt8.ofNat (u / 4096 % 0x10 + 0xe0), UInt8.ofNat (u / 64 % 0x40 + 0x80),
      UInt8.ofNat (u % 0x40 + 0x80)] ⟨v, n⟩ = some ([u], ⟨u, 0⟩) := by
  rw [feedAll, feed_three hn hu]
  simp only [Option.bind_eq_bind, Option.bind_some, feedAll]
  rw [feed_ofNat (by decide)]
  simp only [Option.bind_some]
  rw [feed_ofNat (by decide)]
  have hval : ((u / 4096 * 64 + u / 64 % 64) % 2 ^ 32 * 64 + u % 64) % 2 ^ 32 = u := by omega
  simp only [hval]
  rfl

theorem feedAll_four {u v : ℕ} {n : ℤ} (hn : n ≤ 0) (hu : u < 0x110000) :
    feedAll [UInt8.ofNat (u / 262144 % 0x08 + 0xf0), UInt8.ofNat (u / 4096 % 0x40 + 0x80),
      UInt8.ofNat (u / 64 % 0x40 + 0x80), UInt8.ofNat (u % 0x40 + 0x80)] ⟨v, n⟩ =
      some ([u], ⟨u, 0⟩) := by
  rw [feedAll, feed_four hn hu]
  simp only [Option.bind_eq_bind, Option.bind_some, feedAll]
  rw [feed_ofNat (by decide)]
  simp only [Option.bind_some]
  rw [feed_ofNat (by decide)]
  simp only [Option.bind_some]
  rw [feed_ofNat (by decide)]
  have hval : (((u / 262144 * 64 + u / 4096 % 64) % 2 ^ 32 * 64 + u / 64 % 64) % 2 ^ 32 * 64 +
      u % 64) % 2 ^ 32 = u := by omega
  simp only [hval]
  rfl

theorem feedAll_char (c : Char) {v : ℕ} {n : ℤ} (hn : n ≤ 0) :
    feedAll (String.utf8EncodeChar c) ⟨v, n⟩ = some ([c.toNat], ⟨c.toNat, 0⟩) := by
  have hmax : c.val.toNat < 0x110000 := by
    have := c.valid
    omega
  fun_cases String.utf8EncodeChar c with
  | case1 u h => exact feedAll_one hn h
  | case2 u h h' => exact feedAll_two hn h'
  | case3 u h h' h'' => exact feedAll_three hn h''
  | case4 u h h' h'' => exact feedAll_four hn hmax

theorem feedAll_encode (text : List Char) {st : PartialUtf8} (hn : st.nRemain ≤ 0) :
    ∃ st', feedAll (encode text) st = some (text.map Char.toNat, st') ∧
      (text ≠ [] → st'.nRemain = 0) ∧ (text = [] → st' = st) := by
  induction text generalizing st with
  | nil => exact ⟨st, rfl, fun h => absurd rfl h, fun _ => rfl⟩
  | cons c text ih =>
    obtain ⟨st', hfeed, hlast, hnil⟩ := ih (le_refl (PartialUtf8.mk c.toNat 0).nRemain)
    refine ⟨st', feedAll_append.2 ⟨_, _, _, feedAll_char c hn, hfeed, rfl⟩, fun _ => ?_,
      fun h => absurd h (List.cons_ne_nil _ _)⟩
    by_cases htext : text = []
    · rw [hnil htext]
    · exact hlast htext

theorem encode_eq_nil {text : List Char} (h : encode text = []) : text = [] := by
  obtain ⟨st', hfeed, -, -⟩ := feedAll_encode text (le_refl (PartialUtf8.mk 0 0).nRemain)
  rw [h] at hfeed
  exact List.map_eq_nil_iff.mp (Prod.mk.inj (Option.some.inj hfeed)).1.symm

theorem byte_ne_zero {u : ℕ} (h : u < 256) (hu : u ≠ 0) : UInt8.ofNat u ≠ 0 := by
  intro hzero
  have hb := toNat_byte h
  rw [hzero] at hb
  exact hu hb.symm

theorem char_ne_zero {c : Char} (h : c.toNat ≠ 0) : ∀ b ∈ String.utf8EncodeChar c, b ≠ 0 := by
  have hmax : c.val.toNat < 0x110000 := by
    have := c.valid
    omega
  fun_cases String.utf8EncodeChar c with
  | case1 u hu =>
    intro b hb
    obtain rfl := List.mem_singleton.mp hb
    exact byte_ne_zero (by omega) h
  | case2 u | case3 u | case4 u =>
    intro b hb
    simp only [List.mem_cons, List.not_mem_nil, or_false] at hb
    rcases hb with rfl | rfl | rfl | rfl <;> exact byte_ne_zero (by omega) (by omega)

theorem encode_ne_zero {text : List Char} (h : ∀ c ∈ text, c.toNat ≠ 0) :
    ∀ b ∈ encode text, b ≠ 0 := by
  intro b hb
  obtain ⟨c, hc, hb⟩ := List.mem_flatMap.mp hb
  exact char_ne_zero (h c hc) b hb

/-! ## Pieces of a text -/

variable {st st' : PartialUtf8} {piece : List UInt8}

/-- A piece of valid text that ends between characters: whole characters, or the rest of the
character that is carried over and whole characters. -/
def TextPiece (st : PartialUtf8) (piece : List UInt8) : Prop :=
  piece ≠ [] ∧ ∃ (chars : List Char) (before : List UInt8), encode chars = before ++ piece ∧
    (before = [] ∨ feedAll before ⟨0, 0⟩ = some ([], st))

/-- Nothing is decoded: the piece begins with a NUL, or a character carried over does not go on. -/
def Spoils (st : PartialUtf8) (piece : List UInt8) : Prop :=
  piece.headD 0 = 0 ∨ (0 < st.nRemain ∧ (piece.headD 0).toNat / 64 ≠ 2)

instance : Decidable (Spoils st piece) := inferInstanceAs (Decidable (_ ∨ _))

theorem decodeUtf8_takeWhile : decodeUtf8 (piece.takeWhile (· ≠ 0)) st = decodeUtf8 piece st := by
  rw [decodeUtf8, decodeUtf8, List.takeWhile_idem]

theorem encode_takeWhile (chars : List Char) :
    (encode chars).takeWhile (· ≠ 0) = encode (chars.takeWhile fun c => c.toNat ≠ 0) := by
  induction chars with
  | nil => rfl
  | cons c chars ih =>
    by_cases hc : c.toNat = 0
    · obtain rfl : c = Char.ofNat 0 := by
        rw [← hc, Char.ofNat_toNat]
      rfl
    · rw [List.takeWhile_cons_of_pos (by simpa using hc), encode, List.flatMap_cons,
        List.takeWhile_append_of_pos (by simpa using char_ne_zero hc), encode, List.flatMap_cons]
      exact congrArg _ ih

theorem feed_ne_zero {b : UInt8} (h : feed st b = some ([], st')) : b ≠ 0 := by
  rintro rfl
  rw [feed, show lookup 0 = 1 from rfl] at h
  split_ifs at h <;> simp_all

theorem feedAll_nil_ne_zero {bs : List UInt8} (h : feedAll bs st = some ([], st')) :
    ∀ b ∈ bs, b ≠ 0 := by
  induction bs generalizing st with
  | nil => exact fun _ hb => nomatch hb
  | cons b bs ih =>
    obtain ⟨c, mid, ds, hb, hrest, hnil⟩ := feedAll_cons h
    obtain ⟨rfl, rfl⟩ := List.append_eq_nil_iff.mp hnil.symm
    exact List.forall_mem_cons.mpr ⟨feed_ne_zero hb, ih hrest⟩

theorem feed_not_continuation {b : UInt8} {r : List ℕ × PartialUtf8} (hn : st.nRemain ≤ 0)
    (h : feed st b = some r) : b.toNat / 64 ≠ 2 := by
  intro hcont
  have hlook : lookup b = 0 := by
    have hk : b.toNat / 16 = 8 ∨ b.toNat / 16 = 9 ∨ b.toNat / 16 = 10 ∨ b.toNat / 16 = 11 := by
      omega
    rw [lookup]
    rcases hk with hk | hk | hk | hk <;> rw [hk] <;> rfl
  rw [feed, if_neg (not_lt.mpr hn), hlook, if_pos (by decide)] at h
  nomatch h

theorem text_feed (h : TextPiece st piece) (hspoils : ¬ Spoils st piece) :
    ∃ chars st', chars ≠ [] ∧ (∀ c ∈ chars, c.toNat ≠ 0) ∧ st'.nRemain = 0 ∧
      feedAll (piece.takeWhile (· ≠ 0)) st = some (chars.map Char.toNat, st') := by
  obtain ⟨hne, chars, before, htext, hbefore⟩ := h
  obtain ⟨b, bs, rfl⟩ := List.exists_cons_of_ne_nil hne
  obtain ⟨hb, hpending⟩ := not_or.mp hspoils
  rw [List.headD_cons] at hb hpending
  have hsrc : ((b :: bs).takeWhile (· ≠ 0)) ≠ [] := by
    rw [List.takeWhile_cons_of_pos (by simpa using hb)]
    exact List.cons_ne_nil _ _
  have hcut := encode_takeWhile chars
  rw [htext] at hcut
  have hnul : ∀ c ∈ chars.takeWhile fun c => c.toNat ≠ 0, c.toNat ≠ 0 := fun c hc => by
    simpa using List.mem_takeWhile_imp hc
  by_cases hnil : before = []
  · subst hnil
    rw [List.nil_append] at hcut htext
    have hn : st.nRemain ≤ 0 := by
      by_contra hno
      obtain ⟨st'', hfeed, -, -⟩ := feedAll_encode chars (le_refl (PartialUtf8.mk 0 0).nRemain)
      rw [htext] at hfeed
      obtain ⟨c, mid, ds, hfirst, -⟩ := feedAll_cons hfeed
      exact hpending ⟨not_le.mp hno, feed_not_continuation le_rfl hfirst⟩
    obtain ⟨st', hfeed, hend, -⟩ := feedAll_encode (chars.takeWhile fun c => c.toNat ≠ 0) hn
    have hchars : (chars.takeWhile fun c => c.toNat ≠ 0) ≠ [] := fun hno => by
      rw [hno] at hcut
      exact hsrc hcut
    exact ⟨_, st', hchars, hnul, hend hchars, hcut ▸ hfeed⟩
  · have hstart := hbefore.resolve_left hnil
    rw [List.takeWhile_append_of_pos (by simpa using feedAll_nil_ne_zero hstart)] at hcut
    obtain ⟨st', hfeed, hend, -⟩ := feedAll_encode (chars.takeWhile fun c => c.toNat ≠ 0)
      (le_refl (PartialUtf8.mk 0 0).nRemain)
    have hchars : (chars.takeWhile fun c => c.toNat ≠ 0) ≠ [] := fun hno => by
      rw [hno] at hcut
      exact hnil (List.append_eq_nil_iff.mp hcut).1
    rw [← hcut] at hfeed
    obtain ⟨ds, mid, es, hds, hes, hsplit⟩ := feedAll_append.1 hfeed
    obtain ⟨rfl, rfl⟩ := Prod.mk.inj (Option.some.inj (hstart.symm.trans hds))
    rw [List.nil_append] at hsplit
    exact ⟨_, st', hchars, hnul, hend hchars, hsplit ▸ hes⟩

theorem text_decode (h : TextPiece st piece) (hspoils : ¬ Spoils st piece) :
    ∃ chrs st', decodeUtf8 piece st = (chrs ++ [0], st') ∧ chrs ≠ [] ∧ (∀ c ∈ chrs, c ≠ 0) ∧
      st'.nRemain = 0 := by
  obtain ⟨chars, st', hne, hnul, hend, hfeed⟩ := text_feed h hspoils
  refine ⟨_, st', ?_, List.map_eq_nil_iff.not.mpr hne, by simpa using hnul, hend⟩
  rw [← decodeUtf8_takeWhile, decodeUtf8_feed (fun b hb => ?_) hfeed]
  simpa using List.mem_takeWhile_imp hb

theorem spoils_decode (h : Spoils st piece) : ∃ st', decodeUtf8 piece st = ([0], st') ∧
    (piece.headD 0 ≠ 0 → st'.nRemain = -1) := by
  by_cases hzero : piece.headD 0 = 0
  · have hsrc : piece.takeWhile (· ≠ 0) = [] := by
      cases piece with
      | nil => rfl
      | cons b bs => exact List.takeWhile_cons_of_neg (by simpa using hzero)
    refine ⟨st, ?_, fun hno => absurd hzero hno⟩
    rw [decodeUtf8, hsrc]
    simp only [continueDecode, List.length_nil, decodeLoop]
    rw [if_neg fun hn => by omega]
    rfl
  · obtain ⟨hn, hbreak⟩ := h.resolve_left hzero
    cases piece with
    | nil => exact absurd rfl hzero
    | cons b bs =>
      refine ⟨⟨0, -1⟩, ?_, fun _ => rfl⟩
      rw [List.headD_cons] at hzero hbreak
      rw [decodeUtf8, List.takeWhile_cons_of_pos (by simpa using hzero), continueDecode,
        if_pos hn, if_neg hbreak]

end PartialUtf8
end RocmFpx
