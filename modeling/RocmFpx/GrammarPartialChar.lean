import RocmFpx.GrammarFilter

/-!
The character that a piece leaves unfinished. `llama_grammar_match_partial_char` compares the
alternatives of a class with the range of code points that the first bytes can still become. Against
an inverted class that is too strict: an alternative that meets the range need not fill it.
-/

namespace RocmFpx

namespace PartialUtf8

/-! ## The characters that a partial one can become -/

/-- The decoder is in the middle of the character `c`. -/
def Completes (st : PartialUtf8) (c : Char) : Prop :=
  ∃ before after, String.utf8EncodeChar c = before ++ after ∧ before ≠ [] ∧ after ≠ [] ∧
    decodeUtf8 before ⟨0, 0⟩ = ([0], st)

/-- The first code point that takes more than `n` bytes. -/
def firstBeyond (n : ℕ) : ℕ := if n = 1 then 0x80 else if n = 2 then 0x800 else 0x10000

theorem feedAll_part {c : Char} {before after : List UInt8}
    (h : String.utf8EncodeChar c = before ++ after) (hbefore : before ≠ []) (hafter : after ≠ []) :
    ∃ n : ℕ, after.length = n ∧ n ≤ 3 ∧ firstBeyond n ≤ c.toNat ∧
      feedAll before ⟨0, 0⟩ = some ([], ⟨c.toNat / 64 ^ n, n⟩) := by
  have hmax : c.val.toNat < 0x110000 := by
    have := c.valid
    omega
  obtain ⟨b, before, rfl⟩ := List.exists_cons_of_ne_nil hbefore
  obtain ⟨a, after, rfl⟩ := List.exists_cons_of_ne_nil hafter
  revert h
  fun_cases String.utf8EncodeChar c with
  | case1 u hu =>
    intro h
    simp at h
  | case2 u hlo hu =>
    intro h
    rcases before with _ | ⟨b₁, before⟩ <;>
      simp only [List.cons_append, List.nil_append, List.cons.injEq, List.nil_eq,
        List.append_eq_nil_iff, reduceCtorEq, and_false] at h
    obtain ⟨rfl, rfl, rfl⟩ := h
    refine ⟨1, rfl, by decide, not_le.mp hlo, ?_⟩
    rw [feedAll, feed_two le_rfl hu]
    rfl
  | case3 u _ hlo hu =>
    intro h
    rcases before with _ | ⟨b₁, _ | ⟨b₂, before⟩⟩ <;>
      simp only [List.cons_append, List.nil_append, List.cons.injEq, List.nil_eq,
        List.append_eq_nil_iff, reduceCtorEq, and_false] at h
    · obtain ⟨rfl, -, rfl⟩ := h
      refine ⟨2, rfl, by decide, not_le.mp hlo, ?_⟩
      rw [feedAll, feed_three le_rfl hu]
      rfl
    · obtain ⟨rfl, rfl, -, rfl⟩ := h
      refine ⟨1, rfl, by decide, (by decide : 0x80 ≤ 0x800).trans (not_le.mp hlo), ?_⟩
      have hval : (u / 4096 * 64 + u / 64 % 64) % 2 ^ 32 = u / 64 := by omega
      rw [feedAll, feed_three le_rfl hu, Option.bind_eq_bind, Option.bind_some, feedAll,
        feed_ofNat (by decide), hval]
      rfl
  | case4 u _ _ hlo =>
    intro h
    have hbig : 0x10000 ≤ c.toNat := not_le.mp hlo
    rcases before with _ | ⟨b₁, _ | ⟨b₂, _ | ⟨b₃, before⟩⟩⟩ <;>
      simp only [List.cons_append, List.nil_append, List.cons.injEq, List.nil_eq,
        List.append_eq_nil_iff, reduceCtorEq, and_false] at h
    · obtain ⟨rfl, -, rfl⟩ := h
      refine ⟨3, rfl, le_rfl, hbig, ?_⟩
      rw [feedAll, feed_four le_rfl hmax]
      rfl
    · obtain ⟨rfl, rfl, -, rfl⟩ := h
      refine ⟨2, rfl, by decide, (by decide : 0x800 ≤ 0x10000).trans hbig, ?_⟩
      have hval : (u / 262144 * 64 + u / 4096 % 64) % 2 ^ 32 = u / 4096 := by omega
      rw [feedAll, feed_four le_rfl hmax, Option.bind_eq_bind, Option.bind_some, feedAll,
        feed_ofNat (by decide), hval]
      rfl
    · obtain ⟨rfl, rfl, rfl, -, rfl⟩ := h
      refine ⟨1, rfl, by decide, (by decide : 0x80 ≤ 0x10000).trans hbig, ?_⟩
      have hval₂ : (u / 262144 * 64 + u / 4096 % 64) % 2 ^ 32 = u / 4096 := by omega
      have hval₁ : (u / 4096 * 64 + u / 64 % 64) % 2 ^ 32 = u / 64 := by omega
      rw [feedAll, feed_four le_rfl hmax, Option.bind_eq_bind, Option.bind_some, feedAll,
        feed_ofNat (by decide), hval₂, Option.bind_eq_bind, Option.bind_some, feedAll,
        feed_ofNat (by decide), hval₁]
      rfl

theorem lt_length_encodeChar {c : Char} {n : ℕ} (hn : n ≤ 3) (h : firstBeyond n ≤ c.toNat) :
    n < (String.utf8EncodeChar c).length := by
  have hval : c.toNat = c.val.toNat := rfl
  rw [firstBeyond] at h
  fun_cases String.utf8EncodeChar c with
  | case1 u hu => split_ifs at h <;> omega
  | case2 u _ hu =>
    rw [List.length_cons, List.length_singleton]
    split_ifs at h <;> omega
  | case3 u _ _ hu =>
    rw [List.length_cons, List.length_cons, List.length_singleton]
    split_ifs at h <;> omega
  | case4 u => exact Nat.lt_succ_of_le hn

/-- The decoder is in the middle of `c` when it has the upper bits of `c` and as many bytes remain
as `c` has beyond them. -/
theorem completes_iff {st : PartialUtf8} {c : Char} :
    Completes st c ↔
      ∃ n : ℕ, 1 ≤ n ∧ n ≤ 3 ∧ firstBeyond n ≤ c.toNat ∧ st = ⟨c.toNat / 64 ^ n, n⟩ := by
  constructor
  · rintro ⟨before, after, hsplit, hbefore, hafter, hrun⟩
    obtain ⟨n, hlen, hn, hfirst, hfeed⟩ := feedAll_part hsplit hbefore hafter
    have hpos : 1 ≤ n := hlen ▸ List.length_pos_iff.mpr hafter
    refine ⟨n, hpos, hn, hfirst, ?_⟩
    have hc : c.toNat ≠ 0 := by
      rw [firstBeyond] at hfirst
      split_ifs at hfirst <;> omega
    have hzero : ∀ b ∈ before, b ≠ 0 := fun b hb =>
      char_ne_zero hc b (by rw [hsplit]; exact List.mem_append_left _ hb)
    rw [decodeUtf8_feed hzero hfeed] at hrun
    exact (Prod.mk.inj hrun).2.symm
  · rintro ⟨n, hpos, hn, hfirst, rfl⟩
    have hlong := lt_length_encodeChar hn hfirst
    have hsplit := (List.take_append_drop ((String.utf8EncodeChar c).length - n)
      (String.utf8EncodeChar c)).symm
    have hbefore : (String.utf8EncodeChar c).take ((String.utf8EncodeChar c).length - n) ≠ [] := by
      rw [← List.length_pos_iff, List.length_take]
      omega
    have hafter : (String.utf8EncodeChar c).drop ((String.utf8EncodeChar c).length - n) ≠ [] := by
      rw [← List.length_pos_iff, List.length_drop]
      omega
    obtain ⟨m, hlen, -, -, hfeed⟩ := feedAll_part hsplit hbefore hafter
    obtain rfl : m = n := by
      rw [List.length_drop] at hlen
      omega
    refine ⟨_, _, hsplit, hbefore, hafter, ?_⟩
    have hc : c.toNat ≠ 0 := by
      rw [firstBeyond] at hfirst
      split_ifs at hfirst <;> omega
    exact decodeUtf8_feed (fun b hb => char_ne_zero hc b (List.mem_of_mem_take hb)) hfeed

theorem partialRange_eq {v n : ℕ} (hlt : v * 64 ^ n < 2 ^ 32) :
    GrammarRules.partialRange ⟨v, n⟩ =
      (if v = 0 then (if n = 2 then 0x800 else if n = 3 then 0x10000 else 0) else v * 64 ^ n,
        v * 64 ^ n + (64 ^ n - 1)) := by
  have hpow : 2 ^ ((n : ℤ).toNat * 6) = 64 ^ n := by
    rw [Int.toNat_natCast, mul_comm, pow_mul]
    rfl
  have hor : v * 64 ^ n ||| (64 ^ n - 1) = v * 64 ^ n + (64 ^ n - 1) := by
    have hpos : 0 < 64 ^ n := Nat.pow_pos (by decide)
    have heq : 64 ^ n = 2 ^ (6 * n) := by rw [pow_mul]; rfl
    rw [heq] at hpos ⊢
    rw [mul_comm v, Nat.two_pow_add_eq_or_of_lt (by omega)]
  have hzero : v * 64 ^ n = 0 ↔ v = 0 := by
    rw [Nat.mul_eq_zero]
    exact or_iff_left (Nat.pow_pos (by decide)).ne'
  have h2 : (n : ℤ) = 2 ↔ n = 2 := by omega
  have h3 : (n : ℤ) = 3 ↔ n = 3 := by omega
  rw [GrammarRules.partialRange]
  simp only [hpow, Nat.mod_eq_of_lt hlt, hor, hzero, h2, h3]
  split_ifs with h0 <;> simp_all

theorem completes_iff_range {st : PartialUtf8} (h : ∃ c, Completes st c) (c : Char) :
    Completes st c ↔
      (GrammarRules.partialRange st).1 ≤ c.toNat ∧ c.toNat ≤ (GrammarRules.partialRange st).2 := by
  obtain ⟨c₀, hc₀⟩ := h
  obtain ⟨n, h1, h3, hfirst, rfl⟩ := completes_iff.1 hc₀
  have hmax : c₀.toNat < 0x110000 := by
    have := c₀.valid
    have : c₀.toNat = c₀.val.toNat := rfl
    omega
  have hiff : Completes ⟨c₀.toNat / 64 ^ n, n⟩ c ↔
      firstBeyond n ≤ c.toNat ∧ c.toNat / 64 ^ n = c₀.toNat / 64 ^ n := by
    rw [completes_iff]
    constructor
    · rintro ⟨m, -, -, hm, heq⟩
      obtain ⟨hval, hn⟩ := PartialUtf8.mk.inj heq
      obtain rfl : n = m := by exact_mod_cast hn
      exact ⟨hm, hval.symm⟩
    · rintro ⟨hm, heq⟩
      exact ⟨n, h1, h3, hm, by rw [heq]⟩
  have hlt : c₀.toNat / 64 ^ n * 64 ^ n < 2 ^ 32 := by
    have := Nat.div_mul_le_self c₀.toNat (64 ^ n)
    omega
  rw [hiff, partialRange_eq hlt]
  rw [firstBeyond] at hfirst ⊢
  interval_cases n
  · simp only [Nat.reducePow, if_true] at *
    split_ifs <;> omega
  · simp only [Nat.reducePow, Nat.reduceEqDiff, if_true, if_false] at *
    split_ifs <;> omega
  · simp only [Nat.reducePow, Nat.reduceEqDiff, if_true, if_false] at *
    split_ifs <;> omega

end PartialUtf8

namespace GrammarRules

open GrammarElement PartialUtf8

/-! ## The alternatives of a class -/

/-- The alternatives that both loops go through, each with the element behind it. -/
def classItems (rules : GrammarRules) : ℕ → ElementPtr → List (GrammarElement × GrammarElement)
  | 0, _ => []
  | fuel + 1, pos =>
    let next := elem rules (pos.add 1)
    (elem rules pos, next) ::
      if (elem rules (pos.add (rangeSize next))).type = .charAlt then
        classItems rules fuel (pos.add (rangeSize next))
      else []

/-- The test that an alternative has a character between `low` and `high`. -/
def meetsRange (low high : ℕ) (item : GrammarElement × GrammarElement) : Bool :=
  if item.2.type = .charRngUpper then item.1.value ≤ high && low ≤ item.2.value
  else item.1.type = .charAny || (low ≤ item.1.value && item.1.value ≤ high)

variable {rules : GrammarRules} {pos : ElementPtr} {st : PartialUtf8}

theorem meetsRange_of_inRange {low high chr : ℕ} {item : GrammarElement × GrammarElement}
    (hlow : low ≤ chr) (hhigh : chr ≤ high) (h : inRange chr item.1 item.2 = true) :
    meetsRange low high item = true := by
  rw [inRange] at h
  rw [meetsRange]
  split_ifs at h ⊢
  · simp only [Bool.and_eq_true, decide_eq_true_eq] at h ⊢
    omega
  · simp only [Bool.or_eq_true, Bool.and_eq_true, decide_eq_true_eq] at h ⊢
    exact h.imp_right fun heq => by omega

theorem matchLoop_items (chr fuel : ℕ) (pos : ElementPtr) (found : Bool) :
    (matchLoop rules chr fuel pos found).1 =
      (found || (classItems rules fuel pos).any fun item => inRange chr item.1 item.2) := by
  induction fuel generalizing pos found with
  | zero => simp [matchLoop, classItems]
  | succ fuel ih =>
    rw [matchLoop, classItems]
    split_ifs with halt
    · rw [ih, List.any_cons, Bool.or_assoc]
    · simp

theorem partialLoop_items {low high : ℕ} {isPositiveChar : Bool} {fuel : ℕ} {pos : ElementPtr}
    (hany : (elem rules pos).type = .charAny → isPositiveChar = true) :
    partialLoop rules low high isPositiveChar fuel pos =
      ((classItems rules fuel pos).any (meetsRange low high) == isPositiveChar) := by
  induction fuel generalizing pos with
  | zero => cases isPositiveChar <;> rfl
  | succ fuel ih =>
    rw [partialLoop, classItems, List.any_cons]
    have hnext : (elem rules (pos.add (rangeSize (elem rules (pos.add 1))))).type = .charAlt →
        partialLoop rules low high isPositiveChar fuel
            (pos.add (rangeSize (elem rules (pos.add 1)))) =
          ((classItems rules fuel (pos.add (rangeSize (elem rules (pos.add 1))))).any
            (meetsRange low high) == isPositiveChar) :=
      fun halt => ih fun h => absurd (halt.symm.trans h) (by decide)
    by_cases hfirst : (elem rules (pos.add 1)).type ≠ .charRngUpper ∧
        (elem rules pos).type = .charAny
    · rw [if_pos hfirst, hany hfirst.2]
      simp [meetsRange, hfirst.1, hfirst.2]
    rw [if_neg hfirst]
    have hmeets : meetsRange low high (elem rules pos, elem rules (pos.add 1)) =
        decide ((elem rules pos).value ≤ high ∧
          low ≤ (if (elem rules (pos.add 1)).type = .charRngUpper
            then (elem rules (pos.add 1)).value else (elem rules pos).value)) := by
      rw [meetsRange]
      split_ifs with hupper
      · simp [Bool.decide_and]
      · have hno : (elem rules pos).type ≠ .charAny := fun h => hfirst ⟨hupper, h⟩
        simp [hno, Bool.decide_and, and_comm]
    rw [hmeets]
    by_cases hmeet : (elem rules pos).value ≤ high ∧
        low ≤ (if (elem rules (pos.add 1)).type = .charRngUpper
          then (elem rules (pos.add 1)).value else (elem rules pos).value)
    · rw [if_pos hmeet, decide_eq_true hmeet]
      cases isPositiveChar <;> rfl
    · rw [if_neg hmeet, decide_eq_false hmeet, Bool.false_or]
      split_ifs with halt
      · exact hnext halt
      · cases isPositiveChar <;> rfl

/-- A character is in one of the alternatives of the class. -/
def InAlternatives (rules : GrammarRules) (pos : ElementPtr) (c : Char) : Prop :=
  ∃ item ∈ classItems rules (behind rules pos).length pos, inRange c.toNat item.1 item.2 = true

/-- An alternative of the class meets the range of the partial character. -/
def MeetsPartial (rules : GrammarRules) (pos : ElementPtr) (st : PartialUtf8) : Prop :=
  ∃ item ∈ classItems rules (behind rules pos).length pos,
    meetsRange (partialRange st).1 (partialRange st).2 item = true

theorem charMatches_items (h : (elem rules pos).isChar = true) (c : Char) :
    charMatches rules pos c.toNat = true ↔
      (InAlternatives rules pos c ↔ (elem rules pos).type ≠ .charNot) := by
  rw [charMatches, matchChar, if_pos h, Option.any_some, matchLoop_items, Bool.false_or, beq_iff_eq,
    Bool.eq_iff_iff, List.any_eq_true, decide_eq_true_iff]
  rfl

theorem matchPartialChar_items (hst : ∃ c, Completes st c) :
    matchPartialChar rules pos st = true ↔
      (MeetsPartial rules pos st ↔ (elem rules pos).type ≠ .charNot) := by
  have hwhole : ¬(st.nRemain < 0 ∨ (st.nRemain = 1 ∧ st.value < 2)) := by
    obtain ⟨c, hc⟩ := hst
    obtain ⟨n, h1, -, hfirst, rfl⟩ := completes_iff.1 hc
    rintro (hneg | ⟨hone, hsmall⟩)
    · simp only at hneg
      omega
    · change (n : ℤ) = 1 at hone
      obtain rfl : n = 1 := by exact_mod_cast hone
      simp only [firstBeyond, if_true] at hfirst hsmall
      omega
  rw [matchPartialChar, if_neg hwhole, partialLoop_items, beq_iff_eq, Bool.eq_iff_iff,
    List.any_eq_true, decide_eq_true_iff]
  · rfl
  · intro hany
    rw [decide_eq_true_iff, hany]
    decide

/-! ## When the test is exact -/

/-- No alternative meets the range, or what the class then says of the range is right: of an
inverted class, that all completions are in its alternatives; of another, that one of them is. -/
def PartialExact (rules : GrammarRules) (pos : ElementPtr) (st : PartialUtf8) : Prop :=
  MeetsPartial rules pos st →
    if (elem rules pos).type = .charNot then ∀ c, Completes st c → InAlternatives rules pos c
    else ∃ c, Completes st c ∧ InAlternatives rules pos c

theorem MeetsPartial.of_inAlternatives (hst : ∃ c, Completes st c) {c : Char}
    (hc : Completes st c) (h : InAlternatives rules pos c) : MeetsPartial rules pos st := by
  obtain ⟨item, hitem, hin⟩ := h
  have hrange := (completes_iff_range hst c).mp hc
  exact ⟨item, hitem, meetsRange_of_inRange hrange.1 hrange.2 hin⟩

/-- `llama_grammar_match_partial_char` tells whether some completion matches exactly when the
alternatives that meet the range decide it. -/
theorem matchPartialChar_exact_iff (h : (elem rules pos).isChar = true)
    (hst : ∃ c, Completes st c) :
    (matchPartialChar rules pos st = true ↔
      ∃ c, Completes st c ∧ charMatches rules pos c.toNat = true) ↔ PartialExact rules pos st := by
  simp only [matchPartialChar_items hst, charMatches_items h, PartialExact]
  by_cases hnot : (elem rules pos).type = .charNot
  · simp only [hnot, ne_eq, not_true_eq_false, iff_false, if_true]
    constructor
    · intro hexact hmeets c hc
      by_contra hout
      exact hexact.mpr ⟨c, hc, hout⟩ hmeets
    · intro hfill
      constructor
      · intro hmiss
        obtain ⟨c, hc⟩ := hst
        exact ⟨c, hc, fun hin => hmiss (.of_inAlternatives ⟨c, hc⟩ hc hin)⟩
      · rintro ⟨c, hc, hout⟩ hmeets
        exact hout (hfill hmeets c hc)
  · simp only [hnot, ne_eq, not_false_eq_true, iff_true, if_false]
    constructor
    · exact fun hexact hmeets => hexact.mp hmeets
    · rintro hhit
      exact ⟨hhit, fun ⟨c, hc, hin⟩ => .of_inAlternatives hst hc hin⟩

/-! ## An inverted class of one character -/

/-- `[^é]` -/
def notAccent : GrammarRules := [[⟨.charNot, 0xE9⟩, ⟨.endRule, 0⟩]]

theorem completes_accent : Completes ⟨3, 1⟩ 'è' := completes_iff.2 ⟨1, by decide⟩

/-- The first byte of `è` is turned away, which is the first byte of `é` too. -/
theorem notAccent_rejects : ¬ ∀ (rules : GrammarRules) (pos : ElementPtr) (st : PartialUtf8),
    (elem rules pos).isChar = true → (∃ c, Completes st c) →
      (matchPartialChar rules pos st = true ↔
        ∃ c, Completes st c ∧ charMatches rules pos c.toNat = true) := by
  intro hexact
  have h := hexact notAccent ⟨0, 0⟩ ⟨3, 1⟩ (by decide) ⟨'è', completes_accent⟩
  exact absurd (h.mpr ⟨'è', completes_accent, by decide⟩) (by decide)

/-- The byte before it begins other characters only. -/
theorem matchPartialChar_exact_accent :
    (matchPartialChar notAccent ⟨0, 0⟩ ⟨2, 1⟩ = true ↔
      ∃ c, Completes ⟨2, 1⟩ c ∧ charMatches notAccent ⟨0, 0⟩ c.toNat = true) ↔
      PartialExact notAccent ⟨0, 0⟩ ⟨2, 1⟩ :=
  matchPartialChar_exact_iff (by decide) ⟨'\u00A1', completes_iff.2 ⟨1, by decide⟩⟩

end GrammarRules
end RocmFpx
