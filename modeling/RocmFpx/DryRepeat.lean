import Mathlib.Logic.Function.Basic
import Mathlib.Order.Bounds.Basic
import RocmFpx.RingBuffer
import RocmFpx.ZFunction

/-!
The repetition lengths of the DRY sampler (`llama_sampler_dry_apply`, steps 2 and 3): the Z-function
of the last tokens read backwards, cut off at the limit that restart sequences set, and for each token
the longest repetition that it would go on with.
-/

namespace RocmFpx
namespace DryRepeat

open ZFunction

section

variable {T : Type} [DecidableEq T] (lastTokens : RingBuffer T) (lastNRepeat repLimit : ℕ)

/-- `dry_repeat_count` and the bounds of the box. -/
structure ZState where
  repeatCount : List ℕ
  lt : ℕ := 0
  rt : ℕ := 0

/-- The loop to the right of the box, on the index itself. -/
def extend (k : ℕ) : ℕ → ℕ → ℕ
  | 0, i => i
  | fuel + 1, i =>
    if i < lastNRepeat ∧ lastTokens.rat i = lastTokens.rat (i - k) then extend k fuel (i + 1) else i

/-- The body of the loop of step 2. -/
def zStep (s : ZState) (k : ℕ) : ZState :=
  let last := lastNRepeat - 1
  if s.rt < k then
    let n := scan lastTokens.rat lastNRepeat k lastNRepeat 0
    let repeatCount := s.repeatCount.set (last - k) (min n repLimit)
    if 0 < n then { repeatCount, lt := k, rt := k + n - 1 } else { s with repeatCount }
  else
    let p := k - s.lt
    let rightPartLen := s.rt - k + 1
    let count := s.repeatCount.getD (last - p) 0
    if count < rightPartLen then
      { s with repeatCount := s.repeatCount.set (last - k) (min count repLimit) }
    else
      let i := extend lastTokens lastNRepeat k lastNRepeat (s.rt + 1)
      { repeatCount := s.repeatCount.set (last - k) (min (i - k) repLimit), lt := k, rt := i - 1 }

/-- `dry_repeat_count` after step 2. -/
def repeatCount : List ℕ :=
  ((List.range' 1 (lastNRepeat - 1)).foldl (zStep lastTokens lastNRepeat repLimit)
    { repeatCount := List.replicate lastNRepeat 0 }).repeatCount

/-- The body of the loop of step 3, on `dry_max_token_repeat`. -/
def trackToken (dryAllowedLength : ℤ) (counts : List ℕ) (m : T → Option ℕ) (i : ℕ) : T → Option ℕ :=
  let repeatLen := counts.getD i 0
  if dryAllowedLength ≤ repeatLen then
    match lastTokens.rat (lastNRepeat - 2 - i) with
    | none => m
    | some token =>
      match m token with
      | none => Function.update m token (some repeatLen)
      | some old => if old < repeatLen then Function.update m token (some repeatLen) else m
  else m

/-- `dry_max_token_repeat` after step 3. -/
def maxTokenRepeat (dryAllowedLength : ℤ) : T → Option ℕ :=
  (List.range (lastNRepeat - 1)).foldl
    (trackToken lastTokens lastNRepeat dryAllowedLength (repeatCount lastTokens lastNRepeat repLimit))
    fun _ => none

end

/-! ## Repetitions of a history -/

section

variable {T : Type}

/-- A common suffix of the history, and of the history without its last `k` tokens. -/
def CommonSuffix (history : List T) (k m : ℕ) : Prop :=
  ∃ t, t.length = m ∧ t <:+ history ∧ t <:+ history.rdrop k

/-- The longest common suffix has the length `l`. -/
def Repeats (history : List T) (k l : ℕ) : Prop := IsGreatest (fun m => CommonSuffix history k m) l

/-- The lengths, cut off at the limit, of the repetitions that a token would go on with. -/
def Continues (history : List T) (repLimit : ℕ) (dryAllowedLength : ℤ) (token : T) (n : ℕ) : Prop :=
  ∃ k l, 1 ≤ k ∧ k < history.length ∧ history[history.length - k]? = some token ∧
    Repeats history k l ∧ n = min l repLimit ∧ dryAllowedLength ≤ n

end

section

variable {T : Type} {b : RingBuffer T} {N k l m : ℕ}

/-- The last tokens, as far as they are looked at. -/
def history (b : RingBuffer T) (N : ℕ) : List T := b.toVector.rtake N

theorem history_length (hN : N ≤ b.sz) : (history b N).length = N := by
  rw [history, List.rtake, List.length_drop, RingBuffer.toVector_length]
  omega

theorem rat_history {i : ℕ} (hi : i < N) : b.rat i = (history b N).reverse[i]? := by
  rw [RingBuffer.rat_eq, history, List.rtake_eq_reverse_take_reverse, List.reverse_reverse,
    List.getElem?_take_of_lt hi]

theorem commonSuffix_iff (hN : N ≤ b.sz) (hk : k ≤ N) :
    CommonSuffix (history b N) k m ↔ m + k ≤ N ∧ Agree b.rat k m := by
  have hlen : (history b N).reverse.length = N := by rw [List.length_reverse, history_length hN]
  have hdrop : ((history b N).rdrop k).reverse = (history b N).reverse.drop k := by
    rw [List.rdrop_eq_reverse_drop_reverse, List.reverse_reverse]
  constructor
  · rintro ⟨t, rfl, ht, ht'⟩
    have hfirst := List.prefix_iff_eq_take.mp (List.reverse_prefix.mpr ht)
    have hsecond := List.prefix_iff_eq_take.mp (List.reverse_prefix.mpr ht')
    have hle := (List.reverse_prefix.mpr ht').length_le
    rw [hdrop, List.length_drop, hlen, List.length_reverse] at hle
    rw [hdrop, List.length_reverse] at hsecond
    rw [List.length_reverse] at hfirst
    refine ⟨by omega, fun j hj => ?_⟩
    have hj' : j < N := by omega
    have hjk : j + k < N := by omega
    rw [rat_history hj', rat_history hjk, Nat.add_comm, ← List.getElem?_drop,
      ← List.getElem?_take_of_lt hj, ← hfirst, hsecond, List.getElem?_take_of_lt hj]
  · rintro ⟨hle, hagree⟩
    refine ⟨((history b N).reverse.take m).reverse, ?_, ?_, ?_⟩
    · rw [List.length_reverse, List.length_take, hlen]
      omega
    · rw [← List.reverse_prefix, List.reverse_reverse]
      exact List.take_prefix m _
    · have htake : (history b N).reverse.take m = ((history b N).reverse.drop k).take m := by
        refine List.ext_getElem? fun j => ?_
        rcases Nat.lt_or_ge j m with hj | hj
        · have hj' : j < N := by omega
          have hjk : k + j < N := by omega
          rw [List.getElem?_take_of_lt hj, List.getElem?_take_of_lt hj, List.getElem?_drop,
            ← rat_history hj', ← rat_history hjk, Nat.add_comm]
          exact hagree j hj
        · rw [List.getElem?_eq_none (by rw [List.length_take]; omega),
            List.getElem?_eq_none (by rw [List.length_take]; omega)]
      rw [← List.reverse_prefix, List.reverse_reverse, hdrop, htake]
      exact List.take_prefix m _

theorem repeats_iff (hN : N ≤ b.sz) (hk : k ≤ N) : Repeats (history b N) k l ↔ IsZ b.rat N k l := by
  constructor
  · rintro ⟨hl, hgreatest⟩
    obtain ⟨hle, hagree⟩ := (commonSuffix_iff hN hk).mp hl
    refine ⟨hagree, hle, fun hlt heq => ?_⟩
    have hlonger := hgreatest ((commonSuffix_iff hN hk).mpr ⟨by omega, hagree.succ heq⟩)
    omega
  · intro h
    refine ⟨(commonSuffix_iff hN hk).mpr ⟨h.le, h.agree⟩, fun m hm => ?_⟩
    obtain ⟨hle, hagree⟩ := (commonSuffix_iff hN hk).mp hm
    exact h.of_agree hagree hle

end

/-! ## Step 2 -/

section

variable {T : Type} {b : RingBuffer T} {N k repLimit : ℕ} {s : ZState}

theorem extend_eq [DecidableEq T] (fuel n : ℕ) : extend b N k fuel (n + k) = scan b.rat N k fuel n + k := by
  induction fuel generalizing n with
  | zero => rfl
  | succ fuel ih =>
    rw [extend, scan, Nat.add_sub_cancel]
    by_cases hnext : n + k < N ∧ b.rat n = b.rat (n + k)
    · rw [if_pos hnext, if_pos ⟨hnext.1, hnext.2.symm⟩, Nat.add_right_comm, ih]
    · rw [if_neg hnext, if_neg fun h => hnext ⟨h.1, h.2.symm⟩]

/-- In front of `k` the counts are right, and the box is a stretch of agreement. -/
structure Inv (b : RingBuffer T) (N repLimit k : ℕ) (s : ZState) : Prop where
  length_eq : s.repeatCount.length = N
  counts : ∀ j, 1 ≤ j → j < k →
    ∃ l, IsZ b.rat N j l ∧ s.repeatCount[N - 1 - j]? = some (min l repLimit)
  box : Agree b.rat s.lt (s.rt + 1 - s.lt)
  lt_le : s.lt ≤ s.rt
  rt_lt : s.rt < N
  lt_lt : s.lt < k
  started : s.lt = 0 → s.rt = 0

theorem Inv.next (h : Inv b N repLimit k s) (hk : 1 ≤ k) (hkN : k < N) {l lt rt : ℕ}
    (hl : IsZ b.rat N k l) (hbox : Agree b.rat lt (rt + 1 - lt)) (hle : lt ≤ rt) (hrt : rt < N)
    (hlt : lt < k + 1) (hstarted : lt = 0 → rt = 0) :
    Inv b N repLimit (k + 1) ⟨s.repeatCount.set (N - 1 - k) (min l repLimit), lt, rt⟩ where
  length_eq := List.length_set.trans h.length_eq
  counts j hj hjk := by
    dsimp only
    rcases Nat.lt_succ_iff_lt_or_eq.mp hjk with hjk | rfl
    · obtain ⟨lj, hlj, hcount⟩ := h.counts j hj hjk
      exact ⟨lj, hlj, by rw [List.getElem?_set_ne (by omega), hcount]⟩
    · exact ⟨l, hl, by rw [List.getElem?_set_self (by rw [h.length_eq]; omega)]⟩
  box := hbox
  lt_le := hle
  rt_lt := hrt
  lt_lt := hlt
  started := hstarted

theorem IsZ.box {f : ℕ → Option T} {n : ℕ} (h : IsZ f N k n) (hn : 0 < n) :
    Agree f k (k + n - 1 + 1 - k) ∧ k ≤ k + n - 1 ∧ k + n - 1 < N := by
  have hle := h.le
  have hlen : k + n - 1 + 1 - k = n := by omega
  rw [hlen]
  exact ⟨h.agree, by omega, by omega⟩

theorem Inv.pair (h : Inv b N repLimit k s) (hk : 1 ≤ k) (hin : ¬ s.rt < k) :
    ∃ l, IsZ b.rat N (k - s.lt) l ∧
      s.repeatCount.getD (N - 1 - (k - s.lt)) 0 = min l repLimit := by
  have hstarted := h.started
  have hlt := h.lt_lt
  obtain ⟨l, hl, hcount⟩ := h.counts (k - s.lt) (by omega) (by omega)
  exact ⟨l, hl, by rw [List.getD_eq_getElem?_getD, hcount, Option.getD_some]⟩

theorem zStep_inv [DecidableEq T] (h : Inv b N repLimit k s) (hk : 1 ≤ k) (hkN : k < N) :
    Inv b N repLimit (k + 1) (zStep b N repLimit s k) := by
  have hrt := h.rt_lt
  have hlt := h.lt_lt
  have hle := h.lt_le
  rw [zStep]
  dsimp only
  split_ifs with hout hpos hshort
  · -- outside of the box, with a match
    have hz : IsZ b.rat N k (scan b.rat N k N 0) :=
      scan_isZ (agree_zero b.rat k) (by omega) (by omega)
    obtain ⟨hbox, hkn, hnN⟩ := IsZ.box hz hpos
    exact h.next hk hkN hz hbox hkn hnN (Nat.lt_succ_self k) (by omega)
  · -- outside of the box, without one
    have hz : IsZ b.rat N k (scan b.rat N k N 0) :=
      scan_isZ (agree_zero b.rat k) (by omega) (by omega)
    exact h.next hk hkN hz h.box hle hrt (Nat.lt_succ_of_lt hlt) h.started
  · -- the pair of `k` stays inside of the box
    obtain ⟨lp, hlp, hcount⟩ := h.pair hk hout
    have hz : IsZ b.rat N k (scan b.rat N k N 0) :=
      scan_isZ (agree_zero b.rat k) (by omega) (by omega)
    have hpair : k - s.lt + s.lt = k := Nat.sub_add_cancel h.lt_lt.le
    rw [hcount] at hshort ⊢
    have hsame : min (scan b.rat N k N 0) repLimit = min lp repLimit :=
      min_inside h.box (by omega) hlp (hpair.symm ▸ hz) (by omega)
    rw [Nat.min_eq_left (Nat.min_le_right lp repLimit), ← hsame]
    exact h.next hk hkN hz h.box hle hrt (Nat.lt_succ_of_lt hlt) h.started
  · -- the pair of `k` reaches the end of the box
    obtain ⟨lp, hlp, hcount⟩ := h.pair hk hout
    have hpair : k - s.lt + s.lt = k := Nat.sub_add_cancel h.lt_lt.le
    rw [hcount] at hshort
    have hpart : Agree b.rat (k - s.lt) (s.rt + 1 - k) := hlp.agree.mono (by omega)
    have hagree : Agree b.rat (k - s.lt + s.lt) (s.rt + 1 - k) := h.box.inside hpart (by omega)
    rw [hpair] at hagree
    have hz : IsZ b.rat N k (scan b.rat N k N (s.rt + 1 - k)) :=
      scan_isZ hagree (by omega) (by omega)
    have hpos := hz.of_agree hagree (by omega)
    have hextend : extend b N k N (s.rt + 1) = scan b.rat N k N (s.rt + 1 - k) + k := by
      rw [← extend_eq, Nat.sub_add_cancel (by omega)]
    obtain ⟨hbox, hkn, hnN⟩ := IsZ.box hz (by omega)
    rw [hextend, Nat.add_sub_cancel, Nat.add_comm _ k]
    exact h.next hk hkN hz hbox hkn hnN (Nat.lt_succ_self k) (by omega)

theorem repeatCount_inv [DecidableEq T] (hN : 0 < N) :
    Inv b N repLimit N ((List.range' 1 (N - 1)).foldl (zStep b N repLimit)
      { repeatCount := List.replicate N 0 }) := by
  have hstart : Inv b N repLimit 1 { repeatCount := List.replicate N 0 } := {
    length_eq := List.length_replicate
    counts := fun j hj hj' => absurd hj (Nat.not_le.mpr hj')
    box := fun j _ => congrArg b.rat (Nat.add_zero j).symm
    lt_le := le_rfl
    rt_lt := hN
    lt_lt := Nat.one_pos
    started := fun _ => rfl }
  have hrun : ∀ n k s, 1 ≤ k → k + n ≤ N → Inv b N repLimit k s →
      Inv b N repLimit (k + n) ((List.range' k n).foldl (zStep b N repLimit) s) := by
    intro n
    induction n with
    | zero => exact fun k s _ _ h => h
    | succ n ih =>
      intro k s hk hkn h
      have hnext := ih (k + 1) (zStep b N repLimit s k) (by omega) (by omega)
        (zStep_inv h hk (by omega))
      rw [Nat.add_right_comm] at hnext
      exact hnext
  have hend := hrun (N - 1) 1 _ le_rfl (by omega) hstart
  rwa [Nat.add_sub_cancel' hN] at hend

theorem repeatCount_spec [DecidableEq T] (hN : N ≤ b.sz) (repLimit : ℕ) (hk : 1 ≤ k) (hkN : k < N) :
    ∃ l, Repeats (history b N) k l ∧
      (repeatCount b N repLimit)[N - 1 - k]? = some (min l repLimit) := by
  obtain ⟨l, hl, hcount⟩ := (repeatCount_inv (b := b) (Nat.zero_lt_of_lt hkN)).counts k hk hkN
  exact ⟨l, (repeats_iff hN hkN.le).mpr hl, hcount⟩

/-! ## Step 3 -/

/-- The greatest number of a set, or none if it is empty. -/
def Greatest (S : ℕ → Prop) : Option ℕ → Prop
  | none => ∀ n, ¬ S n
  | some n => IsGreatest S n

/-- The counts at the first `i` indices that `token` comes behind. -/
def Tracked (b : RingBuffer T) (N : ℕ) (allowed : ℤ) (counts : List ℕ) (i : ℕ) (token : T)
    (n : ℕ) : Prop :=
  ∃ j < i, b.rat (N - 2 - j) = some token ∧ counts.getD j 0 = n ∧ allowed ≤ n

variable {allowed : ℤ} {counts : List ℕ} {i n : ℕ} {token : T}

theorem tracked_succ : Tracked b N allowed counts (i + 1) token n ↔
    Tracked b N allowed counts i token n ∨
      b.rat (N - 2 - i) = some token ∧ counts.getD i 0 = n ∧ allowed ≤ n := by
  constructor
  · rintro ⟨j, hj, hrest⟩
    rcases Nat.lt_succ_iff_lt_or_eq.mp hj with hj | rfl
    · exact .inl ⟨j, hj, hrest⟩
    · exact .inr hrest
  · rintro (⟨j, hj, hrest⟩ | hrest)
    · exact ⟨j, Nat.lt_succ_of_lt hj, hrest⟩
    · exact ⟨i, Nat.lt_succ_self i, hrest⟩

theorem Greatest.congr {S S' : ℕ → Prop} {o : Option ℕ} (h : Greatest S o) (hS : ∀ n, S' n ↔ S n) :
    Greatest S' o := by
  rwa [show S' = S from funext fun n => propext (hS n)]

theorem Greatest.insert_none {S S' : ℕ → Prop} {r : ℕ} (h : Greatest S none)
    (hS : ∀ n, S' n ↔ S n ∨ n = r) : Greatest S' (some r) :=
  ⟨(hS r).mpr (.inr rfl), fun n hn => ((hS n).mp hn).elim (fun hn => absurd hn (h n)) Eq.le⟩

theorem Greatest.insert_some {S S' : ℕ → Prop} {r old : ℕ} (h : Greatest S (some old))
    (hS : ∀ n, S' n ↔ S n ∨ n = r) : Greatest S' (some (if old < r then r else old)) := by
  obtain ⟨hold, hgreatest⟩ := h
  split_ifs with hlt
  · refine ⟨(hS r).mpr (.inr rfl), fun n hn => ((hS n).mp hn).elim (fun hn => ?_) Eq.le⟩
    exact (hgreatest hn).trans hlt.le
  · refine ⟨(hS old).mpr (.inl hold), fun n hn => ((hS n).mp hn).elim (fun hn => hgreatest hn) ?_⟩
    exact fun heq => heq ▸ Nat.le_of_not_lt hlt

theorem trackToken_greatest [DecidableEq T] {m : T → Option ℕ}
    (h : Greatest (Tracked b N allowed counts i token) (m token)) :
    Greatest (Tracked b N allowed counts (i + 1) token)
      (trackToken b N allowed counts m i token) := by
  rw [trackToken]
  by_cases hallowed : allowed ≤ (counts.getD i 0 : ℕ)
  swap
  · rw [if_neg hallowed]
    refine h.congr fun n => tracked_succ.trans (or_iff_left ?_)
    rintro ⟨-, rfl, hle⟩
    exact hallowed hle
  rw [if_pos hallowed]
  cases hrat : b.rat (N - 2 - i) with
  | none =>
    refine h.congr fun n => tracked_succ.trans (or_iff_left ?_)
    rintro ⟨heq, -, -⟩
    exact nomatch hrat.symm.trans heq
  | some t =>
    dsimp only
    by_cases ht : t = token
    · subst ht
      have hS : ∀ n, Tracked b N allowed counts (i + 1) t n ↔
          Tracked b N allowed counts i t n ∨ n = counts.getD i 0 := fun n => by
        rw [tracked_succ]
        refine or_congr_right ⟨fun hn => hn.2.1.symm, ?_⟩
        rintro rfl
        exact ⟨hrat, rfl, hallowed⟩
      cases hm : m t with
      | none =>
        rw [hm] at h
        dsimp only
        rw [Function.update_self]
        exact h.insert_none hS
      | some old =>
        rw [hm] at h
        have hinsert := h.insert_some hS
        dsimp only
        split_ifs at hinsert ⊢ with hlt
        · rwa [Function.update_self]
        · rwa [hm]
    · have hsame : Greatest (Tracked b N allowed counts (i + 1) token) (m token) := by
        refine h.congr fun n => tracked_succ.trans (or_iff_left ?_)
        rintro ⟨heq, -, -⟩
        exact ht (Option.some.inj (hrat.symm.trans heq))
      cases m t with
      | none =>
        dsimp only
        rwa [Function.update_of_ne (Ne.symm ht)]
      | some old =>
        dsimp only
        split_ifs
        · rwa [Function.update_of_ne (Ne.symm ht)]
        · exact hsame

theorem foldl_trackToken [DecidableEq T] (b : RingBuffer T) (N : ℕ) (allowed : ℤ) (counts : List ℕ)
    (token : T) (n : ℕ) :
    Greatest (Tracked b N allowed counts n token)
      ((List.range n).foldl (trackToken b N allowed counts) (fun _ => none) token) := by
  induction n with
  | zero => exact fun _ ⟨_, hj, _⟩ => absurd hj (Nat.not_lt_zero _)
  | succ n ih =>
    rw [List.range_succ, List.foldl_append]
    exact trackToken_greatest ih

theorem tracked_iff [DecidableEq T] (hN : N ≤ b.sz) :
    Tracked b N allowed (repeatCount b N repLimit) (N - 1) token n ↔
      Continues (history b N) repLimit allowed token n := by
  have hbehind : ∀ k, 1 ≤ k → k < N → b.rat (k - 1) = (history b N)[N - k]? := by
    intro k hk hkN
    have hlt : k - 1 < N := by omega
    rw [rat_history hlt, List.getElem?_reverse (by rwa [history_length hN]), history_length hN]
    congr 1
    omega
  constructor
  · rintro ⟨j, hj, htoken, rfl, hallowed⟩
    obtain ⟨l, hl, hcount⟩ := repeatCount_spec hN repLimit (k := N - 1 - j) (by omega) (by omega)
    have hindex : N - 1 - (N - 1 - j) = j := by omega
    have hvalue : (repeatCount b N repLimit).getD j 0 = min l repLimit := by
      rw [List.getD_eq_getElem?_getD, ← hindex, hcount, Option.getD_some]
    refine ⟨N - 1 - j, l, by omega, by rw [history_length hN]; omega, ?_, hl, hvalue, hallowed⟩
    have hat : N - 1 - j - 1 = N - 2 - j := by omega
    rw [history_length hN, ← hbehind _ (by omega) (by omega), hat, htoken]
  · rintro ⟨k, l, hk, hkN, htoken, hl, rfl, hallowed⟩
    rw [history_length hN] at hkN htoken
    obtain ⟨l', hl', hcount⟩ := repeatCount_spec hN repLimit hk hkN
    obtain rfl := IsGreatest.unique hl hl'
    refine ⟨N - 1 - k, by omega, ?_, ?_, hallowed⟩
    · rw [← hbehind k hk hkN] at htoken
      rw [← htoken]
      congr 1
      omega
    · rw [List.getD_eq_getElem?_getD, hcount, Option.getD_some]

/-- Steps 2 and 3: the lengths of the repetitions, cut off at the limit, and for each token the
greatest that it goes on with. -/
theorem dryRepeat_spec [DecidableEq T] (hN : N ≤ b.sz) (repLimit : ℕ) (allowed : ℤ) :
    (∀ k, 1 ≤ k → k < N → ∃ l, Repeats (history b N) k l ∧
      (repeatCount b N repLimit)[N - 1 - k]? = some (min l repLimit)) ∧
    ∀ token, Greatest (Continues (history b N) repLimit allowed token)
      (maxTokenRepeat b N repLimit allowed token) := by
  refine ⟨fun k => repeatCount_spec hN repLimit, fun token => ?_⟩
  exact (foldl_trackToken b N allowed _ token (N - 1)).congr fun n => (tracked_iff hN).symm

/-- The tokens `a b c c b c y a b c` of the comment on step 2. -/
def sample : RingBuffer ℕ :=
  [0, 1, 2, 2, 1, 2, 3, 0, 1, 2].foldl RingBuffer.pushBack (.new 12 (by decide) 0)

theorem dryRepeat_spec_sample :
    repeatCount sample 10 10 = [0, 0, 3, 1, 0, 2, 0, 0, 0, 0] ∧
      (∃ l, Repeats (history sample 10) 7 l ∧ min l 10 = 3) ∧
        Greatest (Continues (history sample 10) 10 1 2) (some 3) := by
  have hcounts : repeatCount sample 10 10 = [0, 0, 3, 1, 0, 2, 0, 0, 0, 0] := by decide +kernel
  obtain ⟨hrepeats, htokens⟩ := dryRepeat_spec (b := sample) (N := 10) (by decide +kernel) 10 1
  obtain ⟨l, hl, hcount⟩ := hrepeats 7 (by decide) (by decide)
  rw [hcounts] at hcount
  refine ⟨hcounts, ⟨l, hl, (Option.some.inj hcount).symm⟩, ?_⟩
  have htoken := htokens 2
  have hmax : maxTokenRepeat sample 10 10 1 2 = some 3 := by decide +kernel
  rwa [hmax] at htoken

end

end DryRepeat
end RocmFpx
