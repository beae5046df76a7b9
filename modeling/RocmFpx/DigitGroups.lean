import Mathlib.Data.List.Chain
import RocmFpx.UnicodeSplit

/-!
The digit splitter (`unicode_regex_split_custom_afmoe`) against the grouping of digits by threes
from the right. Text in front of a run of digits is not yet cut off when the run is grouped, and goes
into its first piece.
-/

namespace RocmFpx
namespace PreTokenizer

open Unicode

section
variable (u : UnicodeData)

/-- `unicode_regex_split_custom_afmoe` -/
def splitCustomAfmoe (text : List UInt8) (offsets : List ℕ) : List ℕ :=
  overSegments (afmoeSegment u) (cptsFromUtf8 text) offsets

/-- The expressions that are given to this splitter. -/
def digitExprs : List String :=
  ["\\p\x7bAFMoE_digits\x7d", "\\d\x7b1,3\x7d(?=(?:\\d\x7b3\x7d)*\\b)"]

/-- The pieces of a run of digits: the remainder first, then threes. -/
def groups (n : ℕ) : List ℕ := (if n % 3 = 0 then [] else [n % 3]) ++ List.replicate (n / 3) 3

def OneKind (piece : List ℕ) : Prop :=
  (∀ c ∈ piece, isNumber u c = true) ∨ ∀ c ∈ piece, isNumber u c = false

/-- The pieces of a segment isolate its runs of digits and group them. -/
structure Isolates (s pieces : List ℕ) : Prop where
  sum_eq : pieces.sum = s.length
  pos : ∀ k ∈ pieces, 0 < k
  oneKind : ∀ piece ∈ chunks s pieces, OneKind u piece
  grouped : ∀ a run b, s = a ++ (run ++ b) → run ≠ [] → (∀ c ∈ run, isNumber u c = true) →
    (∀ c ∈ a.getLast?, isNumber u c = false) → (∀ c ∈ b.head?, isNumber u c = false) →
    ∃ before after, pieces = before ++ (groups run.length ++ after) ∧ before.sum = a.length

/-- No digit comes behind something else. -/
def DigitsFirst (s : List ℕ) : Prop := s.IsChain fun c d => isNumber u d = true → isNumber u c = true

end

section
variable {u : UnicodeData} {s r : List ℕ}

/-! ## Runs -/

theorem digitGroups_zero (n : ℕ) : digitGroups 0 n = List.replicate n 3 := by
  induction n with
  | zero => rfl
  | succ n ih => rw [digitGroups, ih, List.replicate_succ]

theorem digitTokens_zero (n : ℕ) : digitTokens 0 n = groups n := by
  rw [digitTokens, groups, digitGroups_zero]
  by_cases h : n % 3 = 0
  · rw [if_neg (by omega), if_pos h]
    rfl
  · rw [if_pos (by omega), if_neg h, Nat.zero_add]
    rfl

theorem digitTokens_head (behind : ℕ) {count : ℕ} (h : 0 < count) :
    ∃ j ks, digitTokens behind count = (behind + j) :: ks ∧ 0 < j := by
  rw [digitTokens]
  split_ifs with hrest
  · exact ⟨count % 3, _, rfl, hrest⟩
  · obtain ⟨n, hn⟩ : ∃ n, count / 3 = n + 1 := Nat.exists_eq_succ_of_ne_zero (by omega)
    rw [hn]
    exact ⟨3, _, rfl, by decide⟩

theorem chunks_append (s r ks ls : List ℕ) (h : ks.sum = s.length) :
    chunks (s ++ r) (ks ++ ls) = chunks s ks ++ chunks r ls := by
  induction ks generalizing s with
  | nil =>
    obtain rfl := List.length_eq_zero_iff.mp h.symm
    rfl
  | cons k ks ih =>
    rw [List.sum_cons] at h
    have hdrop : ks.sum = (s.drop k).length := by
      rw [List.length_drop]
      omega
    rw [List.cons_append, chunks, chunks, List.take_append_of_le_length (by omega),
      List.drop_append_of_le_length (by omega), ih (s.drop k) hdrop, List.cons_append]

theorem DigitsFirst.of_others (h : ∀ c ∈ s, isNumber u c = false) : DigitsFirst u s := by
  induction s with
  | nil => exact .nil
  | cons c s ih =>
    obtain ⟨-, hs⟩ := List.forall_mem_cons.mp h
    refine List.isChain_cons.mpr ⟨fun d hd hnumber => ?_, ih hs⟩
    rw [hs d (List.mem_of_mem_head? hd)] at hnumber
    exact absurd hnumber Bool.false_ne_true

theorem DigitsFirst.append (hs : ∀ c ∈ s, isNumber u c = true) (hr : DigitsFirst u r) :
    DigitsFirst u (s ++ r) := by
  induction s with
  | nil => exact hr
  | cons c s ih =>
    obtain ⟨hc, hs⟩ := List.forall_mem_cons.mp hs
    exact List.isChain_cons.mpr ⟨fun _ _ _ => hc, ih hs⟩

theorem DigitsFirst.others (h : DigitsFirst u s) :
    ∀ c ∈ s.dropWhile (isNumber u), isNumber u c = false := by
  induction s with
  | nil => exact nofun
  | cons c s ih =>
    obtain ⟨hnext, hs⟩ := List.isChain_cons.mp h
    have hrest := ih hs
    rw [List.dropWhile_cons]
    cases hc : isNumber u c with
    | true => exact hrest
    | false =>
      refine List.forall_mem_cons.mpr ⟨hc, ?_⟩
      cases s with
      | nil => exact nofun
      | cons d s =>
        have hd : isNumber u d = false := by
          by_contra hd
          have hcd := hnext d rfl (eq_true_of_ne_false hd)
          rw [hc] at hcd
          exact Bool.false_ne_true hcd
        rw [List.dropWhile_cons, hd] at hrest
        exact hrest

/-! ## What the splitter does -/

theorem afmoeFrom_others {n behind : ℕ} (hn : s.length ≤ n) (h : ∀ c ∈ s, isNumber u c = false) :
    afmoeFrom u n behind s = if 0 < behind + s.length then [behind + s.length] else [] := by
  induction s generalizing n behind with
  | nil => cases n <;> rfl
  | cons c s ih =>
    obtain ⟨hc, hs⟩ := List.forall_mem_cons.mp h
    cases n with
    | zero => exact absurd hn (Nat.not_succ_le_zero _)
    | succ n =>
      rw [afmoeFrom, hc, if_neg Bool.false_ne_true, ih (Nat.le_of_succ_le_succ hn) hs,
        List.length_cons, Nat.add_right_comm, Nat.add_assoc]

theorem takeWhile_run {run rest : List ℕ} (hrun : ∀ c ∈ run, isNumber u c = true)
    (hrest : ∀ c ∈ rest.head?, isNumber u c = false) :
    (run ++ rest).takeWhile (isNumber u) = run ∧ (run ++ rest).dropWhile (isNumber u) = rest := by
  rw [List.takeWhile_append_of_pos hrun, List.dropWhile_append_of_pos hrun]
  cases rest with
  | nil => exact ⟨List.append_nil run, rfl⟩
  | cons c rest =>
    rw [List.takeWhile_cons, List.dropWhile_cons, hrest c rfl]
    exact ⟨List.append_nil run, rfl⟩

theorem head_others {rest : List ℕ} (h : ∀ c ∈ rest, isNumber u c = false) :
    ∀ c ∈ rest.head?, isNumber u c = false := fun c hc => h c (List.mem_of_mem_head? hc)

theorem afmoeSegment_digitsFirst {run rest : List ℕ} (hrun : ∀ c ∈ run, isNumber u c = true)
    (hrest : ∀ c ∈ rest, isNumber u c = false) :
    afmoeSegment u (run ++ rest) =
      groups run.length ++ if 0 < rest.length then [rest.length] else [] := by
  obtain ⟨htake, hdrop⟩ := takeWhile_run hrun (head_others hrest)
  have hend : ∀ n, rest.length ≤ n →
      afmoeFrom u n 0 rest = if 0 < rest.length then [rest.length] else [] := fun n hn => by
    rw [afmoeFrom_others hn hrest, Nat.zero_add]
  cases run with
  | nil => exact hend _ le_rfl
  | cons c run =>
    have hlen : rest.length ≤ (run ++ rest).length := by
      rw [List.length_append]
      exact Nat.le_add_left _ _
    rw [List.cons_append] at htake hdrop
    rw [afmoeSegment, List.cons_append, List.length_cons, afmoeFrom, if_pos (hrun c List.mem_cons_self),
      htake, hdrop, digitTokens_zero, hend _ hlen]

theorem sum_groups (n : ℕ) : (groups n).sum = n := by
  rw [groups, List.sum_append, List.sum_replicate]
  split_ifs with h
  · rw [List.sum_nil, Nat.nsmul_eq_mul]
    omega
  · rw [List.sum_singleton, Nat.nsmul_eq_mul]
    omega

theorem isolates_of_digitsFirst (h : DigitsFirst u s) : Isolates u s (afmoeSegment u s) := by
  obtain ⟨hsum, hpos⟩ := afmoeSegment_splits (u := u) s
  refine ⟨hsum, hpos, fun piece hpiece => ?_, fun a run b hs hne hrun ha hb => ?_⟩
  · have hrun : ∀ c ∈ s.takeWhile (isNumber u), isNumber u c = true :=
      fun _ hc => List.mem_takeWhile_imp hc
    have hcut := afmoeSegment_digitsFirst hrun h.others
    have hchunks := chunks_append (s.takeWhile (isNumber u)) (s.dropWhile (isNumber u)) _
      (if 0 < (s.dropWhile (isNumber u)).length then [(s.dropWhile (isNumber u)).length] else [])
      (sum_groups (s.takeWhile (isNumber u)).length)
    rw [← hcut, List.takeWhile_append_dropWhile] at hchunks
    rw [hchunks] at hpiece
    rcases List.mem_append.mp hpiece with hpiece | hpiece
    · exact .inl fun c hc => hrun c (mem_of_mem_chunks hpiece c hc)
    · exact .inr fun c hc => h.others c (mem_of_mem_chunks hpiece c hc)
  · have hnil : a = [] := by
      obtain hnil | ⟨a', c, rfl⟩ := List.eq_nil_or_concat' a
      · exact hnil
      · obtain ⟨d, run, rfl⟩ := List.exists_cons_of_ne_nil hne
        have hlast : c ∈ (a' ++ [c]).getLast? := by
          rw [List.getLast?_append]
          rfl
        have hd := hrun d List.mem_cons_self
        rw [DigitsFirst, hs] at h
        have hcd := (List.isChain_append.mp h).2.2 c hlast d rfl hd
        rw [ha c hlast] at hcd
        exact absurd hcd Bool.false_ne_true
    subst hnil
    have hothers := h.others
    rw [hs, List.nil_append, (takeWhile_run hrun hb).2] at hothers
    rw [hs, List.nil_append, afmoeSegment_digitsFirst hrun hothers]
    exact ⟨[], _, rfl, rfl⟩

theorem digitsFirst_of_oneKind {n : ℕ} {pre : List ℕ} (hn : s.length ≤ n)
    (hpre : ∀ c ∈ pre, isNumber u c = false)
    (h : ∀ piece ∈ chunks (pre ++ s) (afmoeFrom u n pre.length s), OneKind u piece) :
    DigitsFirst u (pre ++ s) := by
  induction n generalizing pre s with
  | zero =>
    obtain rfl := List.length_eq_zero_iff.mp (Nat.le_zero.mp hn)
    rw [List.append_nil]
    exact .of_others hpre
  | succ n ih =>
    cases s with
    | nil =>
      rw [List.append_nil]
      exact .of_others hpre
    | cons c s =>
      rw [afmoeFrom] at h
      cases hc : isNumber u c with
      | false =>
        have hnext : pre ++ [c] ++ s = pre ++ c :: s := by
          rw [List.append_assoc]
          rfl
        rw [hc, if_neg Bool.false_ne_true] at h
        rw [← hnext] at h ⊢
        refine ih (Nat.le_of_succ_le_succ hn) ?_ (List.length_append ▸ h)
        exact List.forall_mem_append.mpr ⟨hpre, List.forall_mem_singleton.mpr hc⟩
      | true =>
        have hsplit : (c :: s).takeWhile (isNumber u) ++ (c :: s).dropWhile (isNumber u) = c :: s :=
          List.takeWhile_append_dropWhile
        have hcount : 0 < ((c :: s).takeWhile (isNumber u)).length := by
          rw [List.takeWhile_cons, if_pos hc]
          exact Nat.succ_pos _
        rw [hc, if_pos rfl] at h
        cases pre with
        | nil =>
          have hrun : ∀ c' ∈ (c :: s).takeWhile (isNumber u), isNumber u c' = true :=
            fun _ hc' => List.mem_takeWhile_imp hc'
          have hchunks := chunks_append ((c :: s).takeWhile (isNumber u))
            ((c :: s).dropWhile (isNumber u)) (digitTokens 0 ((c :: s).takeWhile (isNumber u)).length)
            (afmoeFrom u n 0 ((c :: s).dropWhile (isNumber u))) (by rw [digitTokens_zero, sum_groups])
          have hle : ((c :: s).dropWhile (isNumber u)).length ≤ n := by
            rw [List.dropWhile_cons, if_pos hc]
            exact (List.dropWhile_suffix _).length_le.trans (Nat.le_of_succ_le_succ hn)
          rw [hsplit] at hchunks
          rw [List.nil_append] at h ⊢
          have hrest : DigitsFirst u ([] ++ (c :: s).dropWhile (isNumber u)) :=
            ih hle (List.forall_mem_nil _) fun piece hpiece =>
              h piece (hchunks ▸ List.mem_append_right _ hpiece)
          rw [← hsplit]
          exact .append hrun hrest
        | cons d pre =>
          obtain ⟨j, ks, hhead, hj⟩ := digitTokens_head (d :: pre).length hcount
          rw [hhead] at h
          change ∀ piece ∈ (d :: pre ++ c :: s).take ((d :: pre).length + j) :: chunks _ _, _ at h
          have htake : (d :: pre ++ c :: s).take ((d :: pre).length + j) = d :: pre ++ (c :: s).take j := by
            rw [List.take_append, List.take_of_length_le (Nat.le_add_right _ _), Nat.add_sub_cancel_left]
          have hc' : c ∈ (c :: s).take j := by
            obtain ⟨j, rfl⟩ := Nat.exists_eq_succ_of_ne_zero hj.ne'
            exact List.mem_cons_self
          have hmixed := h _ List.mem_cons_self
          rw [htake] at hmixed
          have hd : isNumber u d = false := hpre d List.mem_cons_self
          rcases hmixed with hall | hall
          · have hnumber := hall d List.mem_cons_self
            rw [hd] at hnumber
            exact absurd hnumber Bool.false_ne_true
          · have hother := hall c (List.mem_append_right _ hc')
            rw [hc] at hother
            exact absurd hother.symm Bool.false_ne_true

theorem isolates_iff : Isolates u s (afmoeSegment u s) ↔ DigitsFirst u s :=
  ⟨fun h => @digitsFirst_of_oneKind u s s.length [] le_rfl nofun h.oneKind, isolates_of_digitsFirst⟩

/-! ## All segments -/

/-- The pieces isolate and group the digits of each segment of the text. -/
def IsolatesAll (u : UnicodeData) (cpts offsets pieces : List ℕ) : Prop :=
  ∃ parts : List (List ℕ), parts.flatten = pieces ∧
    List.Forall₂ (Isolates u) (chunks cpts offsets) parts

theorem append_eq_of_sum {a b c d : List ℕ} (h : a ++ b = c ++ d) (hsum : a.sum = c.sum)
    (ha : ∀ k ∈ a, 0 < k) (hc : ∀ k ∈ c, 0 < k) : a = c ∧ b = d := by
  induction a generalizing c with
  | nil =>
    cases c with
    | nil => exact ⟨rfl, h⟩
    | cons k c =>
      have hpos := hc k List.mem_cons_self
      rw [List.sum_nil, List.sum_cons] at hsum
      omega
  | cons k a ih =>
    obtain ⟨hk, ha⟩ := List.forall_mem_cons.mp ha
    cases c with
    | nil =>
      rw [List.sum_nil, List.sum_cons] at hsum
      omega
    | cons l c =>
      obtain ⟨rfl, htail⟩ := List.cons.inj h
      rw [List.sum_cons, List.sum_cons] at hsum
      obtain ⟨rfl, rfl⟩ := ih htail (Nat.add_left_cancel hsum) ha (List.forall_mem_cons.mp hc).2
      exact ⟨rfl, rfl⟩

theorem overSegments_eq (f : List ℕ → List ℕ) (cpts offsets : List ℕ) :
    overSegments f cpts offsets = ((chunks cpts offsets).map f).flatten := by
  induction offsets generalizing cpts with
  | nil => rfl
  | cons offset offsets ih => rw [overSegments, chunks, List.map_cons, List.flatten_cons, ih]

/-- The digits are isolated and grouped exactly if in no segment a digit comes behind something
else. -/
theorem splitCustomAfmoe_iff (u : UnicodeData) (text : List UInt8) (offsets : List ℕ) :
    IsolatesAll u (cptsFromUtf8 text) offsets (splitCustomAfmoe u text offsets) ↔
      ∀ s ∈ chunks (cptsFromUtf8 text) offsets, DigitsFirst u s := by
  rw [IsolatesAll, splitCustomAfmoe, overSegments_eq]
  generalize chunks (cptsFromUtf8 text) offsets = segments
  induction segments with
  | nil => exact iff_of_true ⟨[], rfl, .nil⟩ nofun
  | cons s segments ih =>
    rw [List.forall_mem_cons, ← ih, ← isolates_iff]
    constructor
    · rintro ⟨_, hparts, hall⟩
      cases hall with
      | @cons _ part _ parts hpart hall =>
        obtain ⟨hsum, hpos⟩ := afmoeSegment_splits (u := u) s
        rw [List.flatten_cons, List.map_cons, List.flatten_cons] at hparts
        obtain ⟨rfl, hrest⟩ := append_eq_of_sum hparts (hpart.sum_eq.trans hsum.symm) hpart.pos hpos
        exact ⟨hpart, parts, hrest, hall⟩
    · rintro ⟨hpart, parts, hparts, hall⟩
      refine ⟨afmoeSegment u s :: parts, ?_, .cons hpart hall⟩
      rw [List.flatten_cons, hparts, List.map_cons, List.flatten_cons]

/-- The letters in front of two digits are in one piece with them. -/
theorem splitCustomAfmoe_mixed :
    splitCustomAfmoe asciiData [97, 98, 49, 50] [4] = [4] ∧
      ¬ IsolatesAll asciiData (cptsFromUtf8 [97, 98, 49, 50]) [4]
        (splitCustomAfmoe asciiData [97, 98, 49, 50] [4]) := by
  have hpieces : splitCustomAfmoe asciiData [97, 98, 49, 50] [4] = [4] := by decide
  have hcpts : chunks (cptsFromUtf8 [97, 98, 49, 50]) [4] = [[97, 98, 49, 50]] := by decide
  refine ⟨hpieces, ?_⟩
  rintro ⟨parts, hparts, hall⟩
  rw [hcpts] at hall
  cases hall with
  | @cons _ part _ _ hpart hnil =>
    cases hnil
    rw [hpieces, List.flatten_cons, List.flatten_nil, List.append_nil] at hparts
    subst hparts
    rcases hpart.oneKind [97, 98, 49, 50] List.mem_cons_self with h | h
    · exact absurd (h 97 (by decide)) (by decide)
    · exact absurd (h 49 (by decide)) (by decide)

end

end PreTokenizer
end RocmFpx
