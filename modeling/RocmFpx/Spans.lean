import Mathlib.Data.List.Chain
import Mathlib.Data.List.Perm.Basic
import Mathlib.Data.List.TakeWhile

/-!
Spans of natural numbers. How often a list of spans covers a number says at once whether they
overlap and whether they fill a stretch; lists that are apart are in order, without empty spans,
and no two of them touch.
-/

namespace RocmFpx

structure Span where
  offset : ℕ
  size : ℕ
  deriving DecidableEq, Repr

namespace Span

def stop (s : Span) : ℕ := s.offset + s.size

@[simp] theorem stop_mk (o n : ℕ) : (Span.mk o n).stop = o + n := rfl

def Covers (s : Span) (x : ℕ) : Prop := s.offset ≤ x ∧ x < s.stop

instance (s : Span) (x : ℕ) : Decidable (s.Covers x) := inferInstanceAs (Decidable (_ ∧ _))

/-- How many of the spans cover a number. -/
def cover (spans : List Span) (x : ℕ) : ℕ := spans.countP fun s => s.Covers x

variable {s t : Span} {spans more : List Span} {x n : ℕ}

@[simp] theorem cover_nil (x : ℕ) : cover [] x = 0 := rfl

theorem cover_cons (s : Span) (spans : List Span) (x : ℕ) :
    cover (s :: spans) x = cover spans x + if s.Covers x then 1 else 0 := by
  simp only [cover, List.countP_cons, decide_eq_true_eq]

@[simp] theorem cover_append (spans more : List Span) (x : ℕ) :
    cover (spans ++ more) x = cover spans x + cover more x := List.countP_append

theorem cover_cons_append (s : Span) (spans : List Span) (x : ℕ) :
    cover (s :: spans) x = cover [s] x + cover spans x := cover_append [s] spans x

theorem cover_perm (h : spans.Perm more) (x : ℕ) : cover spans x = cover more x := h.countP_eq _

theorem cover_pos_of_mem (hs : s ∈ spans) (hx : s.Covers x) : 0 < cover spans x :=
  List.countP_pos_iff.mpr ⟨s, hs, by simpa using hx⟩

theorem cover_singleton (o n x : ℕ) :
    cover [⟨o, n⟩] x = if o ≤ x ∧ x < o + n then 1 else 0 := by
  rw [cover_cons, cover_nil, Nat.zero_add]
  rfl

/-- A span cut in two. -/
theorem cover_split (o m n x : ℕ) :
    cover [⟨o, m + n⟩] x = cover [⟨o, m⟩] x + cover [⟨o + m, n⟩] x := by
  simp only [cover_singleton]
  split_ifs <;> omega

@[simp] theorem cover_empty (o x : ℕ) : cover [⟨o, 0⟩] x = 0 := by
  rw [cover_singleton, if_neg (by omega)]

/-! ## Tiling -/

/-- The spans fill the numbers below `n`, each number once. -/
def Tiles (spans : List Span) (n : ℕ) : Prop := ∀ x, cover spans x = if x < n then 1 else 0

theorem Tiles.le_one (h : Tiles spans n) (x : ℕ) : cover spans x ≤ 1 := by
  rw [h x]
  split_ifs <;> omega

theorem Tiles.stop_le (h : Tiles spans n) (hs : s ∈ spans) (hpos : 0 < s.size) : s.stop ≤ n := by
  have hx : s.Covers (s.stop - 1) := by
    unfold Covers stop
    omega
  have hcov := cover_pos_of_mem hs hx
  rw [h] at hcov
  split_ifs at hcov with hlt
  · unfold stop at hlt ⊢
    omega
  · omega

/-- Two spans do not overlap. -/
def Disjoint (s t : Span) : Prop := ∀ x, ¬ (s.Covers x ∧ t.Covers x)

theorem Disjoint.le_or_le (h : Disjoint s t) (hs : 0 < s.size) (ht : 0 < t.size) :
    s.stop ≤ t.offset ∨ t.stop ≤ s.offset := by
  by_contra hno
  refine h (max s.offset t.offset) ?_
  unfold Covers stop at *
  omega

theorem le_or_le_of_cover (h : ∀ x, cover spans x + cover [t] x ≤ 1) (hs : s ∈ spans)
    (hpos : 0 < s.size) (ht : 0 < t.size) : t.stop ≤ s.offset ∨ s.stop ≤ t.offset := by
  have hdisjoint : Disjoint t s := fun x hx => by
    have hone := h x
    rw [cover_cons, if_pos hx.1] at hone
    have hcov := cover_pos_of_mem hs hx.2
    omega
  exact hdisjoint.le_or_le ht hpos

/-! ## Spans apart -/

/-- One span ends before the other begins. -/
def Before (s t : Span) : Prop := s.stop < t.offset

/-- Spans in order, none empty and no two touching. -/
structure Apart (spans : List Span) : Prop where
  pos : ∀ s ∈ spans, 0 < s.size
  chain : spans.IsChain Before

theorem Before.trans {u : Span} (hst : Before s t) (htu : Before t u) : Before s u := by
  unfold Before stop at *
  omega

instance : IsTrans Span Before := ⟨fun _ _ _ => Before.trans⟩

theorem Apart.pairwise (h : Apart spans) : spans.Pairwise Before :=
  List.isChain_iff_pairwise.mp h.chain

theorem apart_of_pairwise (hpos : ∀ s ∈ spans, 0 < s.size) (h : spans.Pairwise Before) :
    Apart spans := ⟨hpos, List.isChain_iff_pairwise.mpr h⟩

theorem apart_nil : Apart [] := ⟨fun _ h => absurd h List.not_mem_nil, List.isChain_nil⟩

theorem apart_cons : Apart (s :: spans) ↔
    0 < s.size ∧ (∀ t ∈ spans, Before s t) ∧ Apart spans := by
  constructor
  · intro h
    obtain ⟨hs, hrest⟩ := List.pairwise_cons.mp h.pairwise
    exact ⟨h.pos s List.mem_cons_self, hs,
      apart_of_pairwise (fun t ht => h.pos t (List.mem_cons_of_mem _ ht)) hrest⟩
  · rintro ⟨hpos, hs, h⟩
    exact apart_of_pairwise (List.forall_mem_cons.mpr ⟨hpos, h.pos⟩)
      (List.pairwise_cons.mpr ⟨hs, h.pairwise⟩)

theorem apart_append : Apart (spans ++ more) ↔
    Apart spans ∧ Apart more ∧ ∀ s ∈ spans, ∀ t ∈ more, Before s t := by
  constructor
  · intro h
    obtain ⟨hs, hm, hcross⟩ := List.pairwise_append.mp h.pairwise
    exact ⟨apart_of_pairwise (fun t ht => h.pos t (List.mem_append_left _ ht)) hs,
      apart_of_pairwise (fun t ht => h.pos t (List.mem_append_right _ ht)) hm, hcross⟩
  · rintro ⟨hs, hm, hcross⟩
    refine apart_of_pairwise (fun t ht => ?_) (List.pairwise_append.mpr
      ⟨hs.pairwise, hm.pairwise, hcross⟩)
    exact (List.mem_append.mp ht).elim (hs.pos t) (hm.pos t)

theorem Apart.before_or (h : Apart spans) (hs : s ∈ spans) (ht : t ∈ spans) :
    s = t ∨ Before s t ∨ Before t s := by
  induction spans with
  | nil => nomatch hs
  | cons u spans ih =>
    obtain ⟨-, hu, hrest⟩ := apart_cons.1 h
    rcases List.mem_cons.mp hs with hs | hs <;> rcases List.mem_cons.mp ht with ht | ht
    · exact Or.inl (hs.trans ht.symm)
    · exact Or.inr (Or.inl (hs ▸ hu t ht))
    · exact Or.inr (Or.inr (ht ▸ hu s hs))
    · exact ih hrest hs ht

/-! ## Filling a gap -/

section Gap

variable {o m : ℕ} {pre : List Span}

theorem Apart.extend (h : Apart (pre ++ s :: spans)) (hstop : s.stop = o)
    (hnext : ∀ t ∈ spans, o + m < t.offset) :
    Apart (pre ++ ⟨s.offset, s.size + m⟩ :: spans) ∧
    ∀ x, cover (pre ++ ⟨s.offset, s.size + m⟩ :: spans) x =
      cover (pre ++ s :: spans) x + cover [⟨o, m⟩] x := by
  obtain ⟨hpre, hspans, hcross⟩ := apart_append.1 h
  obtain ⟨hpos, -, hrest⟩ := apart_cons.1 hspans
  have hsum : s.offset + (s.size + m) = o + m := by rw [← hstop, stop, Nat.add_assoc]
  constructor
  · refine apart_append.2 ⟨hpre, apart_cons.2 ⟨Nat.add_pos_left hpos m, ?_, hrest⟩, ?_⟩
    · intro t ht
      rw [Before, stop_mk, hsum]
      exact hnext t ht
    · intro p hp t ht
      rcases List.mem_cons.mp ht with rfl | ht
      · exact hcross p hp s List.mem_cons_self
      · exact hcross p hp t (List.mem_cons_of_mem _ ht)
  · intro x
    have hsplit : cover [⟨s.offset, s.size + m⟩] x = cover [s] x + cover [⟨s.stop, m⟩] x :=
      cover_split s.offset s.size m x
    rw [hstop] at hsplit
    rw [cover_append, cover_append, cover_cons_append, cover_cons_append s, hsplit]
    omega

theorem Apart.extendDown (h : Apart (pre ++ s :: spans)) (hstart : o + m = s.offset)
    (hprev : ∀ p ∈ pre, p.stop < o) :
    Apart (pre ++ ⟨o, s.size + m⟩ :: spans) ∧
    ∀ x, cover (pre ++ ⟨o, s.size + m⟩ :: spans) x =
      cover (pre ++ s :: spans) x + cover [⟨o, m⟩] x := by
  obtain ⟨hpre, hspans, hcross⟩ := apart_append.1 h
  obtain ⟨hpos, hnext, hrest⟩ := apart_cons.1 hspans
  have hsum : o + (s.size + m) = s.stop := by
    rw [stop, ← hstart]
    omega
  constructor
  · refine apart_append.2 ⟨hpre, apart_cons.2 ⟨Nat.add_pos_left hpos m, ?_, hrest⟩, ?_⟩
    · intro t ht
      rw [Before, stop_mk, hsum]
      exact hnext t ht
    · intro p hp t ht
      rcases List.mem_cons.mp ht with rfl | ht
      · exact hprev p hp
      · exact hcross p hp t (List.mem_cons_of_mem _ ht)
  · intro x
    have hsplit : cover [⟨o, m + s.size⟩] x = cover [⟨o, m⟩] x + cover [⟨s.offset, s.size⟩] x :=
      hstart ▸ cover_split o m s.size x
    have heta : cover [⟨s.offset, s.size⟩] x = cover [s] x := rfl
    rw [cover_append, cover_append, cover_cons_append, cover_cons_append s, Nat.add_comm s.size m,
      hsplit, heta]
    omega

/-- A span that fills the gap between two makes them one. -/
theorem Apart.bridge (h : Apart (pre ++ s :: t :: spans)) (hstop : s.stop = o)
    (hstart : o + m = t.offset) :
    Apart (pre ++ ⟨s.offset, s.size + m + t.size⟩ :: spans) ∧
    ∀ x, cover (pre ++ ⟨s.offset, s.size + m + t.size⟩ :: spans) x =
      cover (pre ++ s :: t :: spans) x + cover [⟨o, m⟩] x := by
  obtain ⟨hpre, hspans, hcross⟩ := apart_append.1 h
  obtain ⟨hpos, -, htail⟩ := apart_cons.1 hspans
  obtain ⟨-, hnext, hrest⟩ := apart_cons.1 htail
  have hmid : s.offset + (s.size + m) = t.offset := by
    rw [← hstart, ← hstop, stop, Nat.add_assoc]
  have hsum : s.offset + (s.size + m + t.size) = t.stop := by
    rw [← Nat.add_assoc, hmid, stop]
  constructor
  · refine apart_append.2 ⟨hpre, apart_cons.2 ⟨?_, ?_, hrest⟩, ?_⟩
    · exact Nat.add_pos_left (Nat.add_pos_left hpos m) t.size
    · intro u hu
      rw [Before, stop_mk, hsum]
      exact hnext u hu
    · intro p hp u hu
      rcases List.mem_cons.mp hu with rfl | hu
      · exact hcross p hp s List.mem_cons_self
      · exact hcross p hp u (List.mem_cons_of_mem _ (List.mem_cons_of_mem _ hu))
  · intro x
    have hfirst : cover [⟨s.offset, s.size + m⟩] x = cover [s] x + cover [⟨s.stop, m⟩] x :=
      cover_split s.offset s.size m x
    have hsecond : cover [⟨s.offset, s.size + m + t.size⟩] x =
        cover [⟨s.offset, s.size + m⟩] x + cover [t] x := by
      rw [cover_split, hmid]
    rw [hstop] at hfirst
    rw [cover_append, cover_append, cover_cons_append, cover_cons_append s, cover_cons_append t,
      hsecond, hfirst]
    omega

end Gap

/-- Insertion in order. -/
def insertBefore (s : Span) (spans : List Span) : List Span :=
  spans.takeWhile (fun t => t.offset < s.offset) ++
    s :: spans.dropWhile fun t => t.offset < s.offset

theorem cover_insertBefore (s : Span) (spans : List Span) (x : ℕ) :
    cover (insertBefore s spans) x = cover spans x + cover [s] x := by
  have hperm : (insertBefore s spans).Perm (s :: spans) := by
    rw [insertBefore]
    refine List.perm_middle.trans (List.Perm.cons s ?_)
    rw [List.takeWhile_append_dropWhile]
  rw [cover_perm hperm x, cover_cons, cover_cons, cover_nil, Nat.zero_add]

theorem mem_insertBefore : t ∈ insertBefore s spans ↔ t = s ∨ t ∈ spans := by
  rw [insertBefore, List.mem_append, List.mem_cons, or_left_comm, ← List.mem_append,
    List.takeWhile_append_dropWhile]

theorem Apart.insertBefore (h : Apart spans) (hs : 0 < s.size)
    (hapart : ∀ t ∈ spans, Before s t ∨ Before t s) : Apart (insertBefore s spans) := by
  have hsplit := List.takeWhile_append_dropWhile (p := fun t : Span => t.offset < s.offset)
    (l := spans)
  rw [← hsplit] at h
  obtain ⟨hpre, hpost, hcross⟩ := apart_append.1 h
  have hbefore : ∀ t ∈ spans.takeWhile fun t => t.offset < s.offset, Before t s := by
    intro t ht
    have hlt : t.offset < s.offset := by simpa using List.mem_takeWhile_imp ht
    refine (hapart t (List.takeWhile_subset _ ht)).resolve_left fun hno => ?_
    unfold Before stop at hno
    omega
  have hafter : ∀ t ∈ spans.dropWhile fun t => t.offset < s.offset, Before s t := by
    intro t ht
    refine (hapart t (List.dropWhile_subset _ ht)).resolve_right fun hno => ?_
    cases hdrop : spans.dropWhile fun t => t.offset < s.offset with
    | nil =>
      rw [hdrop] at ht
      nomatch ht
    | cons u rest =>
      have hhead : ¬ u.offset < s.offset := by
        have hne : spans.dropWhile (fun t => decide (t.offset < s.offset)) ≠ [] := by
          rw [hdrop]
          exact List.cons_ne_nil _ _
        have hnot := List.head_dropWhile_not (fun t : Span => decide (t.offset < s.offset)) hne
        simpa [hdrop] using hnot
      rw [hdrop] at ht hpost
      have hle : u.offset ≤ t.offset := by
        rcases List.mem_cons.mp ht with rfl | htail
        · exact le_rfl
        · have hb := (apart_cons.1 hpost).2.1 t htail
          unfold Before stop at hb
          omega
      unfold Before stop at hno
      omega
  rw [Span.insertBefore]
  exact apart_append.2 ⟨hpre, apart_cons.2 ⟨hs, hafter, hpost⟩, fun t ht u hu =>
    (List.mem_cons.mp hu).elim (fun heq => heq ▸ hbefore t ht) (hcross t ht u)⟩

end Span
end RocmFpx
