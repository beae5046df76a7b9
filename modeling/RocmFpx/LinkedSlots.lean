import Mathlib.Data.List.Nodup
import Mathlib.Tactic

/-!
A doubly linked list of slots kept in two arrays of links, `-1` standing for no slot, and the
list it runs through.
-/

namespace RocmFpx

/-- The links of the slots and the two ends. -/
structure Links where
  prev : ℕ → ℤ
  next : ℕ → ℤ
  head : ℤ
  tail : ℤ

namespace Links

def firstOr : List ℕ → ℤ → ℤ
  | [], after => after
  | s :: _, _ => s

def lastOr : ℤ → List ℕ → ℤ
  | before, [] => before
  | _, s :: l => lastOr s l

/-- The slots of `l` in a row, between `before` and `after`. -/
def Segment (prev next : ℕ → ℤ) : ℤ → List ℕ → ℤ → Prop
  | _, [], _ => True
  | before, s :: l, after =>
    prev s = before ∧ next s = firstOr l after ∧ Segment prev next s l after

variable {prev next prev' next' : ℕ → ℤ} {before after : ℤ} {l m order xs ys : List ℕ}
  {s t : ℕ} {links : Links}

theorem firstOr_append (l m : List ℕ) (after : ℤ) :
    firstOr (l ++ m) after = firstOr l (firstOr m after) := by
  cases l <;> rfl

theorem firstOr_of_ne_nil (h : l ≠ []) (a b : ℤ) : firstOr l a = firstOr l b := by
  cases l with
  | nil => exact absurd rfl h
  | cons => rfl

theorem lastOr_append (before : ℤ) (l m : List ℕ) :
    lastOr before (l ++ m) = lastOr (lastOr before l) m := by
  induction l generalizing before with
  | nil => rfl
  | cons s l ih => exact ih s

theorem lastOr_concat (before : ℤ) (l : List ℕ) (s : ℕ) : lastOr before (l ++ [s]) = s := by
  rw [lastOr_append]
  rfl

theorem segment_append :
    Segment prev next before (l ++ m) after ↔
      Segment prev next before l (firstOr m after) ∧
        Segment prev next (lastOr before l) m after := by
  induction l generalizing before with
  | nil => simp [Segment, lastOr]
  | cons s l ih =>
    simp only [List.cons_append, Segment, ih, firstOr_append, lastOr, and_assoc]

theorem Segment.congr (h : Segment prev next before l after) (hprev : ∀ t ∈ l, prev' t = prev t)
    (hnext : ∀ t ∈ l, next' t = next t) : Segment prev' next' before l after := by
  induction l generalizing before with
  | nil => trivial
  | cons s l ih =>
    obtain ⟨hp, hn, hrest⟩ := h
    rw [List.forall_mem_cons] at hprev hnext
    exact ⟨hprev.1.trans hp, hnext.1.trans hn, ih hrest hprev.2 hnext.2⟩

/-- A segment whose last slot is pointed elsewhere. -/
theorem Segment.redirect {after' : ℤ} (h : Segment prev next before (l ++ [t]) after)
    (hnext : ∀ u ∈ l, next' u = next u) (htarget : next' t = after') :
    Segment prev next' before (l ++ [t]) after' := by
  rw [segment_append] at h ⊢
  obtain ⟨hl, hp, -, -⟩ := h
  exact ⟨hl.congr (fun _ _ => rfl) hnext, hp, htarget, trivial⟩

theorem Segment.precede {before' : ℤ} (h : Segment prev next before (s :: l) after)
    (hprev : ∀ u ∈ l, prev' u = prev u) (hsource : prev' s = before') :
    Segment prev' next before' (s :: l) after :=
  ⟨hsource, h.2.1, h.2.2.congr hprev fun _ _ => rfl⟩

/-- The list that the links run through, from the head to the tail. -/
structure Represents (links : Links) (order : List ℕ) : Prop where
  nodup : order.Nodup
  head_eq : links.head = firstOr order (-1)
  tail_eq : links.tail = lastOr (-1) order
  segment : Segment links.prev links.next (-1) order (-1)

/-- All slots in the order of their numbers. -/
def inOrder (n : ℕ) : Links where
  prev s := s - 1
  next s := if s + 1 < n then s + 1 else -1
  head := 0
  tail := n - 1

theorem segment_range' {n : ℕ} (a k : ℕ) (hk : a + k = n) :
    Segment (inOrder n).prev (inOrder n).next (a - 1) (List.range' a k) (-1) := by
  induction k generalizing a with
  | zero => trivial
  | succ k ih =>
    rw [List.range'_succ]
    refine ⟨rfl, ?_, ?_⟩
    · simp only [inOrder]
      cases k with
      | zero => exact if_neg (by omega)
      | succ k => exact (if_pos (by omega)).trans (by simp [List.range'_succ, firstOr])
    · have hrest := ih (a + 1) (by omega)
      rwa [Nat.cast_add_one, add_sub_cancel_right] at hrest

theorem inOrder_represents {n : ℕ} (hn : 0 < n) :
    (inOrder n).Represents (List.range n) := by
  obtain ⟨k, rfl⟩ := Nat.exists_eq_add_of_lt hn
  refine ⟨List.nodup_range, ?_, ?_, ?_⟩
  · rw [List.range_eq_range', List.range'_succ]
    rfl
  · rw [List.range_succ, lastOr_concat]
    simp [inOrder]
  · rw [List.range_eq_range']
    exact segment_range' 0 _ (Nat.zero_add _)

/-! ## Moving a slot to the end -/

def unlink (links : Links) (s : ℕ) : Links :=
  let links := if 0 ≤ links.prev s
    then { links with next := Function.update links.next (links.prev s).toNat (links.next s) }
    else { links with head := links.next s }
  { links with prev := Function.update links.prev (links.next s).toNat (links.prev s) }

def append (links : Links) (s : ℕ) : Links :=
  { prev := Function.update links.prev s links.tail
    next := Function.update (Function.update links.next s (-1)) links.tail.toNat s
    head := links.head
    tail := s }

/-- Move slot `s` to the tail. -/
def touch (links : Links) (s : ℕ) : Links :=
  if (s : ℤ) = links.tail then links else (links.unlink s).append s

theorem unlink_represents (h : links.Represents (xs ++ s :: ys)) (hys : ys ≠ []) :
    (links.unlink s).Represents (xs ++ ys) := by
  obtain ⟨y, ys, rfl⟩ := List.exists_cons_of_ne_nil hys
  obtain ⟨hnodup, hhead, htail, hsegment⟩ := h
  have hnodup' : (xs ++ y :: ys).Nodup :=
    hnodup.sublist ((List.sublist_cons_self s _).append_left xs)
  have hy : ∀ u ∈ ys, u ≠ y := fun u hu heq =>
    (List.nodup_cons.mp hnodup'.of_append_right).1 (heq ▸ hu)
  have hxy : ∀ u ∈ xs, u ≠ y := fun u hu heq =>
    List.disjoint_of_nodup_append hnodup' hu (heq ▸ List.mem_cons_self)
  obtain ⟨hxs, hprev, hnext, hrest⟩ := segment_append.1 hsegment
  have htail' : links.tail = lastOr (-1) (xs ++ y :: ys) := by
    rw [htail, lastOr_append, lastOr_append]
    rfl
  have hnexty : (links.next s).toNat = y := by
    rw [hnext]
    exact Int.toNat_natCast y
  have hback : ∀ u ∈ ys, Function.update links.prev y (links.prev s) u = links.prev u :=
    fun u hu => Function.update_of_ne (hy u hu) _ _
  rcases List.eq_nil_or_concat xs with rfl | ⟨zs, z, rfl⟩
  · have hfirst : ¬ 0 ≤ links.prev s := by
      rw [hprev]
      exact of_decide_eq_false rfl
    rw [unlink, if_neg hfirst]
    simp only [hnexty]
    refine ⟨hnodup', hnext, htail', ?_⟩
    exact hrest.precede hback ((Function.update_self ..).trans hprev)
  · rw [List.concat_eq_append] at *
    have hz : links.prev s = z := hprev.trans (lastOr_concat _ _ _)
    have hinner : 0 ≤ links.prev s := hz ▸ Int.natCast_nonneg z
    have hzs : ∀ u ∈ zs, u ≠ z := fun u hu heq =>
      List.disjoint_of_nodup_append (hnodup'.of_append_left) hu (heq ▸ List.mem_singleton_self z)
    have hzy : ∀ u ∈ y :: ys, u ≠ z := fun u hu heq =>
      List.disjoint_of_nodup_append hnodup' (by simp) (heq ▸ hu)
    have hsz : s ≠ z := fun heq =>
      List.disjoint_of_nodup_append hnodup (List.mem_append_right zs (List.mem_singleton_self z))
        (heq ▸ List.mem_cons_self)
    have hnext' : ∀ u, u ≠ z →
        Function.update links.next z (links.next s) u = links.next u :=
      fun u hu => Function.update_of_ne hu _ _
    rw [unlink, if_pos hinner]
    simp only [hz, Int.toNat_natCast, hnext' s hsz, hnexty]
    refine ⟨hnodup', ?_, htail', segment_append.2 ⟨?_, ?_⟩⟩
    · have hfront : zs ++ [z] ≠ [] := List.concat_ne_nil z zs
      rw [hhead, firstOr_append (zs ++ [z]), firstOr_append (zs ++ [z])]
      exact firstOr_of_ne_nil hfront _ _
    · refine Segment.congr (hxs.redirect (fun u hu => hnext' u (hzs u hu)) ?_)
        (fun u hu => Function.update_of_ne (hxy u hu) _ _) fun _ _ => rfl
      exact (Function.update_self ..).trans hnext
    · rw [lastOr_concat]
      refine Segment.congr (hrest.precede hback ((Function.update_self ..).trans hz)) ?_
        fun u hu => hnext' u (hzy u hu)
      intro u _
      rw [hz]

theorem append_represents (h : links.Represents order) (hne : order ≠ []) (hs : s ∉ order) :
    (links.append s).Represents (order ++ [s]) := by
  obtain ⟨hnodup, hhead, htail, hsegment⟩ := h
  obtain ⟨l, t, rfl⟩ := (List.eq_nil_or_concat order).resolve_left hne
  rw [List.concat_eq_append] at *
  rw [lastOr_concat] at htail
  have hst : s ≠ t := fun heq => hs (by simp [heq])
  have hl : ∀ u ∈ l, u ≠ t := fun u hu heq =>
    List.disjoint_of_nodup_append hnodup hu (heq ▸ List.mem_singleton_self t)
  have hfresh : ∀ u ∈ l ++ [t], u ≠ s := fun u hu heq => hs (heq ▸ hu)
  have hnext : ∀ u ∈ l, Function.update (Function.update links.next s (-1)) t (s : ℤ) u =
      links.next u := fun u hu => by
    rw [Function.update_of_ne (hl u hu), Function.update_of_ne (hfresh u (by simp [hu]))]
  simp only [append, htail, Int.toNat_natCast]
  refine ⟨?_, ?_, (lastOr_concat _ _ _).symm, segment_append.2 ⟨?_, ?_, ?_, trivial⟩⟩
  · exact List.nodup_append.mpr ⟨hnodup, List.nodup_singleton s, fun u hu v hv heq =>
      hfresh u hu (heq.trans (List.mem_singleton.mp hv))⟩
  · rw [hhead, firstOr_append (l ++ [t])]
    exact firstOr_of_ne_nil hne _ _
  · refine Segment.congr (hsegment.redirect hnext (Function.update_self ..))
      (fun u hu => Function.update_of_ne (hfresh u hu) _ _) fun _ _ => rfl
  · rw [lastOr_concat]
    exact Function.update_self ..
  · exact (Function.update_of_ne hst _ _).trans (Function.update_self ..)

theorem touch_represents (h : links.Represents (xs ++ s :: ys)) :
    (links.touch s).Represents (xs ++ ys ++ [s]) := by
  by_cases hys : ys = []
  · subst hys
    have htail : (s : ℤ) = links.tail := by rw [h.tail_eq, lastOr_concat]
    rw [touch, if_pos htail, List.append_nil]
    exact h
  · have htail : (s : ℤ) ≠ links.tail := by
      obtain ⟨l, t, rfl⟩ := (List.eq_nil_or_concat ys).resolve_left hys
      intro heq
      rw [h.tail_eq, List.concat_eq_append, ← List.cons_append, ← List.append_assoc,
        lastOr_concat] at heq
      have hcons := h.nodup.of_append_right
      exact (List.nodup_cons.mp hcons).1 (by simp [Int.ofNat_inj.mp heq])
    have hs : s ∉ xs ++ ys := by
      have hmiddle := List.nodup_middle.mp h.nodup
      exact (List.nodup_cons.mp hmiddle).1
    rw [touch, if_neg htail]
    exact append_represents (unlink_represents h hys) (by simp [hys]) hs

/-! ## The same on lists -/

def toBack (order : List ℕ) (s : ℕ) : List ℕ := order.erase s ++ [s]

theorem touch_toBack (h : links.Represents order) (hs : s ∈ order) :
    (links.touch s).Represents (toBack order s) := by
  obtain ⟨xs, ys, rfl⟩ := List.append_of_mem hs
  have hxs : s ∉ xs := fun hmem =>
    List.disjoint_of_nodup_append h.nodup hmem List.mem_cons_self
  rw [toBack, List.erase_append_right _ hxs, List.erase_cons_head]
  exact touch_represents h

theorem toBack_perm (hs : s ∈ order) : (toBack order s).Perm order :=
  (List.perm_append_singleton s _).trans (List.perm_cons_erase hs).symm

theorem foldl_toBack_perm {hits : List ℕ} (hsub : ∀ s ∈ hits, s ∈ order) :
    (hits.foldl toBack order).Perm order := by
  induction hits generalizing order with
  | nil => exact List.Perm.refl order
  | cons s hits ih =>
    rw [List.forall_mem_cons] at hsub
    have hs := toBack_perm hsub.1
    exact (ih fun t ht => hs.mem_iff.mpr (hsub.2 t ht)).trans hs

theorem foldl_touch (h : links.Represents order) {hits : List ℕ} (hsub : ∀ s ∈ hits, s ∈ order) :
    (hits.foldl touch links).Represents (hits.foldl toBack order) := by
  induction hits generalizing links order with
  | nil => exact h
  | cons s hits ih =>
    rw [List.forall_mem_cons] at hsub
    exact ih (touch_toBack h hsub.1) fun t ht => (toBack_perm hsub.1).mem_iff.mpr (hsub.2 t ht)

theorem foldl_toBack (hnodup : order.Nodup) {hits : List ℕ} (hhits : hits.Nodup)
    (hsub : ∀ s ∈ hits, s ∈ order) :
    hits.foldl toBack order = order.filter (· ∉ hits) ++ hits := by
  induction hits generalizing order with
  | nil => simp
  | cons s hits ih =>
    rw [List.forall_mem_cons] at hsub
    obtain ⟨hs, hhits⟩ := List.nodup_cons.mp hhits
    have hback : (toBack order s).Nodup := (toBack_perm hsub.1).nodup_iff.mpr hnodup
    rw [List.foldl_cons, ih hback hhits fun t ht => (toBack_perm hsub.1).mem_iff.mpr (hsub.2 t ht),
      toBack, List.filter_append, hnodup.erase_eq_filter, List.filter_filter]
    have hlast : [s].filter (· ∉ hits) = [s] := List.filter_eq_self.mpr fun t ht => by
      rw [List.mem_singleton.mp ht]
      exact decide_eq_true hs
    rw [hlast, List.append_assoc, List.singleton_append]
    congr 1
    refine List.filter_congr fun t _ => ?_
    rw [Bool.eq_iff_iff]
    simp only [Bool.and_eq_true, decide_eq_true_eq, bne_iff_ne, List.mem_cons]
    tauto

end Links
end RocmFpx
