import RocmFpx.RecurrentLaws

/-!
The first two loops of `find_slot`: the ids after the first one of a set give up their cells, and
each first id gets a cell of its own, an empty one when it has none or shares its cell.
-/

namespace RocmFpx
namespace MemoryRecurrent

variable {p : RecurrentParams} {m m' : MemoryRecurrent p} {q i : ℕ}

/-! ## Clearing shared ids -/

/-- An id that has a cell. -/
def InRange (p : RecurrentParams) (id : ℤ) : Prop := 0 ≤ id ∧ id < p.size

theorem InRange.toNat_lt {id : ℤ} (h : InRange p id) : id.toNat < p.size := by
  obtain ⟨h0, h1⟩ := h
  omega

def releaseAll (m : MemoryRecurrent p) (qs : List ℕ) : MemoryRecurrent p := qs.foldl release m

theorem clearIds_ok (m : MemoryRecurrent p) (first : Bool) (ids : List ℤ) :
    (clearIds m first ids).2 = true ↔ ∀ id ∈ ids, InRange p id := by
  induction ids generalizing m first with
  | nil => exact iff_of_true rfl fun _ h => absurd h List.not_mem_nil
  | cons id ids ih =>
    rw [List.forall_mem_cons, clearIds]
    split_ifs with hout
    · refine iff_of_false not_false fun h => ?_
      obtain ⟨h0, h1⟩ := h.1
      omega
    all_goals
      rw [ih]
      exact (and_iff_right ⟨by omega, by omega⟩).symm

theorem clearIds_later {ids : List ℤ} (h : ∀ id ∈ ids, InRange p id) (m : MemoryRecurrent p) :
    (clearIds m false ids).1 = m.releaseAll (ids.map Int.toNat) := by
  induction ids generalizing m with
  | nil => rfl
  | cons id ids ih =>
    obtain ⟨⟨h0, h1⟩, hids⟩ := List.forall_mem_cons.mp h
    rw [clearIds, if_neg (by omega), if_neg Bool.false_ne_true, ih hids]
    rfl

theorem clearIds_first {ids : List ℤ} (h : ∀ id ∈ ids, InRange p id) (m : MemoryRecurrent p) :
    (clearIds m true ids).1 = m.releaseAll (ids.tail.map Int.toNat) := by
  cases ids with
  | nil => rfl
  | cons id ids =>
    obtain ⟨⟨h0, h1⟩, hids⟩ := List.forall_mem_cons.mp h
    rw [clearIds, if_neg (by omega), if_pos rfl, clearIds_later hids]
    rfl

/-- The ids after the first one of each set. -/
def laterIds (sets : List (List ℤ)) : List ℕ := sets.flatMap fun ids => ids.tail.map Int.toNat

theorem clearShared_ok (m : MemoryRecurrent p) (sets : List (List ℤ)) :
    (clearShared m sets).2 = true ↔ ∀ ids ∈ sets, ∀ id ∈ ids, InRange p id := by
  induction sets generalizing m with
  | nil => exact iff_of_true rfl fun _ h => absurd h List.not_mem_nil
  | cons ids sets ih =>
    rw [List.forall_mem_cons, clearShared]
    by_cases hids : (clearIds m true ids).2 = true
    · simp only [if_pos hids]
      rw [ih, and_iff_right ((clearIds_ok m true ids).mp hids)]
    · simp only [if_neg hids]
      exact iff_of_false hids fun h => hids ((clearIds_ok m true ids).mpr h.1)

theorem clearShared_eq {sets : List (List ℤ)} (h : ∀ ids ∈ sets, ∀ id ∈ ids, InRange p id)
    (m : MemoryRecurrent p) : (clearShared m sets).1 = m.releaseAll (laterIds sets) := by
  induction sets generalizing m with
  | nil => rfl
  | cons ids sets ih =>
    obtain ⟨hids, hsets⟩ := List.forall_mem_cons.mp h
    rw [clearShared]
    simp only [if_pos ((clearIds_ok m true ids).mpr hids)]
    rw [ih hsets, clearIds_first hids]
    exact List.foldl_append.symm

theorem clearIds_rule {P : MemoryRecurrent p → Prop}
    (keep : ∀ m q, q < p.size → P m → P (m.release q)) {m : MemoryRecurrent p} (hm : P m)
    (first : Bool) (ids : List ℤ) : P (clearIds m first ids).1 := by
  induction ids generalizing m first with
  | nil => exact hm
  | cons id ids ih =>
    rw [clearIds]
    split_ifs with hout
    · exact hm
    · exact ih hm false
    · exact ih (keep m id.toNat (by omega) hm) false

theorem clearShared_rule {P : MemoryRecurrent p → Prop}
    (keep : ∀ m q, q < p.size → P m → P (m.release q)) {m : MemoryRecurrent p} (hm : P m)
    (sets : List (List ℤ)) : P (clearShared m sets).1 := by
  induction sets generalizing m with
  | nil => exact hm
  | cons ids sets ih =>
    have hids := clearIds_rule keep hm true ids
    rw [clearShared]
    split_ifs
    · exact ih hids
    · exact hids

theorem releaseAll_tails (h : m.Settled) {qs : List ℕ} (hqs : ∀ q ∈ qs, q < p.size) (r : ℕ) :
    (m.releaseAll qs).tails r = if r ∈ qs then -1 else m.tails r := by
  induction qs generalizing m with
  | nil => exact (if_neg List.not_mem_nil).symm
  | cons q qs ih =>
    obtain ⟨hq, hqs⟩ := List.forall_mem_cons.mp hqs
    refine (ih (release_settled h hq) hqs).trans ?_
    by_cases hr : r ∈ qs
    · rw [if_pos hr, if_pos (List.mem_cons_of_mem q hr)]
    · rw [if_neg hr]
      by_cases hrq : r = q
      · rw [hrq, release_tail h hq, if_pos List.mem_cons_self]
      · rw [release_tails_of_ne h hq hrq, if_neg (by simp [hr, hrq])]

/-! ## Seeking an empty cell -/

theorem wrap_eq {i : ℕ} (hi : i ≤ p.size) : wrap p i = i % p.size := by
  rw [wrap]
  split_ifs with hle
  · rw [le_antisymm hi hle, Nat.sub_self, Nat.mod_self]
  · rw [Nat.mod_eq_of_lt (by omega)]

theorem seekFrom_eq {fuel d : ℕ} (hi : i ≤ p.size) (hd : d < fuel)
    (hempty : m.ids ((i + d) % p.size) = ∅)
    (hbefore : ∀ k < d, m.ids ((i + k) % p.size) ≠ ∅) :
    m.seekFrom fuel i = (i + d) % p.size := by
  induction fuel generalizing i d with
  | zero => exact absurd hd (Nat.not_lt_zero d)
  | succ fuel ih =>
    rw [seekFrom, wrap_eq hi]
    cases d with
    | zero => exact if_pos hempty
    | succ d =>
      refine (if_neg (hbefore 0 (Nat.succ_pos d))).trans ?_
      have hstep : ∀ k, (i % p.size + 1 + k) % p.size = (i + (k + 1)) % p.size := fun k => by
        rw [Nat.add_assoc, Nat.mod_add_mod, Nat.add_comm 1 k]
      have hmod := Nat.mod_lt i (size_pos p)
      rw [← hstep] at hempty ⊢
      refine ih (by omega) (by omega) hempty fun k hk => ?_
      rw [hstep]
      exact hbefore (k + 1) (by omega)

theorem seekAfter_eq {fuel d : ℕ} (hi : i < p.size) (hd : d < fuel)
    (hempty : m.ids ((i + 1 + d) % p.size) = ∅)
    (hbefore : ∀ k < d, m.ids ((i + 1 + k) % p.size) ≠ ∅) :
    m.seekAfter fuel i = (i + 1 + d) % p.size := by
  induction fuel generalizing i d with
  | zero => exact absurd hd (Nat.not_lt_zero d)
  | succ fuel ih =>
    rw [seekAfter, wrap_eq hi]
    cases d with
    | zero => exact if_pos hempty
    | succ d =>
      refine (if_neg (hbefore 0 (Nat.succ_pos d))).trans ?_
      have hstep : ∀ k, ((i + 1) % p.size + 1 + k) % p.size = (i + 1 + (k + 1)) % p.size :=
        fun k => by rw [Nat.add_assoc, Nat.mod_add_mod, Nat.add_comm 1 k]
      rw [← hstep] at hempty ⊢
      refine ih (Nat.mod_lt _ (size_pos p)) (by omega) hempty fun k hk => ?_
      rw [hstep]
      exact hbefore (k + 1) (by omega)

/-! ## Giving a sequence its own cell -/

/-- A cell that no sequence points to. -/
def Free (m : MemoryRecurrent p) (c : ℕ) : Prop := owners p.size m.tails c = ∅

/-- What one turn of the second loop does to a sequence that shares cell `t`. -/
structure Split (m : MemoryRecurrent p) (q t e : ℕ) (m' : MemoryRecurrent p) : Prop where
  ids_eq : ∀ c, m'.ids c =
    if c = e then {q} else if c = t then (m.ids t).erase q else m.ids c
  tails_eq : ∀ r, m'.tails r = if r = q then (e : ℤ) else m.tails r
  pos_eq : ∀ c, (m'.cells c).pos = if c = e then (m.cells t).pos else (m.cells c).pos
  src_eq : ∀ c, (m'.cells c).src = if c = e then (m.cells t).src else (m.cells c).src

/-- Cell `e` gets the position and the source of cell `t`, and sequence `q` from its list. -/
def moveTo (m : MemoryRecurrent p) (q t e : ℕ) : MemoryRecurrent p :=
  ((m.modify e fun c => { c with pos := (m.cells t).pos, src := (m.cells t).src }).modify t
    fun c => { c with seqId := c.seqId.erase q }).modify e
    fun c => { c with seqId := insert q c.seqId }

theorem moveTo_ids {t e : ℕ} (hne : e ≠ t) (hempty : m.ids e = ∅) (c : ℕ) :
    (m.moveTo q t e).ids c =
      if c = e then {q} else if c = t then (m.ids t).erase q else m.ids c := by
  have hcopied : ∀ c, (m.modify e fun c => { c with
      pos := (m.cells t).pos, src := (m.cells t).src }).ids c = m.ids c := fun c =>
    modify_keeps MemCell.seqId e c fun _ => rfl
  rw [moveTo, modify_ids]
  split_ifs with hce hct
  · have hbefore := hcopied e
    rw [ids] at hbefore
    simp only [modify_cells (i := t), if_neg hne, hbefore, hempty]
    rfl
  · rw [modify_ids, if_pos hct]
    exact congrArg (fun s => Finset.erase s q) (hcopied t)
  · rw [modify_ids, if_neg hct, hcopied]

theorem moveTo_view {α : Type*} (view : MemCell → α)
    (hview : ∀ c s, view { c with seqId := s } = view c) (t e c : ℕ) :
    view ((m.moveTo q t e).cells c) =
      if c = e then view { m.cells e with pos := (m.cells t).pos, src := (m.cells t).src }
      else view (m.cells c) := by
  rw [moveTo, modify_keeps view e c fun _ => hview _ _, modify_keeps view t c fun _ => hview _ _,
    modify_cells]
  split_ifs <;> rfl

theorem claim_shared {t e : ℕ} (htail : m.tails q = t) (hne : e ≠ t) (hempty : m.ids e = ∅)
    (hrest : (m.ids t).erase q ≠ ∅) : ∃ m', m.claim q e = some m' ∧ Split m q t e m' := by
  have hcell : (m.cells q).tail = t := htail
  have hcellEmpty : ¬ (m.cells e).seqId ≠ ∅ := not_not.mpr hempty
  have hleft : (m.moveTo q t e).ids t = (m.ids t).erase q := by
    rw [moveTo_ids hne hempty, if_neg hne.symm, if_pos rfl]
  refine ⟨(m.moveTo q t e).setTail q e, ?_, ?_, ?_, ?_, ?_⟩
  · rw [claim, if_neg hcellEmpty, if_pos (by omega)]
    simp only [hcell, Int.toNat_natCast]
    exact if_neg fun hnone => hrest (hleft.symm.trans hnone)
  · exact fun c => (setTail_ids q e c).trans (moveTo_ids hne hempty c)
  · intro r
    rw [setTail_tails, tails, moveTo_view MemCell.tail fun _ _ => rfl]
    refine if_congr Iff.rfl rfl ?_
    split_ifs with hre
    · rw [hre]
      rfl
    · rfl
  · intro c
    rw [setTail_pos, moveTo_view MemCell.pos fun _ _ => rfl]
  · intro c
    rw [setTail_src, moveTo_view MemCell.src fun _ _ => rfl]

theorem claim_new {e : ℕ} (htail : m.tails q = -1) (hempty : m.ids e = ∅) :
    m.claim q e = some (m.setTail q e) := by
  have hcell : (m.cells q).tail = -1 := htail
  have hcellEmpty : ¬ (m.cells e).seqId ≠ ∅ := not_not.mpr hempty
  rw [claim, if_neg hcellEmpty, if_neg (by omega)]

/-- How far the second loop has come from memory `m₁`: the sequences in `done` have a cell of
their own between `lo` and `hi`, which does not list a new sequence yet. -/
structure Placing (m₁ : MemoryRecurrent p) (done : Finset ℕ) (m : MemoryRecurrent p) (lo hi : ℤ) :
    Prop where
  tail_range : ∀ q < p.size, m.tails q = -1 ∨ ∃ c < p.size, m.tails q = (c : ℤ)
  listed : ∀ c < p.size, m.ids c = owners p.size m.tails c ∨
    m.ids c = ∅ ∧ ∃ q ∈ done, owners p.size m.tails c = {q}
  placed : ∀ q ∈ done, ∃ c < p.size, owners p.size m.tails c = {q} ∧ lo ≤ c ∧ c ≤ hi
  others : ∀ q, q ∉ done → m.tails q = m₁.tails q
  src_out : ∀ c < p.size, (c : ℤ) < lo ∨ hi < c → (m.cells c).src = -1 ∨ (m.cells c).src = c
  lo_nonneg : 0 ≤ lo
  hi_lt : hi < p.size
  state : m₁.Sourced → ∀ q < p.size, ∀ t : ℕ, m₁.tails q = t →
    ∃ c < p.size, m.tails q = c ∧ (m.cells c).src = t
  pos_iff : m₁.Counted → ∀ c < p.size, 0 ≤ (m.cells c).pos ↔ (m.ids c).Nonempty

namespace Placing

variable {m₁ : MemoryRecurrent p} {done : Finset ℕ} {lo hi : ℤ} {t e : ℕ}

theorem start (h : m₁.Settled) : Placing m₁ ∅ m₁ (p.size - 1) 0 where
  tail_range := h.owned.tail_range
  listed c hc := .inl (h.owned.ids_eq c hc)
  placed q hq := absurd hq (Finset.notMem_empty q)
  others _ _ := rfl
  src_out c hc _ := h.src_self c hc
  lo_nonneg := by
    have hpos := size_pos p
    omega
  hi_lt := by
    have hpos := size_pos p
    omega
  state hs q hq t htail := by
    obtain ⟨ht, hmem⟩ := h.tail_lt hq (by omega)
    rw [htail, Int.toNat_natCast] at ht hmem
    exact ⟨t, ht, htail, hs t ht ⟨q, hmem⟩⟩
  pos_iff hc := hc.pos_iff

theorem ids_of_owner (h : Placing m₁ done m lo hi) (hqd : q ∉ done) (ht : t < p.size)
    (hq : q ∈ owners p.size m.tails t) : m.ids t = owners p.size m.tails t := by
  rcases h.listed t ht with heq | ⟨-, r, hr, heq⟩
  · exact heq
  · rw [heq, Finset.mem_singleton] at hq
    exact absurd (hq ▸ hr) hqd

theorem ids_of_free (h : Placing m₁ done m lo hi) (he : e < p.size) (hfree : m.Free e) :
    m.ids e = ∅ := by
  rcases h.listed e he with heq | ⟨heq, -⟩
  · exact heq.trans hfree
  · exact heq

theorem stay (h : Placing m₁ done m lo hi) (hq : q < p.size) (hqd : q ∉ done) (howns : m.owns q) :
    Placing m₁ (insert q done) m (min lo (m.tails q)) (max hi (m.tails q)) := by
  obtain ⟨htail, hcard⟩ := howns
  change 0 ≤ m.tails q at htail
  change (m.ids (m.tails q).toNat).card = 1 at hcard
  obtain ⟨t, ht, heq⟩ := (h.tail_range q hq).resolve_left (by omega)
  rw [heq, Int.toNat_natCast] at hcard
  rw [heq]
  have hown := mem_owners.2 ⟨hq, heq⟩
  have hlisted := h.ids_of_owner hqd ht hown
  have hone : owners p.size m.tails t = {q} := by
    rw [hlisted, Finset.card_eq_one] at hcard
    obtain ⟨r, hr⟩ := hcard
    rw [hr, Finset.mem_singleton] at hown
    rw [hr, hown]
  exact
    { tail_range := h.tail_range
      listed := fun c hc => (h.listed c hc).imp_right fun ⟨hids, r, hr, howner⟩ =>
        ⟨hids, r, Finset.mem_insert_of_mem hr, howner⟩
      placed := fun r hr => by
        rcases Finset.mem_insert.mp hr with rfl | hr
        · exact ⟨t, ht, hone, min_le_right .., le_max_right ..⟩
        · obtain ⟨c, hc, howner, hlo, hhi⟩ := h.placed r hr
          exact ⟨c, hc, howner, (min_le_left ..).trans hlo, hhi.trans (le_max_left ..)⟩
      others := fun r hr => h.others r fun hmem => hr (Finset.mem_insert_of_mem hmem)
      src_out := fun c hc hout => h.src_out c hc (by omega)
      lo_nonneg := le_min h.lo_nonneg (by omega)
      hi_lt := max_lt h.hi_lt (by omega)
      state := h.state
      pos_iff := h.pos_iff }

theorem point (h : Placing m₁ done m lo hi) (hq : q < p.size) (hqd : q ∉ done) (he : e < p.size)
    (hfree : m.Free e) (hshared : ∀ c < p.size, owners p.size m.tails c ≠ {q})
    (htails : ∀ r, m'.tails r = if r = q then (e : ℤ) else m.tails r)
    (hlist : m'.ids e = {q} ∨ m'.ids e = ∅) (hids : ∀ c < p.size, c ≠ e → m'.ids c = (m.ids c).erase q)
    (hsrc : ∀ c, c ≠ e → (m'.cells c).src = (m.cells c).src)
    (hpos : ∀ c, c ≠ e → (m'.cells c).pos = (m.cells c).pos)
    (hstate : m₁.Sourced → ∀ t : ℕ, m₁.tails q = t → (m'.cells e).src = t)
    (hcount : m₁.Counted → (0 ≤ (m'.cells e).pos ↔ (m'.ids e).Nonempty)) :
    Placing m₁ (insert q done) m' (min lo e) (max hi e) := by
  have hown := owners_move hq htails
  have hownE : owners p.size m'.tails e = {q} := by
    rw [hown, if_pos rfl, hfree]
    rfl
  have halone : ∀ r ∈ done, ({r} : Finset ℕ).erase q = {r} := fun r hr =>
    Finset.erase_eq_of_notMem fun hmem => by
      rw [Finset.mem_singleton] at hmem
      exact hqd (hmem ▸ hr)
  have hids' : ∀ c < p.size, c ≠ e → m'.ids c = owners p.size m'.tails c ∨
      m'.ids c = ∅ ∧ ∃ r ∈ done, owners p.size m'.tails c = {r} := fun c hc hne => by
    rw [hids c hc hne, hown, if_neg hne]
    rcases h.listed c hc with heq | ⟨heq, r, hr, howner⟩
    · exact .inl (by rw [heq])
    · refine .inr ⟨by rw [heq, Finset.erase_empty], r, hr, ?_⟩
      rw [howner, halone r hr]
  exact
    { tail_range := fun r hr => by
        rw [htails]
        split_ifs
        · exact .inr ⟨e, he, rfl⟩
        · exact h.tail_range r hr
      listed := fun c hc => by
        by_cases hce : c = e
        · rw [hce, hownE]
          exact hlist.imp_right fun hnone => ⟨hnone, q, Finset.mem_insert_self q done, rfl⟩
        · exact (hids' c hc hce).imp_right fun ⟨hnone, r, hr, howner⟩ =>
            ⟨hnone, r, Finset.mem_insert_of_mem hr, howner⟩
      placed := fun r hr => by
        rcases Finset.mem_insert.mp hr with rfl | hr
        · exact ⟨e, he, hownE, min_le_right .., le_max_right ..⟩
        · obtain ⟨c, hc, howner, hlo, hhi⟩ := h.placed r hr
          have hce : c ≠ e := fun hce => by
            rw [hce, hfree] at howner
            exact Finset.singleton_ne_empty r howner.symm
          refine ⟨c, hc, ?_, (min_le_left ..).trans hlo, hhi.trans (le_max_left ..)⟩
          rw [hown, if_neg hce, howner, halone r hr]
      others := fun r hr => by
        rw [Finset.mem_insert, not_or] at hr
        rw [htails, if_neg hr.1, h.others r hr.2]
      src_out := fun c hc hout => by
        rw [hsrc c (by omega)]
        exact h.src_out c hc (by omega)
      lo_nonneg := le_min h.lo_nonneg (by omega)
      hi_lt := max_lt h.hi_lt (by omega)
      state := fun hs r hr t htail => by
        rw [htails]
        by_cases hrq : r = q
        · subst hrq
          exact ⟨e, he, if_pos rfl, hstate hs t htail⟩
        · obtain ⟨c, hc, htail', hsrc'⟩ := h.state hs r hr t htail
          have hce : c ≠ e := fun hce => by
            have hmem := mem_owners.2 ⟨hr, htail'⟩
            rw [hce, hfree] at hmem
            exact Finset.notMem_empty r hmem
          exact ⟨c, hc, by rw [if_neg hrq, htail'], by rw [hsrc c hce, hsrc']⟩
      pos_iff := fun hcnt c hc => by
        by_cases hce : c = e
        · rw [hce]
          exact hcount hcnt
        · rw [hpos c hce, h.pos_iff hcnt c hc, hids c hc hce]
          refine ⟨fun hne => Finset.nonempty_iff_ne_empty.mpr fun hnone => ?_,
            fun hne => hne.mono (Finset.erase_subset q _)⟩
          -- the cell listed `q` alone
          have honly := ((Finset.erase_eq_empty_iff _ _).mp hnone).resolve_left hne.ne_empty
          have hmem : q ∈ owners p.size m.tails c := by
            rcases h.listed c hc with heq | ⟨heq, -⟩
            · rw [← heq, honly]
              exact Finset.mem_singleton_self q
            · rw [heq] at honly
              exact absurd honly.symm (Finset.singleton_ne_empty q)
          exact hshared c hc ((h.ids_of_owner hqd hc hmem).symm.trans honly) }

theorem notMem_ids (h : Placing m₁ done m lo hi) {c : ℕ} (hc : c < p.size)
    (hne : m.tails q ≠ c) : q ∉ m.ids c := by
  rcases h.listed c hc with heq | ⟨heq, -⟩
  · rw [heq]
    exact fun hmem => hne (mem_owners.1 hmem).2
  · rw [heq]
    exact Finset.notMem_empty q

/-- A sequence without a cell of its own: no cell is pointed to by it alone. -/
theorem not_alone (h : Placing m₁ done m lo hi) (hqd : q ∉ done)
    (howns : ¬ m.owns q) {c : ℕ} (hc : c < p.size) : owners p.size m.tails c ≠ {q} := by
  intro halone
  have hmem : q ∈ owners p.size m.tails c := by
    rw [halone]
    exact Finset.mem_singleton_self q
  have htail : (m.cells q).tail = c := (mem_owners.1 hmem).2
  refine howns ⟨by omega, ?_⟩
  rw [htail, Int.toNat_natCast]
  exact Finset.card_eq_one.mpr ⟨q, (h.ids_of_owner hqd hc hmem).trans halone⟩

theorem split (h : Placing m₁ done m lo hi) (hq : q < p.size) (hqd : q ∉ done)
    (howns : ¬ m.owns q) (ht : t < p.size) (htail : m.tails q = t) (he : e < p.size)
    (hfree : m.Free e) (hs : Split m q t e m') :
    Placing m₁ (insert q done) m' (min lo e) (max hi e) := by
  have hlist : m'.ids e = {q} := by rw [hs.ids_eq, if_pos rfl]
  have howner := mem_owners.2 ⟨hq, htail⟩
  refine h.point hq hqd he hfree (fun c hc => h.not_alone hqd howns hc) hs.tails_eq (.inl hlist)
    (fun c hc hce => ?_) (fun c hce => by rw [hs.src_eq, if_neg hce])
    (fun c hce => by rw [hs.pos_eq, if_neg hce]) (fun hsrc r htail₁ => ?_) fun hcount => ?_
  · rw [hs.ids_eq, if_neg hce]
    split_ifs with hct
    · rw [hct]
    · refine (Finset.erase_eq_of_notMem (h.notMem_ids hc fun heq => hct ?_)).symm
      exact Int.ofNat_inj.mp (heq.symm.trans htail)
  · obtain ⟨c, -, htail', hsrc'⟩ := h.state hsrc q hq r htail₁
    rw [hs.src_eq, if_pos rfl, ← Int.ofNat_inj.mp (htail'.symm.trans htail), hsrc']
  · rw [hs.pos_eq, if_pos rfl, hlist, h.pos_iff hcount t ht, h.ids_of_owner hqd ht howner]
    exact iff_of_true ⟨q, howner⟩ (Finset.singleton_nonempty q)

theorem take (h : Placing m₁ done m lo hi) (hq : q < p.size) (hqd : q ∉ done)
    (htail : m.tails q = -1) (he : e < p.size) (hfree : m.Free e) :
    Placing m₁ (insert q done) (m.setTail q e) (min lo e) (max hi e) := by
  have hnot : ∀ c : ℕ, m.tails q ≠ c := fun c => by omega
  have hempty := h.ids_of_free he hfree
  refine h.point hq hqd he hfree (fun c hc halone => ?_) (setTail_tails q e)
    (.inr (by rw [setTail_ids, hempty])) (fun c hc _ => ?_) (fun c _ => setTail_src q e c)
    (fun c _ => setTail_pos q e c) (fun _ r htail₁ => ?_) fun hcount => ?_
  · have hmem : q ∈ owners p.size m.tails c := by
      rw [halone]
      exact Finset.mem_singleton_self q
    exact hnot c (mem_owners.1 hmem).2
  · rw [setTail_ids, Finset.erase_eq_of_notMem (h.notMem_ids hc (hnot c))]
  · rw [← h.others q hqd] at htail₁
    exact absurd htail₁ (hnot r)
  · rw [setTail_pos, setTail_ids, h.pos_iff hcount e he]

end Placing

/-! ## The second loop -/

/-- Cell `e` is the first free one from `e₀` on, when there is any, and what lies between is
taken. -/
def Seeking (e₀ : ℕ) (m : MemoryRecurrent p) (e : ℕ) : Prop :=
  (∃ f < p.size, m.Free f) → ∃ k < p.size, e = (e₀ + k) % p.size ∧ m.Free e ∧
    (∀ j < k, ¬ m.Free ((e₀ + j) % p.size)) ∧
    ∀ c < p.size, m.ids c = ∅ → m.Free c ∨ ∃ j < k, c = (e₀ + j) % p.size

theorem exists_first_free {e₀ f : ℕ} (he₀ : e₀ < p.size) (hf : f < p.size) (hfree : m.Free f) :
    ∃ k < p.size, m.Free ((e₀ + k) % p.size) ∧ ∀ j < k, ¬ m.Free ((e₀ + j) % p.size) := by
  classical
  obtain ⟨k, hk, hkf⟩ := exists_ring he₀ hf
  have hex : ∃ k, m.Free ((e₀ + k) % p.size) := ⟨k, by rwa [hkf]⟩
  exact ⟨Nat.find hex, lt_of_le_of_lt (Nat.find_min' hex (by rwa [hkf])) hk, Nat.find_spec hex,
    fun j hj => Nat.find_min hex hj⟩

theorem Seeking.start (h : m.Settled) : Seeking m.head m (m.seekFrom p.size m.head) := by
  rintro ⟨f, hf, hfree⟩
  have hiff : ∀ c < p.size, m.Free c ↔ m.ids c = ∅ := fun c hc => by
    rw [h.owned.ids_eq c hc, Free]
  obtain ⟨k, hk, hkfree, hbefore⟩ := exists_first_free h.head_lt hf hfree
  have hmod := fun j => Nat.mod_lt (m.head + j) (size_pos p)
  have hseek : m.seekFrom p.size m.head = (m.head + k) % p.size :=
    seekFrom_eq h.head_lt.le hk ((hiff _ (hmod k)).mp hkfree) fun j hj hempty =>
      hbefore j hj ((hiff _ (hmod j)).mpr hempty)
  exact ⟨k, hk, hseek, hseek ▸ hkfree, hbefore, fun c hc hempty => .inl ((hiff c hc).mpr hempty)⟩

theorem Seeking.next {e₀ e : ℕ} (h : Seeking e₀ m e) (he₀ : e₀ < p.size)
    (hfree : ∀ c < p.size, m'.Free c ↔ m.Free c ∧ c ≠ e)
    (hids : ∀ c < p.size, m'.ids c = ∅ → m.ids c = ∅ ∨ c = e)
    (hempty : ∀ c < p.size, m'.Free c → m'.ids c = ∅) :
    Seeking e₀ m' (m'.seekAfter p.size e) := by
  rintro ⟨f, hf, hff⟩
  obtain ⟨k, hk, he, -, hbefore, hknown⟩ := h ⟨f, hf, ((hfree f hf).mp hff).1⟩
  obtain ⟨l, hl, hlfree, hfirst⟩ := exists_first_free he₀ hf hff
  have hmod := fun j => Nat.mod_lt (e₀ + j) (size_pos p)
  have hkl : k < l := by
    by_contra hle
    obtain ⟨hfree', hne⟩ := (hfree _ (hmod l)).mp hlfree
    rcases Nat.lt_or_eq_of_le (not_lt.mp hle) with hlt | heq
    · exact hbefore l hlt hfree'
    · exact hne (by rw [he, heq])
  have hshift : ∀ j, (e + 1 + j) % p.size = (e₀ + (k + 1 + j)) % p.size := fun j => by
    rw [he, Nat.add_assoc, Nat.mod_add_mod]
    congr 1
    omega
  -- an empty cell that is not free was passed before
  have htaken : ∀ c < p.size, m'.ids c = ∅ → m'.Free c ∨ ∃ j < k + 1, c = (e₀ + j) % p.size := by
    intro c hc hnone
    by_cases hce : c = e
    · exact .inr ⟨k, Nat.lt_succ_self k, hce.trans he⟩
    · rcases hknown c hc ((hids c hc hnone).resolve_right hce) with hfree' | ⟨j, hj, hcj⟩
      · exact .inl ((hfree c hc).mpr ⟨hfree', hce⟩)
      · exact .inr ⟨j, by omega, hcj⟩
  have hseek : m'.seekAfter p.size e = (e₀ + l) % p.size := by
    have hl' : k + 1 + (l - k - 1) = l := by omega
    rw [seekAfter_eq (d := l - k - 1) (by rw [he]; exact hmod k) (by omega) ?_ ?_, hshift, hl']
    · rw [hshift, hl']
      exact hempty _ (hmod l) hlfree
    · intro j hj hnone
      rw [hshift] at hnone
      rcases htaken _ (hmod _) hnone with hfree' | ⟨i, hi, heq⟩
      · exact hfirst _ (by omega) hfree'
      · have := ring_inj (by omega) (by omega) heq
        omega
  refine ⟨l, hl, hseek, hseek ▸ hlfree, hfirst, fun c hc hnone => ?_⟩
  exact (htaken c hc hnone).imp_right fun ⟨j, hj, hcj⟩ => ⟨j, by omega, hcj⟩

theorem free_iff_of_move {e : ℕ} (hq : q < p.size)
    (hshared : ∀ c < p.size, owners p.size m.tails c ≠ {q})
    (htails : ∀ r, m'.tails r = if r = q then (e : ℤ) else m.tails r) (c : ℕ) (hc : c < p.size) :
    m'.Free c ↔ m.Free c ∧ c ≠ e := by
  rw [Free, Free, owners_move hq htails]
  split_ifs with hce
  · exact iff_of_false (Finset.insert_ne_empty q _) fun h => h.2 hce
  · rw [Finset.erase_eq_empty_iff, and_iff_left hce]
    exact or_iff_left (hshared c hc)

theorem Placing.claim {m₁ : MemoryRecurrent p} {done : Finset ℕ} {lo hi : ℤ} {e : ℕ}
    (h : Placing m₁ done m lo hi) (hq : q < p.size) (hqd : q ∉ done) (howns : ¬ m.owns q)
    (he : e < p.size) (hfree : m.Free e) : ∃ m', m.claim q e = some m' ∧
      Placing m₁ (insert q done) m' (min lo e) (max hi e) ∧
      (∀ r, m'.tails r = if r = q then (e : ℤ) else m.tails r) ∧
      ∀ c < p.size, m'.ids c = ∅ → m.ids c = ∅ ∨ c = e := by
  have hempty := h.ids_of_free he hfree
  rcases h.tail_range q hq with hnone | ⟨t, ht, htail⟩
  · refine ⟨_, claim_new hnone hempty, h.take hq hqd hnone he hfree, setTail_tails q e,
      fun c _ hnone => .inl ?_⟩
    rwa [setTail_ids] at hnone
  · have howner := mem_owners.2 ⟨hq, htail⟩
    have hlist := h.ids_of_owner hqd ht howner
    have hne : e ≠ t := fun heq => by
      rw [← heq, hfree] at howner
      exact Finset.notMem_empty q howner
    have hleft : (m.ids t).erase q ≠ ∅ := fun hnone => by
      rw [hlist, Finset.erase_eq_empty_iff] at hnone
      exact hnone.elim (fun hnone => Finset.notMem_empty q (hnone ▸ howner))
        (h.not_alone hqd howns ht)
    obtain ⟨m', hclaim, hsplit⟩ := claim_shared htail hne hempty hleft
    refine ⟨m', hclaim, h.split hq hqd howns ht htail he hfree hsplit, hsplit.tails_eq,
      fun c _ hnone => ?_⟩
    rw [hsplit.ids_eq] at hnone
    split_ifs at hnone with hce hct
    · exact .inr hce
    · exact absurd hnone hleft
    · exact .inl hnone

theorem Placing.hasSeqId {m₁ : MemoryRecurrent p} {done : Finset ℕ} {lo hi : ℤ}
    (h : Placing m₁ done m lo hi) (hq : q < p.size) (hqd : q ∉ done) :
    ¬ (0 ≤ (m.cells q).tail ∧ q ∉ (m.cells (m.cells q).tail.toNat).seqId) := by
  rintro ⟨htail, hnot⟩
  obtain ⟨t, ht, heq⟩ := (h.tail_range q hq).resolve_left (by rw [tails]; omega)
  have howner := mem_owners.2 ⟨hq, heq⟩
  rw [tails] at heq
  rw [heq, Int.toNat_natCast] at hnot
  rw [← h.ids_of_owner hqd ht howner] at howner
  exact hnot howner

theorem findCells_placing {m₁ : MemoryRecurrent p} {qs : List ℕ} {done : Finset ℕ} {lo hi : ℤ}
    {e₀ e : ℕ} (he₀ : e₀ < p.size) (h : Placing m₁ done m lo hi) (hseek : Seeking e₀ m e)
    (hnd : qs.Nodup) (hqs : ∀ q ∈ qs, q < p.size ∧ q ∉ done) :
    ∃ m' lo' hi', findCells m e lo hi qs = some (m', lo', hi') ∧
      Placing m₁ (done ∪ qs.toFinset) m' lo' hi' := by
  induction qs generalizing done m lo hi e with
  | nil => exact ⟨m, lo, hi, rfl, by simpa using h⟩
  | cons q qs ih =>
    obtain ⟨⟨hq, hqd⟩, hqs⟩ := List.forall_mem_cons.mp hqs
    obtain ⟨hqnot, hnd⟩ := List.nodup_cons.mp hnd
    have hrest : ∀ r ∈ qs, r < p.size ∧ r ∉ insert q done := fun r hr => by
      refine ⟨(hqs r hr).1, fun hmem => ?_⟩
      rcases Finset.mem_insert.mp hmem with rfl | hmem
      · exact hqnot hr
      · exact (hqs r hr).2 hmem
    have hunion : insert q done ∪ qs.toFinset = done ∪ (q :: qs).toFinset := by
      rw [List.toFinset_cons, Finset.insert_union, Finset.union_insert]
    rw [← hunion, findCells, if_neg (h.hasSeqId hq hqd)]
    by_cases howns : m.owns q
    · rw [if_pos howns]
      exact ih (h.stay hq hqd howns) hseek hnd hrest
    · have hshared := fun c hc => h.not_alone hqd howns (c := c) hc
      obtain ⟨f, hf, hff⟩ := exists_free hq hshared
      obtain ⟨k, hk, he, hfree, -, -⟩ := hseek ⟨f, hf, hff⟩
      have heSize : e < p.size := by
        rw [he]
        exact Nat.mod_lt _ (size_pos p)
      obtain ⟨m', hclaim, hplacing, htails, hids⟩ := h.claim hq hqd howns heSize hfree
      have htail : (m'.cells q).tail = e := (htails q).trans (if_pos rfl)
      have hnext : Seeking e₀ m' (m'.seekAfter p.size e) :=
        hseek.next he₀ (free_iff_of_move hq hshared htails) hids fun c hc =>
          hplacing.ids_of_free hc
      rw [if_neg howns, hclaim, Option.bind_some, htail]
      cases qs with
      | nil => exact ⟨m', _, _, rfl, by simpa using hplacing⟩
      | cons r qs =>
        rw [if_neg (List.cons_ne_nil r qs)]
        exact ih hplacing hnext hnd hrest

end MemoryRecurrent
end RocmFpx
