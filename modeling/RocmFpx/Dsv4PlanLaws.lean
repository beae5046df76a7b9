import RocmFpx.Dsv4Plan

/-!
What the loops of the compression plan make of a ubatch whose sequences each have a stream of their
own.
-/

namespace RocmFpx.Dsv4

/-! ## Loops that do not fail -/

section

variable {ε β γ σ : Type*}

theorem mapM_ok {l : List β} {f : β → Except ε γ} {g : β → γ} (h : ∀ x ∈ l, f x = .ok (g x)) :
    l.mapM f = .ok (l.map g) := by
  induction l with
  | nil => rfl
  | cons x l ih =>
    rw [List.mapM_cons, h x List.mem_cons_self, ih fun y hy => h y (List.mem_cons_of_mem x hy)]
    rfl

theorem foldlM_ok {P : List β → σ → Prop} {f : σ → β → Except ε σ} {l : List β} {s : σ}
    (hs : P [] s) (hstep : ∀ done x b, done ++ [x] <+: l → P done b →
      ∃ b', f b x = .ok b' ∧ P (done ++ [x]) b') :
    ∃ b, l.foldlM f s = .ok b ∧ P l b := by
  induction l using List.reverseRecOn with
  | nil => exact ⟨s, rfl, hs⟩
  | append_singleton l x ih =>
    obtain ⟨b, hb, hP⟩ := ih fun done y b hd => hstep done y b (hd.trans (List.prefix_append _ _))
    obtain ⟨b', hb', hP'⟩ := hstep l x b List.prefix_rfl hP
    refine ⟨b', ?_, hP'⟩
    rw [List.foldlM_append, hb]
    change List.foldlM f b [x] = _
    rw [List.foldlM_cons, hb']
    rfl

end

variable {E : Type*} {lay : Layout} {ub : Ubatch E} {s i : ℕ} {p : ℤ}

/-! ## Tokens and sequences -/

theorem mem_tokenIdxs : i ∈ Layout.tokenIdxs ub s ↔ i < ub.nTokens ∧ s ∈ ub.seqIdAt i := by
  rw [Layout.tokenIdxs, List.mem_filter, List.mem_range, tokenHasSeq, decide_eq_true_eq]

theorem tokenIdxs_nodup (ub : Ubatch E) (s : ℕ) : (Layout.tokenIdxs ub s).Nodup :=
  List.nodup_range.filter _

theorem currTokenIdx_some (h : currTokenIdx ub s p = some i) :
    i ∈ Layout.tokenIdxs ub s ∧ ub.posAt i = p := by
  have hp := List.find?_some h
  rw [Bool.and_eq_true, tokenHasSeq, decide_eq_true_eq, decide_eq_true_eq] at hp
  have hi := List.mem_range.mp (List.mem_reverse.mp (List.mem_of_find?_eq_some h))
  exact ⟨mem_tokenIdxs.2 ⟨hi, hp.1⟩, hp.2⟩

theorem currTokenIdx_none (h : currTokenIdx ub s p = none) (hi : i ∈ Layout.tokenIdxs ub s) :
    ub.posAt i ≠ p := by
  obtain ⟨hlt, hs⟩ := mem_tokenIdxs.1 hi
  have := List.find?_eq_none.mp h i (List.mem_reverse.mpr (List.mem_range.mpr hlt))
  rw [Bool.and_eq_true, tokenHasSeq, decide_eq_true_eq, decide_eq_true_eq] at this
  exact fun hp => this ⟨hs, hp⟩

/-- The fields of a ubatch fit together, and every sequence has a stream. -/
structure Formed (lay : Layout) (ub : Ubatch E) : Prop where
  seqId_ne : ∀ i < ub.nTokens, ub.seqIdAt i ≠ []
  seqId_nodup : ∀ i < ub.nTokens, (ub.seqIdAt i).Nodup
  unq_length : ub.nSeqsUnq = ub.seqIdUnq.length
  unq_nodup : ub.seqIdUnq.Nodup
  mem_unq : ∀ s, s ∈ ub.seqIdUnq ↔ ∃ i < ub.nTokens, s ∈ ub.seqIdAt i
  shape : hasCoupled ub = false →
    ub.nSeqTokens ≤ 1 ∨ ∀ s ∈ ub.seqIdUnq, (Layout.tokenIdxs ub s).length = ub.nSeqTokens
  stream : ∀ i < ub.nTokens, ∀ s ∈ ub.seqIdAt i, s < lay.nStream

/-- The tokens of each sequence go on where the sequence, `len s` tokens long, ends. -/
structure Continues (lay : Layout) (len : ℕ → ℕ) (ub : Ubatch E) : Prop where
  pos : ∀ s k (h : k < (Layout.tokenIdxs ub s).length),
    ub.posAt ((Layout.tokenIdxs ub s)[k]) = len s + k
  fits : ∀ s, len s + (Layout.tokenIdxs ub s).length ≤ lay.nCtx

/-- The length of each sequence behind the ubatch. -/
def lenAfter (len : ℕ → ℕ) (ub : Ubatch E) (s : ℕ) : ℕ := len s + (Layout.tokenIdxs ub s).length

variable {len : ℕ → ℕ}

theorem Continues.pos_of_mem (h : Continues lay len ub) (hi : i ∈ Layout.tokenIdxs ub s) :
    ∃ q : ℕ, ub.posAt i = q ∧ len s ≤ q ∧ q < lenAfter len ub s := by
  obtain ⟨k, hk, rfl⟩ := List.getElem_of_mem hi
  refine ⟨len s + k, ?_, Nat.le_add_right _ _, Nat.add_lt_add_left hk _⟩
  rw [h.pos s k hk, Nat.cast_add]

theorem Continues.token_at (h : Continues lay len ub) {q : ℕ} (hq : len s ≤ q)
    (hq' : q < lenAfter len ub s) : ∃ i ∈ Layout.tokenIdxs ub s, ub.posAt i = q := by
  rw [lenAfter] at hq'
  have hk : q - len s < (Layout.tokenIdxs ub s).length := by omega
  refine ⟨_, List.getElem_mem hk, ?_⟩
  rw [h.pos s _ hk]
  omega

theorem Continues.inj (h : Continues lay len ub) {j : ℕ} (hi : i ∈ Layout.tokenIdxs ub s)
    (hj : j ∈ Layout.tokenIdxs ub s) (hij : ub.posAt i = ub.posAt j) : i = j := by
  obtain ⟨k, hk, rfl⟩ := List.getElem_of_mem hi
  obtain ⟨l, hl, rfl⟩ := List.getElem_of_mem hj
  rw [h.pos s k hk, h.pos s l hl] at hij
  obtain rfl : k = l := by omega
  rfl

theorem Continues.pos_nonneg (h : Continues lay len ub) (hf : Formed lay ub)
    (hi : i < ub.nTokens) : 0 ≤ ub.posAt i := by
  obtain ⟨s, hs⟩ := List.exists_mem_of_ne_nil _ (hf.seqId_ne i hi)
  obtain ⟨q, hq, -⟩ := h.pos_of_mem (mem_tokenIdxs.2 ⟨hi, hs⟩)
  rw [hq]
  exact Int.natCast_nonneg q

/-! ## Rows -/

theorem streamOffset_ok {nStream size : ℕ} (h : s < nStream) :
    streamOffset nStream s size = .ok (s * size) := by
  rw [streamOffset]
  split_ifs with h1 h2
  · obtain rfl : s = 0 := by omega
    rw [Nat.zero_mul]
  · exact absurd h (not_lt.mpr h2)
  · rfl

/-- The row that `stateSourceIdx` names. -/
def sourceRow (lay : Layout) (ub : Ubatch E) (s : ℕ) (p : ℤ) : ℕ :=
  if p < 0 then lay.stateRows + ub.nTokens
  else
    match currTokenIdx ub s p with
    | some i => lay.stateRows + i
    | none => s * lay.stateSize + (p % lay.stateSize).toNat

theorem stateSourceIdx_ok (hs : s < lay.nStream) (p : ℤ) :
    lay.stateSourceIdx ub s p = .ok (sourceRow lay ub s p) := by
  rw [Layout.stateSourceIdx, sourceRow]
  split_ifs
  · rfl
  · cases currTokenIdx ub s p with
    | some i => rfl
    | none =>
      simp only [streamOffset_ok hs]
      rfl

/-- The rows of the `ratio` positions from `start` on. -/
def windowRows (lay : Layout) (ub : Ubatch E) (s : ℕ) (start : ℤ) : List ℕ :=
  (List.range lay.ratio).map fun (j : ℕ) => sourceRow lay ub s (start + j)

theorem windowIdxs_ok (hs : s < lay.nStream) (start : ℤ) :
    lay.windowIdxs ub s start = .ok (windowRows lay ub s start) :=
  mapM_ok fun j _ => stateSourceIdx_ok hs (start + j)

theorem Layout.stateSize_pos (lay : Layout) : 0 < lay.stateSize := by
  have h1 := lay.window_fits
  have h2 := lay.ratio_pos
  split_ifs at h1 <;> omega

theorem Layout.emod_lt (lay : Layout) (p : ℤ) : (p % lay.stateSize).toNat < lay.stateSize := by
  have h := lay.stateSize_pos
  have h1 := Int.emod_lt_of_pos p (by omega : (0 : ℤ) < lay.stateSize)
  have h2 := Int.emod_nonneg p (by omega : (lay.stateSize : ℤ) ≠ 0)
  omega

theorem row_lt {size n r : ℕ} (hs : s < n) (hr : r < size) : s * size + r < size * n := by
  have := Nat.mul_le_mul_right size (Nat.succ_le_of_lt hs)
  rw [Nat.succ_mul, Nat.mul_comm n] at this
  omega

theorem row_inj {size s t r q : ℕ} (hr : r < size) (hq : q < size)
    (h : s * size + r = t * size + q) : s = t ∧ r = q := by
  have hpos : 0 < size := by omega
  have h1 : (s * size + r) / size = s := by
    rw [Nat.mul_comm, Nat.mul_add_div hpos, Nat.div_eq_of_lt hr, Nat.add_zero]
  have h2 : (t * size + q) / size = t := by
    rw [Nat.mul_comm, Nat.mul_add_div hpos, Nat.div_eq_of_lt hq, Nat.add_zero]
  obtain rfl : s = t := by rw [← h1, ← h2, h]
  exact ⟨rfl, Nat.add_left_cancel h⟩

/-! ## The rows to persist -/

section

variable {new row : PersistRow} {rows : List PersistRow}

theorem mem_addPersist (h : row ∈ addPersist new rows) : row = new ∨ row ∈ rows := by
  induction rows with
  | nil => exact Or.inl (List.mem_singleton.mp h)
  | cons x rows ih =>
    rw [addPersist] at h
    split_ifs at h
    · exact (List.mem_cons.mp h).imp_right (List.mem_cons_of_mem x)
    · exact Or.inr h
    · obtain rfl | h := List.mem_cons.mp h
      · exact Or.inr List.mem_cons_self
      · exact (ih h).imp_right (List.mem_cons_of_mem x)

theorem map_dst_addPersist :
    (addPersist new rows).map PersistRow.dst =
      if new.dst ∈ rows.map PersistRow.dst then rows.map PersistRow.dst
      else rows.map PersistRow.dst ++ [new.dst] := by
  induction rows with
  | nil => rfl
  | cons x rows ih =>
    rw [addPersist, List.map_cons]
    by_cases hx : x.dst = new.dst
    · rw [if_pos hx, if_pos (List.mem_cons.mpr (Or.inl hx.symm)), List.map_cons]
      split_ifs
      · rw [hx]
      · rfl
    · have hmem : new.dst ∈ x.dst :: rows.map PersistRow.dst ↔
          new.dst ∈ rows.map PersistRow.dst := by
        rw [List.mem_cons, or_iff_right (Ne.symm hx)]
      rw [if_neg hx, List.map_cons, ih]
      simp only [hmem]
      split_ifs <;> rfl

theorem addPersist_covers : ∃ row ∈ addPersist new rows, row.dst = new.dst ∧ new.pos ≤ row.pos := by
  induction rows with
  | nil => exact ⟨new, List.mem_singleton_self new, rfl, le_rfl⟩
  | cons x rows ih =>
    rw [addPersist]
    split_ifs with hx hpos
    · exact ⟨new, List.mem_cons_self, rfl, le_rfl⟩
    · exact ⟨x, List.mem_cons_self, hx, not_lt.mp hpos⟩
    · obtain ⟨row, hrow, h⟩ := ih
      exact ⟨row, List.mem_cons_of_mem x hrow, h⟩

theorem addPersist_keeps (h : row ∈ rows) :
    ∃ row' ∈ addPersist new rows, row'.dst = row.dst ∧ row.pos ≤ row'.pos := by
  induction rows with
  | nil => exact absurd h List.not_mem_nil
  | cons x rows ih =>
    rw [addPersist]
    obtain rfl | h := List.mem_cons.mp h
    · split_ifs with hx hpos
      · exact ⟨new, List.mem_cons_self, hx.symm, hpos.le⟩
      · exact ⟨row, List.mem_cons_self, rfl, le_rfl⟩
      · exact ⟨row, List.mem_cons_self, rfl, le_rfl⟩
    · split_ifs with hx
      · exact ⟨row, List.mem_cons_of_mem _ h, rfl, le_rfl⟩
      · exact ⟨row, List.mem_cons_of_mem _ h, rfl, le_rfl⟩
      · obtain ⟨row', hrow', h'⟩ := ih h
        exact ⟨row', List.mem_cons_of_mem x hrow', h'⟩

end

/-! ## The loop over the tokens -/

/-- The state row of a token in the ring of one of its sequences. -/
def stateRowOf (lay : Layout) (ub : Ubatch E) (t : ℕ × ℕ) : ℕ :=
  t.2 * lay.stateSize + (ub.posAt t.1 % lay.stateSize).toNat

/-- The visits behind which a block is complete. -/
def completed (lay : Layout) (ub : Ubatch E) (ts : List (ℕ × ℕ)) : List (ℕ × ℕ) :=
  ts.filter fun t => decide ((ub.posAt t.1 + 1) % lay.ratio = 0)

/-- The first position of the block. -/
def blockStart (lay : Layout) (ub : Ubatch E) (t : ℕ × ℕ) : ℤ := ub.posAt t.1 + 1 - lay.ratio

/-- The vectors behind the visits `ts`. -/
structure Built (lay : Layout) (ub : Ubatch E) (ts : List (ℕ × ℕ)) (b : Build) : Prop where
  persist_nodup : (b.persistRows.map PersistRow.dst).Nodup
  persist_src : ∀ row ∈ b.persistRows, ∃ t ∈ ts,
    row.dst = stateRowOf lay ub t ∧ row.src = t.1 ∧ row.pos = ub.posAt t.1
  persist_covers : ∀ t ∈ ts, ∃ row ∈ b.persistRows,
    row.dst = stateRowOf lay ub t ∧ ub.posAt t.1 ≤ row.pos
  writeIdxs : b.writeIdxs = (completed lay ub ts).map fun t =>
    t.2 * lay.kvSize + (ub.posAt t.1 / lay.ratio).toNat
  writePos : b.writePos = (completed lay ub ts).map (blockStart lay ub)
  counts : ∀ s, b.writeCounts s = (completed lay ub ts).countP fun t => decide (t.2 = s)
  reads : b.reads = if lay.overlap then [] else
    (completed lay ub ts).flatMap fun t => windowRows lay ub t.2 (blockStart lay ub t)
  prevReads : b.prevReads = if lay.overlap then
    (completed lay ub ts).flatMap fun t => windowRows lay ub t.2 (blockStart lay ub t - lay.ratio)
    else []
  curReads : b.curReads = if lay.overlap then
    (completed lay ub ts).flatMap fun t => windowRows lay ub t.2 (blockStart lay ub t) else []

theorem completed_concat (lay : Layout) (ub : Ubatch E) (ts : List (ℕ × ℕ)) (t : ℕ × ℕ) :
    completed lay ub (ts ++ [t]) = completed lay ub ts ++
      if (ub.posAt t.1 + 1) % lay.ratio = 0 then [t] else [] := by
  rw [completed, List.filter_append, completed]
  congr 1
  split_ifs with h
  · exact List.filter_cons_of_pos (decide_eq_true h)
  · exact List.filter_cons_of_neg (by simpa using h)

theorem built_nil (lay : Layout) (ub : Ubatch E) :
    Built lay ub [] ⟨[], [], [], fun _ => 0, [], [], []⟩ where
  persist_nodup := List.nodup_nil
  persist_src := fun _ h => absurd h List.not_mem_nil
  persist_covers := fun _ h => absurd h List.not_mem_nil
  writeIdxs := rfl
  writePos := rfl
  counts := fun _ => rfl
  reads := by cases lay.overlap <;> rfl
  prevReads := by cases lay.overlap <;> rfl
  curReads := by cases lay.overlap <;> rfl

variable {ts : List (ℕ × ℕ)} {b : Build} {t : ℕ × ℕ}

theorem Built.persist (h : Built lay ub ts b) (t : ℕ × ℕ) :
    let rows := addPersist ⟨stateRowOf lay ub t, t.1, ub.posAt t.1⟩ b.persistRows
    (rows.map PersistRow.dst).Nodup ∧
      (∀ row ∈ rows, ∃ u ∈ ts ++ [t],
        row.dst = stateRowOf lay ub u ∧ row.src = u.1 ∧ row.pos = ub.posAt u.1) ∧
      ∀ u ∈ ts ++ [t], ∃ row ∈ rows, row.dst = stateRowOf lay ub u ∧ ub.posAt u.1 ≤ row.pos := by
  refine ⟨?_, fun row hrow => ?_, fun u hu => ?_⟩
  · rw [map_dst_addPersist]
    split_ifs with hmem
    · exact h.persist_nodup
    · refine List.nodup_append.mpr ⟨h.persist_nodup, List.nodup_singleton _, fun x hx y hy => ?_⟩
      rintro rfl
      exact hmem (List.mem_singleton.mp hy ▸ hx)
  · obtain rfl | hrow := mem_addPersist hrow
    · exact ⟨t, List.mem_append_right _ (List.mem_singleton_self t), rfl, rfl, rfl⟩
    · obtain ⟨u, hu, hrow⟩ := h.persist_src row hrow
      exact ⟨u, List.mem_append_left _ hu, hrow⟩
  · obtain hu | hu := List.mem_append.mp hu
    · obtain ⟨row, hrow, hdst, hpos⟩ := h.persist_covers u hu
      obtain ⟨row', hrow', hdst', hpos'⟩ := addPersist_keeps hrow
      exact ⟨row', hrow', hdst'.trans hdst, hpos.trans hpos'⟩
    · rw [List.mem_singleton.mp hu]
      exact addPersist_covers

theorem Built.visit (h : Built lay ub ts b) (hs : t.2 < lay.nStream) :
    ∃ b', lay.visit ub b t = .ok b' ∧ Built lay ub (ts ++ [t]) b' := by
  obtain ⟨hnodup, hsrc, hcov⟩ := h.persist t
  rw [Layout.visit]
  simp only [streamOffset_ok hs, windowIdxs_ok hs, bind, Except.bind, pure, Except.pure]
  by_cases hdone : (ub.posAt t.1 + 1) % lay.ratio = 0
  · rw [if_neg (not_not_intro hdone)]
    have hlist : completed lay ub (ts ++ [t]) = completed lay ub ts ++ [t] := by
      rw [completed_concat, if_pos hdone]
    have hcounts : ∀ s, Function.update b.writeCounts t.2 (b.writeCounts t.2 + 1) s =
        (completed lay ub (ts ++ [t])).countP fun u => decide (u.2 = s) := by
      intro s
      rw [hlist, List.countP_append, List.countP_singleton, ← h.counts s]
      by_cases hst : s = t.2
      · rw [hst, Function.update_self, if_pos (decide_eq_true rfl)]
      · rw [Function.update_of_ne hst, if_neg (by simpa using Ne.symm hst), Nat.add_zero]
    by_cases hover : lay.overlap = true
    · rw [if_pos hover]
      refine ⟨_, rfl, hnodup, hsrc, hcov, ?_, ?_, hcounts, ?_, ?_, ?_⟩
      · rw [h.writeIdxs, hlist, List.map_append, List.map_singleton]
      · rw [h.writePos, hlist, List.map_append, List.map_singleton, blockStart]
      · rw [h.reads, if_pos hover, if_pos hover]
      · rw [h.prevReads, if_pos hover, if_pos hover, hlist, List.flatMap_append,
          List.flatMap_singleton, blockStart]
      · rw [h.curReads, if_pos hover, if_pos hover, hlist, List.flatMap_append,
          List.flatMap_singleton, blockStart]
    · rw [if_neg hover]
      refine ⟨_, rfl, hnodup, hsrc, hcov, ?_, ?_, hcounts, ?_, ?_, ?_⟩
      · rw [h.writeIdxs, hlist, List.map_append, List.map_singleton]
      · rw [h.writePos, hlist, List.map_append, List.map_singleton, blockStart]
      · rw [h.reads, if_neg hover, if_neg hover, hlist, List.flatMap_append,
          List.flatMap_singleton, blockStart]
      · rw [h.prevReads, if_neg hover, if_neg hover]
      · rw [h.curReads, if_neg hover, if_neg hover]
  · rw [if_pos hdone]
    have hlist : completed lay ub (ts ++ [t]) = completed lay ub ts := by
      rw [completed_concat, if_neg hdone, List.append_nil]
    refine ⟨_, rfl, hnodup, hsrc, hcov, ?_, ?_, ?_, ?_, ?_, ?_⟩
    all_goals rw [hlist]
    · exact h.writeIdxs
    · exact h.writePos
    · exact h.counts
    · exact h.reads
    · exact h.prevReads
    · exact h.curReads

theorem mem_visits (h : Continues lay len ub) (hf : Formed lay ub) :
    t ∈ Layout.visits ub ↔ t.1 ∈ Layout.tokenIdxs ub t.2 := by
  rw [Layout.visits, mem_tokenIdxs, List.mem_flatMap]
  constructor
  · rintro ⟨i, hi, ht⟩
    obtain ⟨s, hs, rfl⟩ := List.mem_map.mp ht
    exact ⟨List.mem_range.mp (List.mem_filter.mp hi).1, hs⟩
  · rintro ⟨hi, hs⟩
    refine ⟨t.1, List.mem_filter.mpr ⟨List.mem_range.mpr hi, ?_⟩, List.mem_map.mpr ⟨t.2, hs, rfl⟩⟩
    exact decide_eq_true (h.pos_nonneg hf hi)

theorem visitAll_built (h : Continues lay len ub) (hf : Formed lay ub) :
    ∃ b, lay.visitAll ub = .ok b ∧ Built lay ub (Layout.visits ub) b := by
  refine foldlM_ok (built_nil lay ub) fun done t b hpre hb => hb.visit ?_
  have ht : t ∈ Layout.visits ub :=
    hpre.subset (List.mem_append_right _ (List.mem_singleton_self t))
  obtain ⟨hi, hs⟩ := mem_tokenIdxs.1 ((mem_visits h hf).mp ht)
  exact hf.stream t.1 hi t.2 hs

theorem visits_nodup (hf : Formed lay ub) : (Layout.visits ub).Nodup := by
  rw [Layout.visits, List.nodup_flatMap]
  refine ⟨fun i hi => ?_, ?_⟩
  · have hi := List.mem_range.mp (List.mem_filter.mp hi).1
    exact (hf.seqId_nodup i hi).map fun _ _ h => (Prod.mk.inj h).2
  · refine (List.nodup_range.filter _).imp fun {i j} hne => ?_
    rw [Function.onFun, List.disjoint_left]
    intro t hi hj
    obtain ⟨_, -, rfl⟩ := List.mem_map.mp hi
    obtain ⟨_, -, hj⟩ := List.mem_map.mp hj
    exact hne (Prod.mk.inj hj).1.symm

/-! ## Counting blocks -/

theorem countP_blocks (r a n : ℕ) :
    a / r + (List.range n).countP (fun k => decide ((a + k + 1) % r = 0)) = (a + n) / r := by
  induction n with
  | zero => rfl
  | succ n ih =>
    rw [List.range_succ, List.countP_append, List.countP_singleton, ← Nat.add_assoc, ih,
      ← Nat.add_assoc, Nat.succ_div]
    simp only [decide_eq_true_eq, Nat.dvd_iff_mod_eq_zero]

theorem count_done (h : Continues lay len ub) (s : ℕ) :
    len s / lay.ratio + (Layout.tokenIdxs ub s).countP
      (fun i => decide ((ub.posAt i + 1) % lay.ratio = 0)) = lenAfter len ub s / lay.ratio := by
  have hmap : (Layout.tokenIdxs ub s).map ub.posAt =
      (List.range (Layout.tokenIdxs ub s).length).map fun k => ((len s + k : ℕ) : ℤ) := by
    refine List.ext_getElem (by simp) fun k h1 h2 => ?_
    rw [List.getElem_map, List.getElem_map, List.getElem_range, h.pos s k (by simpa using h1),
      Nat.cast_add]
  have hcount : (Layout.tokenIdxs ub s).countP
      (fun i => decide ((ub.posAt i + 1) % lay.ratio = 0)) =
        ((Layout.tokenIdxs ub s).map ub.posAt).countP
          fun p : ℤ => decide ((p + 1) % lay.ratio = 0) := by
    rw [List.countP_map]
    rfl
  rw [hcount, hmap, List.countP_map, lenAfter, ← countP_blocks]
  congr 2
  funext k
  refine decide_eq_decide.mpr ?_
  change (((len s + k : ℕ) : ℤ) + 1) % (lay.ratio : ℤ) = 0 ↔ (len s + k + 1) % lay.ratio = 0
  exact_mod_cast Iff.rfl

theorem Built.counts_eq (hb : Built lay ub (Layout.visits ub) b) (h : Continues lay len ub)
    (hf : Formed lay ub) (s : ℕ) :
    len s / lay.ratio + b.writeCounts s = lenAfter len ub s / lay.ratio := by
  have hperm : ((completed lay ub (Layout.visits ub)).filter fun t => decide (t.2 = s)).Perm
      (((Layout.tokenIdxs ub s).filter
        fun i => decide ((ub.posAt i + 1) % lay.ratio = 0)).map (·, s)) := by
    refine (List.perm_ext_iff_of_nodup (((visits_nodup hf).filter _).filter _)
      (((tokenIdxs_nodup ub s).filter _).map fun _ _ h => (Prod.mk.inj h).1)).mpr fun t => ?_
    simp only [List.mem_filter, mem_visits h hf, List.mem_map]
    constructor
    · rintro ⟨⟨hi, hdone⟩, hs⟩
      obtain rfl := of_decide_eq_true hs
      exact ⟨t.1, ⟨hi, hdone⟩, rfl⟩
    · rintro ⟨i, ⟨hi, hdone⟩, rfl⟩
      exact ⟨⟨hi, hdone⟩, decide_eq_true rfl⟩
  rw [← count_done h s, hb.counts s, List.countP_eq_length_filter, hperm.length_eq,
    List.length_map, ← List.countP_eq_length_filter]

/-! ## Dummy blocks -/

/-- The last row of the stream is not in use, even behind the ubatch. -/
def Roomy (lay : Layout) (len : ℕ → ℕ) (ub : Ubatch E) (s : ℕ) : Prop :=
  lenAfter len ub s < lay.kvSize * lay.ratio

/-- The vectors with dummy blocks behind those of `b`. -/
structure PaddedBy (lay : Layout) (ub : Ubatch E) (ds : List (ℕ × ℕ)) (b b' : Build) : Prop where
  persistRows : b'.persistRows = b.persistRows
  counts : b'.writeCounts = b.writeCounts
  writeIdxs : b'.writeIdxs = b.writeIdxs ++ ds.map fun d => d.2 * lay.kvSize + lay.kvSize - 1
  writePos : b'.writePos = b.writePos ++ ds.map fun _ => 0
  reads : b'.reads = b.reads ++ if lay.overlap then [] else
    ds.flatMap fun d => List.replicate lay.ratio (sourceRow lay ub d.2 (ub.posAt d.1))
  prevReads : b'.prevReads = b.prevReads ++ if lay.overlap then
    ds.flatMap fun d => List.replicate lay.ratio (sourceRow lay ub d.2 (ub.posAt d.1)) else []
  curReads : b'.curReads = b.curReads ++ if lay.overlap then
    ds.flatMap fun d => List.replicate lay.ratio (sourceRow lay ub d.2 (ub.posAt d.1)) else []

variable {b' b'' : Build} {ds es : List (ℕ × ℕ)}

theorem PaddedBy.refl (lay : Layout) (ub : Ubatch E) (b : Build) : PaddedBy lay ub [] b b where
  persistRows := rfl
  counts := rfl
  writeIdxs := (List.append_nil _).symm
  writePos := (List.append_nil _).symm
  reads := by simp
  prevReads := by simp
  curReads := by simp

theorem PaddedBy.trans (h : PaddedBy lay ub ds b b') (h' : PaddedBy lay ub es b' b'') :
    PaddedBy lay ub (ds ++ es) b b'' where
  persistRows := h'.persistRows.trans h.persistRows
  counts := h'.counts.trans h.counts
  writeIdxs := by rw [h'.writeIdxs, h.writeIdxs, List.map_append, List.append_assoc]
  writePos := by rw [h'.writePos, h.writePos, List.map_append, List.append_assoc]
  reads := by
    rw [h'.reads, h.reads, List.append_assoc]
    cases lay.overlap <;> simp
  prevReads := by
    rw [h'.prevReads, h.prevReads, List.append_assoc]
    cases lay.overlap <;> simp
  curReads := by
    rw [h'.curReads, h.curReads, List.append_assoc]
    cases lay.overlap <;> simp

theorem appendDummyBlock_ok (ub : Ubatch E) (hs : s < lay.nStream) (b : Build) (i : ℕ) :
    ∃ b', lay.appendDummyBlock ub b s i = .ok b' ∧ PaddedBy lay ub [(i, s)] b b' := by
  rw [Layout.appendDummyBlock]
  simp only [streamOffset_ok hs, stateSourceIdx_ok hs, bind, Except.bind, pure, Except.pure]
  by_cases hover : lay.overlap = true
  · rw [if_pos hover]
    exact ⟨_, rfl, rfl, rfl, rfl, rfl, by simp [hover], by simp [hover], by simp [hover]⟩
  · rw [if_neg hover]
    exact ⟨_, rfl, rfl, rfl, rfl, rfl, by simp [hover], by simp [hover], by simp [hover]⟩

theorem firstToken_ok (h : Continues lay len ub) (hf : Formed lay ub) {p : ℕ → Bool}
    (hex : ∃ i < ub.nTokens, p i) : ∃ i, Layout.firstToken ub p = .ok i ∧ i < ub.nTokens ∧ p i := by
  rw [Layout.firstToken]
  cases hfind : (List.range ub.nTokens).find? fun i => decide (0 ≤ ub.posAt i) && p i with
  | some i =>
    have hi := List.mem_range.mp (List.mem_of_find?_eq_some hfind)
    have hp := List.find?_some hfind
    exact ⟨i, rfl, hi, (Bool.and_eq_true _ _ ▸ hp).2⟩
  | none =>
    obtain ⟨i, hi, hp⟩ := hex
    refine absurd ?_ (List.find?_eq_none.mp hfind i (List.mem_range.mpr hi))
    rw [Bool.and_eq_true]
    exact ⟨decide_eq_true (h.pos_nonneg hf hi), hp⟩

theorem Built.writes_of_full (hb : Built lay ub (Layout.visits ub) b) (h : Continues lay len ub)
    (hf : Formed lay ub) (hi : i ∈ Layout.tokenIdxs ub s) (hfull : ¬ Roomy lay len ub s) :
    b.writeIdxs ≠ [] := by
  have hcount := hb.counts_eq h hf s
  have hpos : 0 < (Layout.tokenIdxs ub s).length := List.length_pos_of_mem hi
  have hr := lay.ratio_pos
  have hend : lay.kvSize ≤ lenAfter len ub s / lay.ratio :=
    (Nat.le_div_iff_mul_le hr).mpr (not_lt.mp hfull)
  have hstart : len s / lay.ratio < lay.kvSize := by
    refine (Nat.div_lt_iff_lt_mul hr).mpr (lt_of_lt_of_le ?_ ((h.fits s).trans lay.holds_ctx))
    omega
  intro hnil
  rw [hb.writeIdxs, List.map_eq_nil_iff] at hnil
  have := hb.counts s
  rw [hnil, List.countP_nil] at this
  omega

/-- Each dummy block stands for a token of a sequence whose stream has room. -/
def Harmless (lay : Layout) (len : ℕ → ℕ) (ub : Ubatch E) (ds : List (ℕ × ℕ)) : Prop :=
  ∀ d ∈ ds, d.1 ∈ Layout.tokenIdxs ub d.2 ∧ Roomy lay len ub d.2

theorem Formed.stream_of_mem (hf : Formed lay ub) (hi : i ∈ Layout.tokenIdxs ub s) :
    s < lay.nStream := by
  obtain ⟨hlt, hs⟩ := mem_tokenIdxs.1 hi
  exact hf.stream i hlt s hs

theorem seqIdAt_head (hf : Formed lay ub) (hi : i < ub.nTokens) :
    i ∈ Layout.tokenIdxs ub ((ub.seqIdAt i).getD 0 0) := by
  obtain ⟨s, rest, hs⟩ := List.exists_cons_of_ne_nil (hf.seqId_ne i hi)
  rw [mem_tokenIdxs, hs]
  exact ⟨hi, List.mem_cons_self⟩

theorem exists_token (hpos : lay.statePos ub ≠ []) : ∃ i < ub.nTokens, true = true := by
  obtain ⟨x, hx⟩ := List.exists_mem_of_ne_nil _ hpos
  obtain ⟨i, hi, -⟩ := List.mem_map.mp hx
  exact ⟨i, List.mem_range.mp (List.mem_filter.mp hi).1, rfl⟩

theorem appendFirstDummy_ok (hb : Built lay ub (Layout.visits ub) b) (h : Continues lay len ub)
    (hf : Formed lay ub) (hpos : lay.statePos ub ≠ []) (hnil : b.writeIdxs = []) :
    ∃ b' ds, lay.appendFirstDummy ub b = .ok b' ∧ PaddedBy lay ub ds b b' ∧
      Harmless lay len ub ds := by
  obtain ⟨i, hfirst, hi, -⟩ := firstToken_ok h hf (exists_token hpos)
  have hmem := seqIdAt_head hf hi
  obtain ⟨b', hb', hpad⟩ := appendDummyBlock_ok ub (hf.stream_of_mem hmem) b i
  refine ⟨b', _, ?_, hpad, fun d hd => ?_⟩
  · rw [Layout.appendFirstDummy, hfirst]
    exact hb'
  · rw [List.mem_singleton.mp hd]
    exact ⟨hmem, not_not.mp fun hfull => hb.writes_of_full h hf hmem hfull hnil⟩

theorem blocks_short {r kv a n w : ℕ} (hr : 0 < r) (hw : a / r + w = (a + n) / r)
    (hfit : a + n ≤ kv * r) {m : ℕ} (hm : m = n ∨ (m = 1 ∧ 0 < n)) (hn : 0 < n)
    (hshort : w < (m + r - 1) / r) : w + 1 = (m + r - 1) / r ∧ a + n < kv * r := by
  have ha := Nat.div_add_mod a r
  have halt := Nat.mod_lt a hr
  have hsplit : (a + n) / r = a / r + (a % r + n) / r := by
    have : a + n = r * (a / r) + (a % r + n) := by omega
    rw [this, Nat.mul_add_div hr]
  have hwn : w = (a % r + n) / r := by omega
  have hmod := Nat.div_add_mod (a % r + n) r
  have hmodlt := Nat.mod_lt (a % r + n) hr
  rw [← hwn] at hmod
  have hstep : (a % r + n + r) / r = w + 1 := by
    rw [Nat.add_div_right _ hr, ← hwn]
  have hmn : m ≤ n := by omega
  have hle : (m + r - 1) / r ≤ w + 1 := by
    rw [← hstep]
    exact Nat.div_le_div_right (by omega)
  refine ⟨by omega, lt_of_le_of_ne hfit fun hfull => ?_⟩
  -- a full stream ends with a complete block, so it is not short
  have hdvd : (a % r + n) % r = 0 := by
    have hzero : (a + n) % r = 0 := by rw [hfull, Nat.mul_mod_left]
    have : a + n = r * (a / r) + (a % r + n) := by omega
    rw [this, Nat.mul_add_mod] at hzero
    exact hzero
  have hlt : m + r - 1 < r * (w + 1) := by
    rw [Nat.mul_succ]
    omega
  have := (Nat.div_lt_iff_lt_mul hr).mpr (Nat.mul_comm r (w + 1) ▸ hlt)
  omega

theorem padSeq_ok (hb : Built lay ub (Layout.visits ub) b) (h : Continues lay len ub)
    (hf : Formed lay ub) (hcpl : hasCoupled ub = false) (hs : s ∈ ub.seqIdUnq)
    (hcounts : b'.writeCounts = b.writeCounts) :
    ∃ b'' ds, lay.padSeq ub ((max 1 ub.nSeqTokens + lay.ratio - 1) / lay.ratio) b' s = .ok b'' ∧
      PaddedBy lay ub ds b' b'' ∧ Harmless lay len ub ds := by
  rw [Layout.padSeq]
  simp only [hcounts]
  obtain ⟨i, hi, hsi⟩ := (hf.mem_unq s).mp hs
  have hmem := mem_tokenIdxs.2 ⟨hi, hsi⟩
  have hn := List.length_pos_of_mem hmem
  by_cases hle : (max 1 ub.nSeqTokens + lay.ratio - 1) / lay.ratio ≤ b.writeCounts s
  · rw [if_pos hle]
    exact ⟨b', [], rfl, PaddedBy.refl lay ub b', fun d hd => absurd hd List.not_mem_nil⟩
  · have hm : max 1 ub.nSeqTokens = (Layout.tokenIdxs ub s).length ∨
        (max 1 ub.nSeqTokens = 1 ∧ 0 < (Layout.tokenIdxs ub s).length) := by
      obtain h1 | h1 := hf.shape hcpl
      · exact Or.inr ⟨max_eq_left h1, hn⟩
      · have := h1 s hs
        exact Or.inl (by omega)
    obtain ⟨hone, hroom⟩ := blocks_short lay.ratio_pos (hb.counts_eq h hf s)
      ((h.fits s).trans lay.holds_ctx) hm hn (not_le.mp hle)
    rw [if_neg hle, if_neg (not_not_intro hone)]
    obtain ⟨j, hfirst, hj, hsj⟩ := firstToken_ok (p := fun i => tokenHasSeq ub i s) h hf
      ⟨i, hi, decide_eq_true hsi⟩
    have hmemj := mem_tokenIdxs.2 ⟨hj, of_decide_eq_true hsj⟩
    obtain ⟨b'', hb'', hpad⟩ := appendDummyBlock_ok ub (hf.stream_of_mem hmemj) b' j
    refine ⟨b'', _, ?_, hpad, fun d hd => ?_⟩
    · simp only [hfirst]
      exact hb''
    · rw [List.mem_singleton.mp hd]
      exact ⟨hmemj, hroom⟩

theorem padCsa_ok (hb : Built lay ub (Layout.visits ub) b) (h : Continues lay len ub)
    (hf : Formed lay ub) :
    ∃ b' ds, lay.padCsa ub b = .ok b' ∧ PaddedBy lay ub ds b b' ∧ Harmless lay len ub ds := by
  have hsame : ∃ b' ds, (Except.ok b : Except String Build) = .ok b' ∧ PaddedBy lay ub ds b b' ∧
      Harmless lay len ub ds :=
    ⟨b, [], rfl, PaddedBy.refl lay ub b, fun d hd => absurd hd List.not_mem_nil⟩
  rw [Layout.padCsa]
  by_cases hcsa : lay.ratio = csaRatio ∧ lay.statePos ub ≠ []
  · rw [if_pos hcsa]
    cases hcpl : hasCoupled ub with
    | true =>
      rw [if_pos rfl]
      by_cases hnil : b.writeIdxs = []
      · rw [if_pos hnil]
        exact appendFirstDummy_ok hb h hf hcsa.2 hnil
      · rw [if_neg hnil]
        exact hsame
    | false =>
      rw [if_neg Bool.false_ne_true, hf.unq_length, List.take_length]
      obtain ⟨b', hb', ds, hpad, hds⟩ := foldlM_ok (s := b)
        (P := fun _ b' => ∃ ds, PaddedBy lay ub ds b b' ∧ Harmless lay len ub ds)
        ⟨[], PaddedBy.refl lay ub b, fun d hd => absurd hd List.not_mem_nil⟩
        (f := lay.padSeq ub ((max 1 ub.nSeqTokens + lay.ratio - 1) / lay.ratio))
        (l := ub.seqIdUnq) fun done s b' hpre ⟨ds, hpad, hds⟩ => by
          have hs : s ∈ ub.seqIdUnq :=
            hpre.subset (List.mem_append_right _ (List.mem_singleton_self s))
          obtain ⟨b'', es, hstep, hpad', hes⟩ := padSeq_ok hb h hf hcpl hs hpad.counts
          exact ⟨b'', hstep, ds ++ es, hpad.trans hpad',
            fun d hd => (List.mem_append.mp hd).elim (hds d) (hes d)⟩
      exact ⟨b', ds, hb', hpad, hds⟩
  · rw [if_neg hcsa]
    exact hsame

/-! ## Visible blocks -/

theorem foldl_max_lt {l : List ℕ} {n m : ℕ} (hm : m < n) (h : ∀ x ∈ l, x < n) :
    l.foldl max m < n := by
  induction l generalizing m with
  | nil => exact hm
  | cons x l ih =>
    exact ih (max_lt hm (h x List.mem_cons_self)) fun y hy => h y (List.mem_cons_of_mem x hy)

theorem nVisibleAt_eq (lay : Layout) {q : ℕ} (hq : ub.posAt i = q) :
    lay.nVisibleAt ub i = (q + 1) / lay.ratio := by
  rw [Layout.nVisibleAt, hq, if_pos (Int.natCast_nonneg q)]
  rfl

theorem nVisible_lt (h : Continues lay len ub) (hi : i ∈ Layout.tokenIdxs ub s)
    (hroom : Roomy lay len ub s) : lay.nVisibleAt ub i < lay.kvSize := by
  obtain ⟨q, hq, -, hlt⟩ := h.pos_of_mem hi
  rw [nVisibleAt_eq lay hq]
  exact (Nat.div_lt_iff_lt_mul lay.ratio_pos).mpr (lt_of_le_of_lt hlt hroom)

theorem nVisible_le (h : Continues lay len ub) (hi : i ∈ Layout.tokenIdxs ub s) :
    lay.nVisibleAt ub i ≤ lay.kvSize := by
  obtain ⟨q, hq, -, hlt⟩ := h.pos_of_mem hi
  rw [nVisibleAt_eq lay hq]
  refine Nat.div_le_of_le_mul ?_
  rw [Nat.mul_comm]
  exact (Nat.succ_le_of_lt hlt).trans ((h.fits s).trans lay.holds_ctx)

theorem padHca_ok (hb : Built lay ub (Layout.visits ub) b) (h : Continues lay len ub)
    (hf : Formed lay ub) {es : List (ℕ × ℕ)} (hpad : PaddedBy lay ub es b b') :
    ∃ b'' ds, lay.padHca ub b' = .ok b'' ∧ PaddedBy lay ub ds b' b'' ∧ Harmless lay len ub ds := by
  rw [Layout.padHca]
  by_cases hhca : lay.ratio = hcaRatio ∧ lay.statePos ub ≠ [] ∧ b'.writeIdxs = []
  · rw [if_pos hhca]
    have hnil : b.writeIdxs = [] := by
      have := hpad.writeIdxs
      rw [hhca.2.2] at this
      exact (List.append_eq_nil_iff.mp this.symm).1
    have hroom : ∀ {i s}, i ∈ Layout.tokenIdxs ub s → Roomy lay len ub s :=
      fun hi => not_not.mp fun hfull => hb.writes_of_full h hf hi hfull hnil
    have hlt : lay.maxVisible ub < lay.kvSize := by
      refine foldl_max_lt lay.kvSize_pos fun x hx => ?_
      obtain ⟨i, hi, rfl⟩ := List.mem_map.mp hx
      have hmem := seqIdAt_head hf (List.mem_range.mp hi)
      exact nVisible_lt h hmem (hroom hmem)
    obtain ⟨i, hfirst, hi, -⟩ := firstToken_ok h hf (exists_token hhca.2.1)
    have hmem := seqIdAt_head hf hi
    have hs := hf.stream_of_mem hmem
    have hplain := lay.hca_plain hhca.1
    rw [if_pos hlt]
    simp only [hfirst, streamOffset_ok hs, stateSourceIdx_ok hs, bind, Except.bind, pure,
      Except.pure]
    refine ⟨_, [(i, (ub.seqIdAt i).getD 0 0)], rfl, ⟨rfl, rfl, rfl, rfl, ?_, ?_, ?_⟩, fun d hd => ?_⟩
    · simp [hplain]
    · simp [hplain]
    · simp [hplain]
    · rw [List.mem_singleton.mp hd]
      exact ⟨hmem, hroom hmem⟩
  · rw [if_neg hhca]
    exact ⟨b', [], rfl, PaddedBy.refl lay ub b', fun d hd => absurd hd List.not_mem_nil⟩

end RocmFpx.Dsv4
