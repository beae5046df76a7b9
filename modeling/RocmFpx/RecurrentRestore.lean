import RocmFpx.RecurrentFindSlot

/-!
Restoring the recurrent memory: the tails stay in step however a restore ends, and the cells in use
are counted unless the metadata of a whole cache break off or have cells without a sequence.
-/

namespace RocmFpx
namespace MemoryRecurrent

variable {p : RecurrentParams} {m m' : MemoryRecurrent p} {i : ℕ}

/-! ## A whole cache -/

/-- A reading loop that has not failed leaves memories with `P`. -/
def Reading.Holds (P : MemoryRecurrent p → Prop) : Reading p → Prop
  | .done m _ => P m
  | .failed _ => True
  | .threw m => P m

theorem readSeqIds_holds {P : MemoryRecurrent p → Prop}
    (keep : ∀ m q, q < p.size → m.tails q = -1 → P m → P (m.join q i)) (k : ℕ) (hm : P m)
    (words : List (BitVec 32)) : (readSeqIds i k m words).Holds P := by
  induction k generalizing m words with
  | zero => exact hm
  | succ k ih =>
    cases words with
    | nil => exact hm
    | cons w words =>
      rw [readSeqIds]
      split_ifs with hrange
      · trivial
      · have htail : ((m.modify i fun c => { c with seqId := insert w.toInt.toNat c.seqId }).cells
            w.toInt.toNat).tail = m.tails w.toInt.toNat :=
          modify_keeps MemCell.tail i _ fun _ => rfl
        simp only [htail]
        split_ifs with hdup
        · trivial
        · have hsize := p.size_eq
          exact ih (keep m w.toInt.toNat (by omega) (not_not.mp hdup) hm) words

/-- The cells from `i` on have not been read. -/
structure ReadUpTo (i : ℕ) (m : MemoryRecurrent p) : Prop where
  settled : m.Settled
  unread : ∀ c < p.size, i ≤ c → m.ids c = ∅ ∧ (m.cells c).pos = -1

theorem ReadUpTo.clear (m : MemoryRecurrent p) : ReadUpTo 0 m.clear where
  settled := clear_settled m
  unread c hc _ := by
    refine ⟨clear_ids hc, ?_⟩
    rw [clear_cell hc]

theorem ReadUpTo.setPos (h : ReadUpTo i m) (pos : ℤ) :
    ReadUpTo (i + 1) (m.modify i fun c => { c with pos := pos }) where
  settled :=
    { owned := h.settled.owned.congr (fun c _ => modify_keeps MemCell.seqId i c fun _ => rfl)
        fun q _ => modify_keeps MemCell.tail i q fun _ => rfl
      src_self := fun c hc => by
        have hsrc : ((m.modify i fun c => { c with pos := pos }).cells c).src = (m.cells c).src :=
          modify_keeps MemCell.src i c fun _ => rfl
        rw [hsrc]
        exact h.settled.src_self c hc
      head_lt := h.settled.head_lt }
  unread c hc hic := by
    have hids : (m.modify i fun c => { c with pos := pos }).ids c = m.ids c :=
      modify_keeps MemCell.seqId i c fun _ => rfl
    rw [hids, modify_cells, if_neg (by omega)]
    exact h.unread c hc (by omega)

theorem ReadUpTo.join (hi : i < p.size) {q : ℕ} (hq : q < p.size) (htail : m.tails q = -1)
    (h : ReadUpTo (i + 1) m) : ReadUpTo (i + 1) (m.join q i) where
  settled := join_settled h.settled hq hi htail
  unread c hc hic := by
    rw [join_ids, if_neg (by omega), join_pos]
    exact h.unread c hc hic

theorem readCells_holds {k : ℕ} (hk : i + k ≤ p.size) (h : ReadUpTo i m)
    (words : List (BitVec 32)) :
    (readCells k i m words).Holds Settled ∧
      ∀ m' rest, readCells k i m words = .done m' rest → ReadUpTo (i + k) m' := by
  induction k generalizing i m words with
  | zero =>
    refine ⟨h.settled, fun m' rest heq => ?_⟩
    rw [readCells] at heq
    cases heq
    exact h
  | succ k ih =>
    match words with
    | [] => exact ⟨h.settled, fun m' rest heq => by cases heq⟩
    | [_] => exact ⟨h.settled, fun m' rest heq => by cases heq⟩
    | pos :: n :: words =>
      have hread := readSeqIds_holds (P := ReadUpTo (i + 1))
        (fun m q hq htail h => h.join (by omega) hq htail) n.toNat (h.setPos pos.toInt) words
      rw [readCells]
      cases hids : readSeqIds i n.toNat (m.modify i fun c => { c with pos := pos.toInt }) words with
      | done m'' rest =>
        rw [hids] at hread
        have hnext := ih (by omega) hread rest
        rwa [Nat.add_right_comm, Nat.add_assoc] at hnext
      | failed m'' => exact ⟨trivial, fun m' rest heq => by cases heq⟩
      | threw m'' =>
        rw [hids] at hread
        exact ⟨hread.settled, fun m' rest heq => by cases heq⟩

theorem readCells_whole (m : MemoryRecurrent p) {count : ℕ} (hcount : count ≤ p.size)
    (words : List (BitVec 32)) : (readCells count 0 m.clear words).Holds Settled ∧
      ∀ m' rest, readCells count 0 m.clear words = .done m' rest → ReadUpTo count m' := by
  have hread := readCells_holds (i := 0) (by omega) (ReadUpTo.clear m) words (k := count)
  rwa [Nat.zero_add] at hread

/-! ## Keeping the restored sources -/

theorem keepSources_src (count c : ℕ) : ((m.keepSources count).cells c).src =
    if m.head ≤ c ∧ c < m.head + count then (c : ℤ) else (m.cells c).src := by
  simp only [keepSources]
  split_ifs <;> rfl

theorem keepSources_view {α : Type*} (view : MemCell → α)
    (hview : ∀ c s, view { c with src := s } = view c) (count c : ℕ) :
    view ((m.keepSources count).cells c) = view (m.cells c) := by
  simp only [keepSources]
  split_ifs
  · exact hview _ _
  · rfl

theorem keepSources_settled (h : m.Settled) (count : ℕ) : (m.keepSources count).Settled where
  owned := h.owned.congr (fun c _ => keepSources_view MemCell.seqId (fun _ _ => rfl) count c)
    fun q _ => keepSources_view MemCell.tail (fun _ _ => rfl) count q
  src_self c hc := by
    rw [keepSources_src]
    split_ifs
    · exact .inr rfl
    · exact h.src_self c hc
  head_lt := h.head_lt

theorem keepSources_ids (count c : ℕ) : (m.keepSources count).ids c = m.ids c :=
  keepSources_view MemCell.seqId (fun _ _ => rfl) count c

theorem keepSources_counted (h : m.Counted) (count : ℕ) : (m.keepSources count).Counted :=
  h.congr rfl (fun c _ => by rw [keepSources_ids]) fun c _ => by
    rw [keepSources_view MemCell.pos fun _ _ => rfl]

theorem keepSources_sourced (h : m.Sourced) (count : ℕ) : (m.keepSources count).Sourced := by
  intro c hc hne
  rw [keepSources_ids] at hne
  rw [keepSources_src]
  split_ifs
  · rfl
  · exact h c hc hne

/-! ## The two kinds of restore -/

/-- The ubatch of a restored sequence. -/
theorem grouped_single (dest pos : ℤ) : Grouped [([dest], pos)] where
  nonempty := List.cons_ne_nil _ _
  ids_nonempty x hx := by
    rw [List.mem_singleton.mp hx]
    exact List.cons_ne_nil _ _
  disjoint := List.pairwise_singleton _ _

/-- The memory once the cells of a whole cache are read. -/
def restart (m : MemoryRecurrent p) (count : ℕ) : MemoryRecurrent p :=
  { m with head := 0, used := count }

def readWhole (m : MemoryRecurrent p) (count : ℕ) : MemoryRecurrent p :=
  (m.restart count).keepSources count

/-- The metadata leave a memory with `P`, unless what is left will be cleared. -/
def MetaRead.Holds (P : MemoryRecurrent p → Prop) (seqId : ℤ) : MetaRead p → Prop
  | .returned m true => P m
  | .returned m false => seqId = -1 ∨ P m
  | .threw m => P m
  | .aborted => True

/-- `state_read_meta` keeps what its parts keep. -/
theorem stateReadMeta_holds {P : MemoryRecurrent p → Prop} {words : List (BitVec 32)} {count : ℕ}
    {seqId : ℤ} (hm : P m) (hrm : ∀ m, P m → P (m.seqRm seqId (-1) (-1)).1)
    (hslot : ∀ m m' ps ok, readPositions count words = some (some ps) → P m →
      m.findSlot true [([seqId], ps.getLastD 0)] = some (m', ok) → P m')
    (hkeep : ∀ m, P m → P (m.keepSources count))
    (hwhole : seqId = -1 → count ≤ p.size →
      (∀ m', readCells count 0 m.clear words = .threw m' → P m') ∧
      ∀ m' rest, readCells count 0 m.clear words = .done m' rest → P (m'.readWhole count)) :
    (m.stateReadMeta words count seqId).Holds P seqId := by
  rw [stateReadMeta]
  by_cases hdest : seqId ≠ -1
  · rw [if_pos hdest]
    split_ifs with hsize hzero
    · exact .inr hm
    · exact hrm m hm
    · cases hpos : readPositions count words with
      | none => exact hrm m hm
      | some r =>
        cases r with
        | none => exact .inr (hrm m hm)
        | some ps =>
          simp only
          cases hfind : (m.seqRm seqId (-1) (-1)).1.findSlot true [([seqId], ps.getLastD 0)] with
          | none => trivial
          | some r =>
            obtain ⟨m', ok⟩ := r
            have hm' := hslot _ m' ps ok hpos (hrm m hm) hfind
            cases ok with
            | false => exact .inr hm'
            | true =>
              simp only
              split_ifs
              · exact hkeep m' hm'
              · trivial
  · rw [if_neg hdest]
    split_ifs with hsize
    · exact .inl (not_not.mp hdest)
    · obtain ⟨hthrew, hdone⟩ := hwhole (not_not.mp hdest) (not_lt.mp hsize)
      cases hcells : readCells count 0 m.clear words with
      | done m' rest => exact hdone m' rest hcells
      | failed m' => exact .inl (not_not.mp hdest)
      | threw m' => exact hthrew m' hcells

theorem stateRead_rule {P : MemoryRecurrent p → Prop} {io : RestoreStream} {seqId : ℤ} {ok : Bool}
    (hm : P m) (hclear : ∀ m : MemoryRecurrent p, P m.clear)
    (hrm : ∀ m, P m → P (m.seqRm seqId (-1) (-1)).1) (hrs : ∀ m rs, P m → P (m.withRsIdx rs))
    (hmeta : ∀ count words, io.words = count :: words →
      (m.stateReadMeta words count.toNat seqId).Holds P seqId)
    (heq : m.stateRead io seqId = some (m', ok)) : P m' := by
  rw [stateRead] at heq
  cases hwords : io.words with
  | nil =>
    rw [hwords] at heq
    cases heq
    exact hm
  | cons count words =>
    have hread := hmeta count words hwords
    rw [hwords] at heq
    simp only at heq
    cases hmr : m.stateReadMeta words count.toNat seqId with
    | aborted =>
      rw [hmr] at heq
      cases heq
    | threw m'' =>
      rw [hmr] at heq hread
      cases heq
      exact hread
    | returned m'' done =>
      rw [hmr] at heq hread
      simp only at heq
      split_ifs at heq with hok hidx
      · rw [hok.1] at hread
        obtain ⟨m₁, hset, heq⟩ := Option.map_eq_some_iff.mp heq
        cases heq
        rw [setRsIdx] at hset
        split_ifs at hset
        · cases hset
          exact hrs m'' _ hread
        · cases hset
          exact hrs m'' _ hread
      · rw [hok.1] at hread
        cases heq
        exact hread
      · cases heq
        rw [stateClear]
        split_ifs with hall
        · exact hclear m''
        · cases done with
          | false => exact hrm m'' (hread.resolve_left hall)
          | true => exact hrm m'' hread

theorem stateRead_settled {io : RestoreStream} {seqId : ℤ} {ok : Bool} (h : m.Settled)
    (heq : m.stateRead io seqId = some (m', ok)) : m'.Settled := by
  refine stateRead_rule h (fun m => clear_settled m)
    (fun m h => seqRm_settled h seqId (-1) (-1)) (fun m rs h => withRsIdx_settled h rs)
    (fun count words _ => stateReadMeta_holds h (fun m h => seqRm_settled h seqId (-1) (-1))
      (fun m m' ps ok _ h hfind => (findSlot_slotFound h (grouped_single _ _) hfind).settled)
      (fun m h => keepSources_settled h _) fun _ hsize => ?_) heq
  obtain ⟨hread, hdone⟩ := readCells_whole m hsize words
  refine ⟨fun m' hcells => ?_, fun m' rest hcells => keepSources_settled ?_ _⟩
  · rw [hcells] at hread
    exact hread
  exact (hdone m' rest hcells).settled.of_cells rfl (size_pos p)

/-- The metadata of a restored whole cache do not break off. -/
def Unbroken (m : MemoryRecurrent p) (io : RestoreStream) (seqId : ℤ) : Prop :=
  ∀ count words, io.words = count :: words → seqId = -1 → count.toNat ≤ p.size →
    ∀ m', readCells count.toNat 0 m.clear words ≠ .threw m'

/-- No position is negative, and no cell of a restored whole cache is without a sequence. -/
def Filled (m : MemoryRecurrent p) (io : RestoreStream) (seqId : ℤ) : Prop :=
  ∀ count words, io.words = count :: words →
    (∀ ps, readPositions count.toNat words = some (some ps) → 0 ≤ ps.getLastD 0) ∧
    (seqId = -1 → count.toNat ≤ p.size →
      ∀ m' rest, readCells count.toNat 0 m.clear words = .done m' rest →
        ∀ c < count.toNat, 0 ≤ (m'.cells c).pos ∧ (m'.ids c).Nonempty)

theorem restart_settled (h : m.Settled) (count : ℕ) : (m.restart count).Settled :=
  h.of_cells rfl (size_pos p)

theorem readWhole_sourced {count : ℕ} (h : ReadUpTo count m) : (m.readWhole count).Sourced := by
  intro c hc hne
  rw [readWhole, keepSources_ids] at hne
  rw [readWhole, keepSources_src, if_pos]
  change 0 ≤ c ∧ c < 0 + count
  refine ⟨Nat.zero_le c, ?_⟩
  by_contra hout
  exact hne.ne_empty (h.unread c hc (by omega)).1

theorem readWhole_counted {count : ℕ} (hcount : count ≤ p.size) (h : ReadUpTo count m)
    (hcells : ∀ c < count, 0 ≤ (m.cells c).pos ∧ (m.ids c).Nonempty) :
    (m.readWhole count).Counted := by
  refine keepSources_counted ⟨?_, fun c hc => ?_⟩ count
  · have hocc : (m.restart count).occupied = Finset.range count := by
      ext c
      rw [mem_occupied, Finset.mem_range]
      constructor
      · rintro ⟨hc, hne⟩
        by_contra hout
        exact hne.ne_empty (h.unread c hc (not_lt.mp hout)).1
      · exact fun hc => ⟨by omega, (hcells c hc).2⟩
    rw [hocc, Finset.card_range]
    rfl
  · by_cases hin : c < count
    · exact iff_of_true (hcells c hin).1 (hcells c hin).2
    · obtain ⟨hempty, hpos⟩ := h.unread c hc (not_lt.mp hin)
      refine iff_of_false (fun hnonneg => ?_) fun hne => hne.ne_empty hempty
      change 0 ≤ (m.cells c).pos at hnonneg
      omega

theorem stateRead_sourced {io : RestoreStream} {seqId : ℤ} {ok : Bool} (h : m.Settled)
    (hs : m.Sourced) (hread : m.Unbroken io seqId) (heq : m.stateRead io seqId = some (m', ok)) :
    m'.Sourced := by
  refine (stateRead_rule (P := fun m => m.Settled ∧ m.Sourced) ⟨h, hs⟩
    (fun m => ⟨clear_settled m, clear_sourced m⟩)
    (fun m h => ⟨seqRm_settled h.1 seqId (-1) (-1), seqRm_sourced h.2 seqId (-1) (-1)⟩)
    (fun m rs h => ⟨withRsIdx_settled h.1 rs, h.2⟩) (fun count words hwords => ?_) heq).2
  refine stateReadMeta_holds ⟨h, hs⟩
    (fun m h => ⟨seqRm_settled h.1 seqId (-1) (-1), seqRm_sourced h.2 seqId (-1) (-1)⟩)
    (fun m m' ps ok _ h hfind => ?_)
    (fun m h => ⟨keepSources_settled h.1 _, keepSources_sourced h.2 _⟩) fun hall hsize => ?_
  · have hslot := findSlot_slotFound h.1 (grouped_single _ _) hfind
    exact ⟨hslot.settled, hslot.sourced h.2⟩
  · obtain ⟨-, hdone⟩ := readCells_whole m hsize words
    refine ⟨fun m' hthrew => absurd hthrew (hread count words hwords hall hsize m'),
      fun m' rest hcells => ⟨?_, readWhole_sourced (hdone m' rest hcells)⟩⟩
    exact keepSources_settled (restart_settled (hdone m' rest hcells).settled _) _

theorem stateRead_counted {io : RestoreStream} {seqId : ℤ} {ok : Bool} (h : m.Settled)
    (hc : m.Counted) (hread : m.Unbroken io seqId) (hfilled : m.Filled io seqId)
    (heq : m.stateRead io seqId = some (m', ok)) : m'.Counted := by
  refine (stateRead_rule (P := fun m => m.Settled ∧ m.Counted) ⟨h, hc⟩
    (fun m => ⟨clear_settled m, clear_counted m⟩)
    (fun m h => ⟨seqRm_settled h.1 seqId (-1) (-1), seqRm_counted h.2 seqId (-1) (-1)⟩)
    (fun m rs h => ⟨withRsIdx_settled h.1 rs, h.2.of_cells rfl rfl⟩)
    (fun count words hwords => ?_) heq).2
  obtain ⟨hlast, hcells⟩ := hfilled count words hwords
  refine stateReadMeta_holds ⟨h, hc⟩
    (fun m h => ⟨seqRm_settled h.1 seqId (-1) (-1), seqRm_counted h.2 seqId (-1) (-1)⟩)
    (fun m m' ps ok hps h hfind => ?_)
    (fun m h => ⟨keepSources_settled h.1 _, keepSources_counted h.2 _⟩) fun hall hsize => ?_
  · have hslot := findSlot_slotFound h.1 (grouped_single _ _) hfind
    refine ⟨hslot.settled, hslot.counted h.2 fun x hx => ?_⟩
    rw [List.mem_singleton.mp hx]
    exact hlast ps hps
  · obtain ⟨-, hdone⟩ := readCells_whole m hsize words
    refine ⟨fun m' hthrew => absurd hthrew (hread count words hwords hall hsize m'),
      fun m' rest hread => ⟨?_, ?_⟩⟩
    · exact keepSources_settled (restart_settled (hdone m' rest hread).settled _) _
    · exact readWhole_counted hsize (hdone m' rest hread) (hcells hall hsize m' rest hread)

end MemoryRecurrent
end RocmFpx
