import RocmFpx.KvRestore
import Mathlib.Data.Set.Card

/-!
`find_slot` in both of its modes. Token by token the search collects usable cells; with `cont` it
looks for one window of them, and leaves a window at its first cell that is not usable. Every start
it passes over is accounted for in `Visited`, so a search that gives up has seen them all.
-/

namespace RocmFpx
namespace KvCache

variable {E : Type*} (p : KvParams)

/-! ## The two modes -/

/-- The test of up to `k` cells from `head`: the head afterwards and the cells collected. With
`cont` the first cell that cannot be used ends it. -/
def testCells (usable : ℕ → Bool) (cont : Bool) : ℕ → ℕ → List ℕ → ℕ × List ℕ
  | 0, head, idxs => (head, idxs)
  | k + 1, head, idxs =>
    if usable head then testCells usable cont k (head + 1) (idxs ++ [head])
    else if cont then (head + 1, idxs)
    else testCells usable cont k (head + 1) idxs

/-- The search loop; `fuel` bounds its iterations. `n_tested` grows with the head. -/
def scanWith (usable : ℕ → Bool) (cont : Bool) (size nTokens : ℕ) :
    ℕ → ℕ → ℕ → List ℕ → Option (Option (List ℕ))
  | 0, _, _, _ => none
  | fuel + 1, head, nTested, idxs =>
    let nTest := if cont then nTokens else 1
    if head + nTest > size then
      scanWith usable cont size nTokens fuel 0 (nTested + (size - head)) idxs
    else
      let tested := testCells usable cont nTest head idxs
      let nTested := nTested + (tested.1 - head)
      if tested.2.length = nTokens then some (some tested.2)
      else if nTested ≥ size then some none
      else scanWith usable cont size nTokens fuel tested.1 nTested (if cont then [] else tested.2)

def findIdxsWith (cont : Bool) (cells : KvCells) (head nTokens : ℕ) : Option (Option (List ℕ)) :=
  if nTokens > cells.size then some none
  else
    scanWith (canUse p cells) cont cells.size nTokens (2 * cells.size + 2)
      (scanHead head cells.getUsed nTokens) 0 []

def findSlotForWith (c : KvCache) (ub : Ubatch E) (cont : Bool) (nTokens s : ℕ) :
    Option (Option (ℕ × List ℕ)) :=
  let seqId := ub.seqIdUnq.getD s 0
  if p.nStream > 1 ∧ ub.seqIdAt (s * nTokens) ≠ [seqId] then none
  else
    let strm := p.seqToStream seqId
    (findIdxsWith p cont (c.vCells strm) (c.vHeads strm) nTokens).map
      fun r => r.map fun idxs => (strm, idxs)

def findSlotsWith (c : KvCache) (ub : Ubatch E) (cont : Bool) (nTokens : ℕ) :
    List ℕ → Option (Option (List (ℕ × List ℕ)))
  | [] => some (some [])
  | s :: rest =>
    match findSlotForWith p c ub cont nTokens s with
    | none => none
    | some none => some none
    | some (some slot) =>
      (findSlotsWith c ub cont nTokens rest).map fun r => r.map fun slots => slot :: slots

/-- The streams asked for a slot. -/
def slotSeqs (ub : Ubatch E) : ℕ := if p.nStream > 1 then ub.nSeqsUnq else 1

/-- The tokens that each of them gets. -/
def slotTokens (ub : Ubatch E) : ℕ :=
  if p.nStream > 1 then ub.nTokens / ub.nSeqsUnq else ub.nTokens

/-- `find_slot`, with its argument `cont`. -/
def findSlotWith (c : KvCache) (ub : Ubatch E) (cont : Bool) : Option (Option SlotInfo) :=
  if p.nStream > 1 ∧ (ub.nSeqsUnq = 0 ∨ ub.nTokens % ub.nSeqsUnq ≠ 0) then none
  else
    (findSlotsWith p c ub cont (slotTokens p ub) (List.range (slotSeqs p ub))).map
      fun r => r.map slotInfoOf

theorem scanWith_false (usable : ℕ → Bool) (size nTokens fuel head nTested : ℕ) (idxs : List ℕ) :
    scanWith usable false size nTokens fuel head nTested idxs =
      scan usable size nTokens fuel head nTested idxs := by
  induction fuel generalizing head nTested idxs with
  | zero => rfl
  | succ fuel ih =>
    have htest : testCells usable false 1 head idxs = (head + 1, addUsable usable head idxs) := by
      by_cases h : usable head = true
      · simp [testCells, addUsable, h]
      · simp [testCells, addUsable, h]
    simp [scanWith, scan, htest, ih]

theorem findIdxsWith_false (cells : KvCells) (head nTokens : ℕ) :
    findIdxsWith p false cells head nTokens = findIdxs p cells head nTokens := by
  rw [findIdxsWith, findIdxs, scanWith_false]

/-! ## What the search has passed over -/

/-- `P` holds of every start that the search has passed over, in the ring from `start` on. -/
def Visited (size start head nTested : ℕ) (P : ℕ → Prop) : Prop :=
  (start ≤ head ∧ head ≤ size ∧ nTested = head - start ∧ ∀ i, start ≤ i → i < head → P i) ∨
    (start ≤ size ∧ nTested + start = size + head ∧ ∀ i, start ≤ i ∨ i < head → P i) ∨
    (size ≤ nTested ∧ ∀ i, P i)

variable {usable : ℕ → Bool} {size nTokens start : ℕ} {P : ℕ → Prop}

theorem Visited.wrap {head nTested : ℕ} (h : Visited size start head nTested P)
    (hhead : head ≤ size) (hrest : ∀ i, head ≤ i → P i) :
    Visited size start 0 (nTested + (size - head)) P := by
  rcases h with ⟨h1, -, h2, hP⟩ | ⟨h1, h2, hP⟩ | ⟨h1, hP⟩
  · refine .inr (.inl ⟨h1.trans hhead, by omega, fun i hi => ?_⟩)
    rcases lt_or_ge i head with hlt | hge
    · exact hP i (by omega) hlt
    · exact hrest i hge
  · refine .inr (.inr ⟨by omega, fun i => ?_⟩)
    rcases lt_or_ge i head with hlt | hge
    · exact hP i (.inr hlt)
    · exact hrest i hge
  · exact .inr (.inr ⟨by omega, hP⟩)

theorem Visited.advance {head nTested head' : ℕ} {Q : ℕ → Prop}
    (h : Visited size start head nTested P) (hle : head ≤ head') (hfit : head' ≤ size)
    (himp : ∀ i, P i → Q i) (hnew : ∀ i, head ≤ i → i < head' → Q i) :
    Visited size start head' (nTested + (head' - head)) Q := by
  rcases h with ⟨h1, -, h2, hP⟩ | ⟨h1, h2, hP⟩ | ⟨h1, hP⟩
  · refine .inl ⟨by omega, hfit, by omega, fun i h3 h4 => ?_⟩
    rcases lt_or_ge i head with hlt | hge
    · exact himp i (hP i h3 hlt)
    · exact hnew i hge h4
  · refine .inr (.inl ⟨h1, by omega, fun i hi => ?_⟩)
    rcases lt_or_ge i head with hlt | hge
    · exact himp i (hP i (.inr hlt))
    · rcases hi with h3 | h3
      · exact himp i (hP i (.inl h3))
      · exact hnew i hge h3
  · exact .inr (.inr ⟨by omega, fun i => himp i (hP i)⟩)

theorem Visited.all {head nTested : ℕ} (h : Visited size start head nTested P)
    (hfull : size ≤ nTested) (hout : ∀ i, size ≤ i → P i) (i : ℕ) : P i := by
  rcases h with ⟨h1, h3, h2, hP⟩ | ⟨h1, h2, hP⟩ | ⟨-, hP⟩
  · rcases lt_or_ge i size with hlt | hge
    · exact hP i (by omega) (by omega)
    · exact hout i hge
  · exact hP i (by omega)
  · exact hP i

/-! ## The cells of one window -/

/-- `nTokens` usable cells in a row from `w`. -/
def IsWindow (usable : ℕ → Bool) (size nTokens w : ℕ) : Prop :=
  w + nTokens ≤ size ∧ ∀ i, w ≤ i → i < w + nTokens → usable i = true

theorem testCells_true (k head : ℕ) (idxs : List ℕ) :
    ((∀ i, head ≤ i → i < head + k → usable i = true) ∧
      testCells usable true k head idxs = (head + k, idxs ++ List.range' head k)) ∨
    ∃ bad, head ≤ bad ∧ bad < head + k ∧ usable bad ≠ true ∧
      (testCells usable true k head idxs).1 = bad + 1 ∧
      (testCells usable true k head idxs).2.length < idxs.length + k := by
  induction k generalizing head idxs with
  | zero => exact .inl ⟨fun i h1 h2 => by omega, by simp [testCells]⟩
  | succ k ih =>
    by_cases hu : usable head = true
    · simp only [testCells, hu, if_true]
      rcases ih (head + 1) (idxs ++ [head]) with ⟨hall, heq⟩ | ⟨bad, h1, h2, h3, h4, h5⟩
      · refine .inl ⟨fun i h1 h2 => ?_, ?_⟩
        · rcases eq_or_lt_of_le h1 with rfl | hlt
          · exact hu
          · exact hall i hlt (by omega)
        · rw [heq, List.range'_succ, List.append_assoc, List.singleton_append]
          congr 1
          omega
      · refine .inr ⟨bad, by omega, by omega, h3, h4, ?_⟩
        simp only [List.length_append, List.length_singleton] at h5
        omega
    · exact .inr ⟨head, le_rfl, by omega, hu, by simp [testCells, hu], by simp [testCells, hu]⟩

theorem scanWith_true (hn : 0 < nTokens) (hsize : nTokens ≤ size) (fuel : ℕ) {head nTested : ℕ}
    (hhead : head ≤ size)
    (hvisited : Visited size start head nTested fun w => ¬IsWindow usable size nTokens w)
    (hfuel : 2 * (size - nTested) + (if head + nTokens > size then 1 else 0) < fuel) :
    (∃ w, IsWindow usable size nTokens w ∧
      scanWith usable true size nTokens fuel head nTested [] =
        some (some (List.range' w nTokens))) ∨
    (∀ w, ¬IsWindow usable size nTokens w) ∧
      scanWith usable true size nTokens fuel head nTested [] = some none := by
  have hout : ∀ w, size ≤ w → ¬IsWindow usable size nTokens w := by
    intro w hw hwin
    have := hwin.1
    omega
  induction fuel generalizing head nTested with
  | zero => exact absurd hfuel (Nat.not_lt_zero _)
  | succ fuel ih =>
    simp only [scanWith, if_true]
    by_cases hwrap : head + nTokens > size
    · rw [if_pos hwrap] at hfuel ⊢
      refine ih (Nat.zero_le _) (hvisited.wrap hhead fun w hw hwin => ?_) ?_
      · have := hwin.1
        omega
      · rw [if_neg (by omega)]
        omega
    · rw [if_neg hwrap] at hfuel ⊢
      rcases @testCells_true usable nTokens head [] with
        ⟨hall, heq⟩ | ⟨bad, h1, h2, h3, h4, h5⟩
      · refine .inl ⟨head, ⟨by omega, hall⟩, ?_⟩
        simp [heq]
      · rw [if_neg (by simp at h5; omega), h4]
        -- every window that starts up to `bad` contains it
        have hpassed := hvisited.advance (show head ≤ bad + 1 by omega) (by omega) (fun _ hw => hw)
          fun w hw hlt hwin => h3 (hwin.2 bad (by omega) (by omega))
        by_cases hfull : nTested + (bad + 1 - head) ≥ size
        · rw [if_pos hfull]
          exact .inr ⟨hpassed.all hfull hout, rfl⟩
        · rw [if_neg hfull]
          refine ih (by omega) hpassed ?_
          split_ifs <;> omega

/-! ## The cells one by one -/

theorem addUsable_length_le {head : ℕ} {idxs : List ℕ} (hlen : idxs.length < nTokens) :
    (addUsable usable head idxs).length ≤ nTokens := by
  rw [addUsable]
  split_ifs
  · simpa using hlen
  · exact hlen.le

theorem Visited.push {head nTested : ℕ} {idxs : List ℕ}
    (h : Visited size start head nTested fun i => i < size → usable i = true → i ∈ idxs)
    (hfit : head + 1 ≤ size) :
    Visited size start (head + 1) (nTested + 1) fun i =>
      i < size → usable i = true → i ∈ addUsable usable head idxs := by
  have hsub : ∀ i ∈ idxs, i ∈ addUsable usable head idxs := by
    intro i hi
    rw [addUsable]
    split_ifs
    · exact List.mem_append_left _ hi
    · exact hi
  have hnew : ∀ i, head ≤ i → i < head + 1 → i < size → usable i = true →
      i ∈ addUsable usable head idxs := by
    intro i h1 h2 _ hu
    obtain rfl : i = head := by omega
    simp [addUsable, hu]
  have hstep := h.advance (show head ≤ head + 1 by omega) hfit
    (fun i hP hlt hu => hsub i (hP hlt hu)) hnew
  rwa [show head + 1 - head = 1 by omega] at hstep

theorem scan_gives_up (fuel : ℕ) {head nTested : ℕ} {idxs : List ℕ} (hhead : head ≤ size)
    (hvisited : Visited size start head nTested fun i => i < size → usable i = true → i ∈ idxs)
    (hlen : idxs.length < nTokens)
    (hrun : scan usable size nTokens fuel head nTested idxs = some none) :
    {i | i < size ∧ usable i = true}.ncard < nTokens := by
  induction fuel generalizing head nTested idxs with
  | zero => exact absurd hrun (by simp [scan])
  | succ fuel ih =>
    simp only [scan] at hrun
    split_ifs at hrun with hwrap hfound hfull
    · exact ih (Nat.zero_le _) (hvisited.wrap hhead fun i hi hlt => absurd hlt (by omega)) hlen hrun
    · simp at hrun
    · have hall := (hvisited.push (by omega)).all hfull fun i hi hlt => absurd hlt (by omega)
      have hlt : (addUsable usable head idxs).length < nTokens :=
        lt_of_le_of_ne (addUsable_length_le hlen) hfound
      have hsub : {i | i < size ∧ usable i = true} ⊆ (addUsable usable head idxs).toFinset := by
        intro i hi
        simpa using hall i hi.1 hi.2
      calc {i | i < size ∧ usable i = true}.ncard
          ≤ (addUsable usable head idxs).toFinset.card := by
            rw [← Set.ncard_coe_finset]
            exact Set.ncard_le_ncard hsub (Finset.finite_toSet _)
        _ ≤ (addUsable usable head idxs).length := List.toFinset_card_le _
        _ < nTokens := hlt
    · exact ih (by omega) (hvisited.push (by omega))
        (lt_of_le_of_ne (addUsable_length_le hlen) hfound) hrun

/-! ## Room in a stream -/

/-- The cell is empty, or it holds exactly one sequence whose next token no longer sees it. -/
def Usable (cells : KvCells) (i : ℕ) : Prop :=
  cells.isEmpty i = true ∨
    ∃ s, cells.seq i = {s} ∧ isMaskedSwa p.nSwa p.swaType (cells.pos i) (cells.seqPosMax s + 1) = true

variable {p}

theorem canUse_iff {cells : KvCells} {i : ℕ} (h : ∀ s ∈ cells.seq i, s < llamaMaxSeq) :
    canUse p cells i = true ↔ Usable p cells i := by
  rw [canUse, Usable, Bool.or_eq_true]
  refine or_congr_right ?_
  have hget : ∀ s, cells.seq i = {s} → cells.seqGet i = some s := by
    intro s hs
    have hlt : s < llamaMaxSeq := h s (by simp [hs])
    rw [KvCells.seqGet, List.find?_range_eq_some]
    refine ⟨by simp [KvCells.seqHas, hs], by simpa using hlt, fun j hj => ?_⟩
    have hne : j ≠ s := by omega
    simp [KvCells.seqHas, hs, hne]
  rw [Bool.and_eq_true, decide_eq_true_iff, KvCells.seqCount, Finset.card_eq_one]
  constructor
  · rintro ⟨⟨s, hs⟩, hmask⟩
    rw [hget s hs] at hmask
    exact ⟨s, hs, hmask⟩
  · rintro ⟨s, hs, hmask⟩
    rw [hget s hs]
    exact ⟨⟨s, hs⟩, hmask⟩

/-- There is room for `nTokens` tokens: in a window with `cont`, else anywhere. -/
def Room (p : KvParams) (cells : KvCells) (nTokens : ℕ) (cont : Bool) : Prop :=
  if cont then ∃ w, w + nTokens ≤ cells.size ∧ ∀ i, w ≤ i → i < w + nTokens → Usable p cells i
  else nTokens ≤ {i | i < cells.size ∧ Usable p cells i}.ncard

/-- A slot: distinct usable cells, one for each token, in a row with `cont`. -/
structure IsSlot (p : KvParams) (cells : KvCells) (nTokens : ℕ) (cont : Bool) (idxs : List ℕ) :
    Prop where
  length : idxs.length = nTokens
  nodup : idxs.Nodup
  usable : ∀ i ∈ idxs, i < cells.size ∧ Usable p cells i
  window : cont = true → ∃ w, idxs = List.range' w nTokens

theorem findIdxsWith_exact {cells : KvCells} (hcells : ∀ i, ∀ s ∈ cells.seq i, s < llamaMaxSeq)
    {head nTokens : ℕ} (hhead : head ≤ cells.size) (hn : 0 < nTokens) (cont : Bool) :
    (∃ idxs, findIdxsWith p cont cells head nTokens = some (some idxs) ∧
      Room p cells nTokens cont ∧ IsSlot p cells nTokens cont idxs) ∨
    findIdxsWith p cont cells head nTokens = some none ∧ ¬Room p cells nTokens cont := by
  have huse (i : ℕ) : canUse p cells i = true ↔ Usable p cells i := canUse_iff (hcells i)
  have hwindow (w : ℕ) : IsWindow (canUse p cells) cells.size nTokens w ↔
      w + nTokens ≤ cells.size ∧ ∀ i, w ≤ i → i < w + nTokens → Usable p cells i := by
    simp only [IsWindow, huse]
  have hset : {i | i < cells.size ∧ Usable p cells i} =
      {i | i < cells.size ∧ canUse p cells i = true} := by simp only [huse]
  have hfin : {i | i < cells.size ∧ canUse p cells i = true}.Finite :=
    (Set.finite_lt_nat cells.size).subset fun i hi => hi.1
  have hstart : scanHead head cells.getUsed nTokens ≤ cells.size := by
    rw [scanHead]
    split_ifs <;> omega
  cases cont with
  | true =>
    rw [findIdxsWith]
    by_cases hbig : nTokens > cells.size
    · refine .inr ⟨by rw [if_pos hbig], fun hroom => ?_⟩
      obtain ⟨w, hw, -⟩ := hroom
      omega
    · rw [if_neg hbig]
      have hvisited : Visited cells.size (scanHead head cells.getUsed nTokens)
          (scanHead head cells.getUsed nTokens) 0
          fun w => ¬IsWindow (canUse p cells) cells.size nTokens w :=
        .inl ⟨le_rfl, hstart, by omega, fun i h1 h2 => absurd h1 (by omega)⟩
      rcases scanWith_true hn (by omega) (2 * cells.size + 2) hstart hvisited
        (by split_ifs <;> omega) with ⟨w, hw, hrun⟩ | ⟨hnone, hrun⟩
      · refine .inl ⟨_, hrun, ⟨w, (hwindow w).mp hw⟩, ?_, List.nodup_range', fun i hi => ?_,
          fun _ => ⟨w, rfl⟩⟩
        · exact List.length_range'
        · rw [List.mem_range'_1] at hi
          have hin := hw.1
          exact ⟨by omega, (huse i).mp (hw.2 i hi.1 hi.2)⟩
      · refine .inr ⟨hrun, ?_⟩
        rintro ⟨w, hw⟩
        exact hnone w ((hwindow w).mpr hw)
  | false =>
    have hroom : Room p cells nTokens false ↔
        nTokens ≤ {i | i < cells.size ∧ canUse p cells i = true}.ncard := by
      rw [← hset]
      rfl
    rw [findIdxsWith_false, hroom]
    rcases hrun : findIdxs p cells head nTokens with _ | _ | idxs
    · exact absurd hrun (findIdxs_returns hhead hn)
    · refine .inr ⟨rfl, not_le.mpr ?_⟩
      rw [findIdxs] at hrun
      split_ifs at hrun with hbig
      · refine lt_of_le_of_lt ?_ hbig
        calc {i | i < cells.size ∧ canUse p cells i = true}.ncard
            ≤ (Finset.range cells.size).card := by
              rw [← Set.ncard_coe_finset]
              exact Set.ncard_le_ncard (fun i hi => by simpa using hi.1) (Finset.finite_toSet _)
          _ = cells.size := Finset.card_range _
      · refine scan_gives_up _ hstart (.inl ⟨le_rfl, hstart, by omega, fun i h1 h2 => ?_⟩) ?_ hrun
        · omega
        · exact hn
    · obtain ⟨hlen, hnd, hus⟩ := findIdxs_sound hhead hrun hn
      refine .inl ⟨idxs, rfl, ?_, hlen, hnd, fun i hi => ⟨(hus i hi).1, (huse i).mp (hus i hi).2⟩,
        fun h => absurd h (by decide)⟩
      calc nTokens = idxs.toFinset.card := by rw [List.toFinset_card_of_nodup hnd, hlen]
        _ = (idxs.toFinset : Set ℕ).ncard := (Set.ncard_coe_finset _).symm
        _ ≤ _ := Set.ncard_le_ncard (fun i hi => hus i (by simpa using hi)) hfin

/-! ## Slots of an ubatch -/

/-- What `find_slot` asserts or relies on: tokens, at least one sequence, sequences in range, and
with several streams one block of tokens for each of them. -/
structure Slottable (p : KvParams) (ub : Ubatch E) : Prop where
  tokens : 0 < ub.nTokens
  seqs : 0 < ub.nSeqsUnq
  unq_length : ub.seqIdUnq.length = ub.nSeqsUnq
  unq_lt : ∀ s ∈ ub.seqIdUnq, s < p.seqToStreamSize
  even : p.nStream > 1 → ub.nTokens % ub.nSeqsUnq = 0
  blocks : p.nStream > 1 → ∀ s < ub.nSeqsUnq,
    ub.seqIdAt (s * (ub.nTokens / ub.nSeqsUnq)) = [ub.seqIdUnq.getD s 0]

/-- The stream of the `s`-th sequence of the ubatch. -/
def slotStream (p : KvParams) (ub : Ubatch E) (s : ℕ) : ℕ := p.seqToStream (ub.seqIdUnq.getD s 0)

theorem Slottable.slotTokens_pos {ub : Ubatch E} (h : Slottable p ub) : 0 < slotTokens p ub := by
  rw [slotTokens]
  split_ifs with hstrm
  · exact Nat.div_pos (Nat.le_of_dvd h.tokens (Nat.dvd_of_mod_eq_zero (h.even hstrm))) h.seqs
  · exact h.tokens

theorem Slottable.slotStream_lt {ub : Ubatch E} (h : Slottable p ub) {s : ℕ}
    (hs : s < slotSeqs p ub) : slotStream p ub s < p.nStream := by
  have hlt : s < ub.seqIdUnq.length := by
    have := h.seqs
    rw [h.unq_length]
    rw [slotSeqs] at hs
    split_ifs at hs <;> omega
  rw [slotStream, List.getD_eq_getElem _ _ hlt]
  exact p.seqToStream_lt (h.unq_lt _ (List.getElem_mem hlt))

theorem findSlotsWith_exact {c : KvCache} {ub : Ubatch E} {cont : Bool} {nTokens : ℕ} (ss : List ℕ)
    (hone : ∀ s ∈ ss,
      (∃ idxs, findSlotForWith p c ub cont nTokens s = some (some (slotStream p ub s, idxs)) ∧
        Room p (c.vCells (slotStream p ub s)) nTokens cont ∧
        IsSlot p (c.vCells (slotStream p ub s)) nTokens cont idxs) ∨
      findSlotForWith p c ub cont nTokens s = some none ∧
        ¬Room p (c.vCells (slotStream p ub s)) nTokens cont) :
    (∃ slots, findSlotsWith p c ub cont nTokens ss = some (some slots) ∧
      (∀ s ∈ ss, Room p (c.vCells (slotStream p ub s)) nTokens cont) ∧
      List.Forall₂ (fun s slot => slot.1 = slotStream p ub s ∧
        IsSlot p (c.vCells slot.1) nTokens cont slot.2) ss slots) ∨
    findSlotsWith p c ub cont nTokens ss = some none ∧
      ∃ s ∈ ss, ¬Room p (c.vCells (slotStream p ub s)) nTokens cont := by
  induction ss with
  | nil => exact .inl ⟨[], rfl, by simp, .nil⟩
  | cons s ss ih =>
    rw [findSlotsWith]
    rcases hone s (by simp) with ⟨idxs, hrun, hroom, hslot⟩ | ⟨hrun, hroom⟩
    · rw [hrun]
      rcases ih fun s' hs' => hone s' (by simp [hs']) with
        ⟨slots, hrest, hrooms, hslots⟩ | ⟨hrest, s', hs', hroom'⟩
      · refine .inl ⟨(slotStream p ub s, idxs) :: slots, by simp [hrest], ?_,
          .cons ⟨rfl, hslot⟩ hslots⟩
        intro s' hs'
        rcases List.mem_cons.mp hs' with rfl | hs'
        · exact hroom
        · exact hrooms s' hs'
      · exact .inr ⟨by simp [hrest], s', by simp [hs'], hroom'⟩
    · exact .inr ⟨by rw [hrun], s, by simp, hroom⟩

/-- `find_slot` always answers. It finds a slot exactly where every stream of the ubatch has room,
and the slot has distinct usable cells of each of these streams, in a row with `cont`. -/
theorem findSlotWith_exact {c : KvCache} (h : Reachable E p c) {heads : ℕ → ℕ}
    (hheads : ∀ t < p.nStream, heads t ≤ p.kvSize) {ub : Ubatch E} (hub : Slottable p ub)
    (cont : Bool) :
    ∃ r, findSlotWith p { c with vHeads := heads } ub cont = some r ∧
      (r.isSome = true ↔ ∀ s < slotSeqs p ub,
        Room p (c.vCells (slotStream p ub s)) (slotTokens p ub) cont) ∧
      ∀ sinfo, r = some sinfo → List.Forall₂ (fun s slot => slot.1 = slotStream p ub s ∧
        IsSlot p (c.vCells slot.1) (slotTokens p ub) cont slot.2)
        (List.range (slotSeqs p ub)) sinfo.slots := by
  have hinv := h.inv
  have hone : ∀ s ∈ List.range (slotSeqs p ub),
      (∃ idxs, findSlotForWith p { c with vHeads := heads } ub cont (slotTokens p ub) s =
          some (some (slotStream p ub s, idxs)) ∧
        Room p (c.vCells (slotStream p ub s)) (slotTokens p ub) cont ∧
        IsSlot p (c.vCells (slotStream p ub s)) (slotTokens p ub) cont idxs) ∨
      findSlotForWith p { c with vHeads := heads } ub cont (slotTokens p ub) s = some none ∧
        ¬Room p (c.vCells (slotStream p ub s)) (slotTokens p ub) cont := by
    intro s hs
    have hlt := hub.slotStream_lt (List.mem_range.mp hs)
    have hasked : ¬(p.nStream > 1 ∧
        ub.seqIdAt (s * slotTokens p ub) ≠ [ub.seqIdUnq.getD s 0]) := by
      rintro ⟨hstrm, hne⟩
      rw [slotTokens, if_pos hstrm] at hne
      rw [slotSeqs, if_pos hstrm] at hs
      exact hne (hub.blocks hstrm s (List.mem_range.mp hs))
    have hids : ∀ i, ∀ q ∈ (c.vCells (slotStream p ub s)).seq i, q < llamaMaxSeq :=
      fun i q hq => lt_of_lt_of_le ((hinv.cells _ i).home q hq).1 p.seqToStreamSize_le
    have hhead : heads (slotStream p ub s) ≤ (c.vCells (slotStream p ub s)).size := by
      rw [hinv.size _ hlt]
      exact hheads _ hlt
    simp only [findSlotForWith, if_neg hasked]
    rcases findIdxsWith_exact hids hhead hub.slotTokens_pos cont with
      ⟨idxs, hrun, hroom, hslot⟩ | ⟨hrun, hroom⟩
    · refine .inl ⟨idxs, ?_, hroom, hslot⟩
      change Option.map _ (findIdxsWith p cont (c.vCells (slotStream p ub s))
        (heads (slotStream p ub s)) (slotTokens p ub)) = _
      rw [hrun]
      rfl
    · refine .inr ⟨?_, hroom⟩
      change Option.map _ (findIdxsWith p cont (c.vCells (slotStream p ub s))
        (heads (slotStream p ub s)) (slotTokens p ub)) = _
      rw [hrun]
      rfl
  have hok : ¬(p.nStream > 1 ∧ (ub.nSeqsUnq = 0 ∨ ub.nTokens % ub.nSeqsUnq ≠ 0)) := by
    rintro ⟨hstrm, h0 | h0⟩
    · exact absurd hub.seqs (by omega)
    · exact h0 (hub.even hstrm)
  rw [findSlotWith, if_neg hok]
  rcases findSlotsWith_exact _ hone with ⟨slots, hrun, hrooms, hslots⟩ | ⟨hrun, s, hs, hroom⟩
  · refine ⟨some (slotInfoOf slots), by rw [hrun]; rfl, ?_, ?_⟩
    · exact ⟨fun _ s hs => hrooms s (List.mem_range.mpr hs), fun _ => rfl⟩
    · rintro _ ⟨rfl⟩
      exact hslots
  · refine ⟨none, by rw [hrun]; rfl, ⟨fun h => absurd h (by decide), fun hall => ?_⟩,
      fun _ h => absurd h (by simp)⟩
    exact absurd (hall s (List.mem_range.mp hs)) hroom

/-! ## Two tokens from the last of four cells -/

def fourCells : KvParams where
  nSeqMax := 1
  nStream := 1
  kvSize := 4
  nSwa := 0
  swaType := .none
  nPosPerEmbd := 1
  pleNHeads := 0
  pleImageTokenId := 0
  pleEosTokenId := 0
  archStep35 := false
  hasRope := true
  stream_cases := KvParams.oneStream_cases
  seqMax_pos := Nat.one_pos
  seqMax_le := KvParams.one_le_llamaMaxSeq

def tokenPair : Ubatch Unit := { Ubatch.empty with nTokens := 2, nSeqsUnq := 1, seqIdUnq := [0] }

example : findSlotWith fourCells { init fourCells with vHeads := fun _ => 3 } tokenPair true =
    some (some ⟨0, 0, [(0, [0, 1])]⟩) := by decide

example : findSlotWith fourCells { init fourCells with vHeads := fun _ => 3 } tokenPair false =
    some (some ⟨0, 0, [(0, [3, 0])]⟩) := by decide

theorem slottable_tokenPair : Slottable fourCells tokenPair where
  tokens := by decide
  seqs := by decide
  unq_length := rfl
  unq_lt := by decide
  even h := absurd h (by decide)
  blocks h := absurd h (by decide)

theorem findSlotWith_exact_fourCells :
    ∃ r, findSlotWith fourCells { init fourCells with vHeads := fun _ => 3 } tokenPair true =
        some r ∧
      (r.isSome = true ↔ ∀ s < 1, Room fourCells ((init fourCells).vCells
        (slotStream fourCells tokenPair s)) 2 true) ∧
      ∀ sinfo, r = some sinfo → List.Forall₂ (fun s slot => slot.1 = slotStream fourCells tokenPair s ∧
        IsSlot fourCells ((init fourCells).vCells slot.1) 2 true slot.2) (List.range 1) sinfo.slots :=
  findSlotWith_exact (.init (E := Unit)) (fun _ _ => by decide) slottable_tokenPair true

end KvCache
end RocmFpx
