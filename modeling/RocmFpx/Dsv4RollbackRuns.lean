import RocmFpx.Dsv4Rollback

/-!
Runs of decoding, removing, copying, saving and restoring. A careful step keeps every sequence on
the ring of its tokens; a rollback past the last ubatch does not.
-/

namespace RocmFpx.Dsv4

variable {E α : Type*} {lay : Layout}

/-! ## Streams -/

section

variable {state state' : ℕ → α} {copies : List (ℕ × ℕ)} {c : ℕ × ℕ} {k s x r : ℕ}

theorem copyStream_row (hc : c.2 < lay.nStream) (hs : s < lay.nStream) (hr : r < lay.stateSize) :
    lay.copyStream state c (lay.planeRow k s r) =
      if k = 0 ∧ s = c.2 then state (lay.planeRow 0 c.1 r) else state (lay.planeRow k s r) := by
  have hiff : k * lay.nStream + s = c.2 ↔ k = 0 ∧ s = c.2 := by
    constructor
    · intro h
      obtain ⟨rfl, rfl⟩ := row_inj hs hc (h.trans (by rw [Nat.zero_mul, Nat.zero_add]))
      exact ⟨rfl, rfl⟩
    · rintro ⟨rfl, rfl⟩
      rw [Nat.zero_mul, Nat.zero_add]
  rw [Layout.copyStream, planeRow_div hr, planeRow_mod hr, planeRow_zero]
  exact if_congr hiff rfl rfl

/-- The rows of a stream that is not copied to. -/
theorem applyCopies_kept (hlt : ∀ c ∈ copies, c.1 < lay.nStream ∧ c.2 < lay.nStream)
    (hkeep : ∀ c ∈ copies, c.2 ≠ s) (hs : s < lay.nStream) (hr : r < lay.stateSize) :
    lay.applyCopies copies state (lay.planeRow k s r) = state (lay.planeRow k s r) := by
  induction copies using List.reverseRecOn with
  | nil => rfl
  | append_singleton copies c ih =>
    have hmem : c ∈ copies ++ [c] := List.mem_append_right _ List.mem_cons_self
    rw [Layout.applyCopies, List.foldl_append, List.foldl_cons, List.foldl_nil,
      copyStream_row (hlt c hmem).2 hs hr, if_neg fun h => hkeep c hmem h.2.symm]
    exact ih (fun c hc => hlt c (List.mem_append_left _ hc))
      fun c hc => hkeep c (List.mem_append_left _ hc)

/-- The two states have the same rows but for stream `x`. -/
def SameBut (lay : Layout) (x : ℕ) (state state' : ℕ → α) : Prop :=
  ∀ k ≤ lay.nRsSeq, ∀ s < lay.nStream, s ≠ x → ∀ r < lay.stateSize,
    state' (lay.planeRow k s r) = state (lay.planeRow k s r)

theorem SameBut.applyCopies (h : SameBut lay x state state')
    (hlt : ∀ c ∈ copies, c.1 < lay.nStream ∧ c.2 < lay.nStream)
    (hsrc : ∀ c ∈ copies, c.1 ≠ x) :
    SameBut lay x (lay.applyCopies copies state) (lay.applyCopies copies state') := by
  induction copies using List.reverseRecOn with
  | nil => exact h
  | append_singleton copies c ih =>
    have hmem : c ∈ copies ++ [c] := List.mem_append_right _ List.mem_cons_self
    have hsame := ih (fun c hc => hlt c (List.mem_append_left _ hc))
      fun c hc => hsrc c (List.mem_append_left _ hc)
    intro k hk s hs hne r hr
    simp only [Layout.applyCopies, List.foldl_append, List.foldl_cons, List.foldl_nil]
    rw [copyStream_row (hlt c hmem).2 hs hr, copyStream_row (hlt c hmem).2 hs hr]
    split_ifs
    · exact hsame 0 (Nat.zero_le _) c.1 (hlt c hmem).1 (hsrc c hmem) r hr
    · exact hsame k hk s hs hne r hr

theorem clear_row [Zero α] (hk : k ≤ lay.nRsSeq) (hs : s < lay.nStream) (hx : x < lay.nStream)
    (hr : r < lay.stateSize) :
    lay.clear x state (lay.planeRow k s r) = if s = x then 0 else state (lay.planeRow k s r) := by
  rw [Layout.clear, planeRow_div hr]
  refine if_congr ?_ rfl rfl
  rw [List.mem_map]
  constructor
  · rintro ⟨d, -, heq⟩
    exact (row_inj hx hs heq).2.symm
  · rintro rfl
    exact ⟨k, List.mem_range.mpr (Nat.lt_succ_of_le hk), rfl⟩

theorem sameBut_clear [Zero α] (hx : x < lay.nStream) :
    SameBut lay x state (lay.clear x state) := by
  intro k hk s hs hne r hr
  rw [clear_row hk hs hx hr, if_neg hne]

end

/-! ## Decoding -/

section

variable {s : ℕ}

theorem foldl_set_getD (l rs : List ℕ) :
    (l.foldl (fun rs s => rs.set s 0) rs).getD s 0 = if s ∈ l then 0 else rs.getD s 0 := by
  induction l generalizing rs with
  | nil => rfl
  | cons x l ih =>
    rw [List.foldl_cons, ih]
    by_cases hx : x = s
    · subst hx
      rw [if_pos List.mem_cons_self]
      split_ifs
      · rfl
      · rw [List.getD_eq_getElem?_getD, List.getElem?_set_self']
        cases rs[x]? <;> rfl
    · simp only [List.mem_cons, Ne.symm hx, false_or]
      rw [List.getD_eq_getElem?_getD, List.getElem?_set_ne hx, ← List.getD_eq_getElem?_getD]

theorem foldl_set_length (l rs : List ℕ) :
    (l.foldl (fun rs s => rs.set s 0) rs).length = rs.length := by
  induction l generalizing rs with
  | nil => rfl
  | cons x l ih => rw [List.foldl_cons, ih, List.length_set]

/-- The sequences of the tokens of the ubatches. -/
def seqsOf (ubs : List (Ubatch E)) : List ℕ :=
  ubs.flatMap fun ub => (List.range ub.nTokens).flatMap ub.seqIdAt

theorem seqsOf_cons (ub : Ubatch E) (ubs : List (Ubatch E)) :
    s ∈ seqsOf (ub :: ubs) ↔ (∃ i < ub.nTokens, s ∈ ub.seqIdAt i) ∨ s ∈ seqsOf ubs := by
  rw [seqsOf, List.flatMap_cons, List.mem_append, List.mem_flatMap]
  exact or_congr (exists_congr fun i => and_congr List.mem_range Iff.rfl) Iff.rfl

variable {m : Memory α}

theorem len_runUbatch (m : Memory α) (x : Decode E α × CompPlan) :
    (m.runUbatch lay x).len = lenAfter m.len x.1.ub := by
  funext s
  rw [Memory.len, Memory.runUbatch, List.length_append, List.length_map]
  rfl

variable (lay) in
theorem runUbatches_kept (xs : List (Decode E α × CompPlan)) (m : Memory α) :
    (xs.foldl (Memory.runUbatch lay) m).rsIdx = m.rsIdx ∧
      (xs.foldl (Memory.runUbatch lay) m).copies = m.copies ∧
        (xs.foldl (Memory.runUbatch lay) m).saved = m.saved := by
  induction xs generalizing m with
  | nil => exact ⟨rfl, rfl, rfl⟩
  | cons x xs ih => exact ih (m.runUbatch lay x)

theorem resetRsIdx_length (ubs : List (Ubatch E)) (rsIdx : List ℕ) :
    (lay.resetRsIdx ubs rsIdx).length = rsIdx.length := by
  rw [Layout.resetRsIdx]
  split_ifs
  · rfl
  · exact foldl_set_length _ rsIdx

theorem resetRsIdx_getD {ubs : List (Ubatch E)} {rsIdx : List ℕ}
    (hle : rsIdx.getD s 0 ≤ lay.nRsSeq) :
    (lay.resetRsIdx ubs rsIdx).getD s 0 =
      ((seqsOf ubs).foldl (fun rs s => rs.set s 0) rsIdx).getD s 0 := by
  rw [Layout.resetRsIdx]
  split_ifs with h0
  · rw [foldl_set_getD]
    split_ifs
    · omega
    · rfl
  · rfl

variable [Zero α]

/-- The sequences of a memory with the rollbacks `rs`. -/
def AllGood (lay : Layout) (m : Memory α) (rs : List ℕ) : Prop :=
  ∀ s < lay.nStream, Good lay m.state s (m.tokens s) (m.recent s) (rs.getD s 0)

theorem runUbatches_good {ds : List (Decode E α)} {rs : List ℕ} (h : AllGood lay m rs)
    (hcont : Contiguous lay m.len ds) :
    ∃ plans, lay.buildCompPlans (ds.map Decode.ub) rs = .ok plans ∧
      AllGood lay ((ds.zip plans).foldl (Memory.runUbatch lay) m)
        ((seqsOf (ds.map Decode.ub)).foldl (fun rs s => rs.set s 0) rs) := by
  induction ds generalizing m rs with
  | nil => exact ⟨[], rfl, h⟩
  | cons d ds ih =>
    obtain ⟨hf, hc, hrest⟩ := hcont
    obtain ⟨b, b', dummies, hplan, hb, hpad, -⟩ := buildCompPlan_ok hc hf rs
    let rs' := (d.ub.seqIdUnq.take d.ub.nSeqsUnq).foldl (fun rs s => rs.set s 0) rs
    have hrs' : ∀ s, rs'.getD s 0 = if s ∈ d.ub.seqIdUnq then 0 else rs.getD s 0 := by
      intro s
      rw [foldl_set_getD, hf.unq_length, List.take_length]
    have hgood : AllGood lay (m.runUbatch lay (d, planOf lay d.ub rs b')) rs' := by
      intro s hs
      rw [hrs']
      exact (h s hs).runPlan hc hf hb hpad hs rfl
    rw [← len_runUbatch m (d, planOf lay d.ub rs b')] at hrest
    obtain ⟨plans, hplans, hall⟩ := ih hgood hrest
    refine ⟨planOf lay d.ub rs b' :: plans, ?_, fun s hs => ?_⟩
    · rw [List.map_cons, Layout.buildCompPlans, hplan]
      change (lay.buildCompPlans (ds.map Decode.ub) rs' >>= fun plans => pure (_ :: plans)) = _
      rw [hplans]
      rfl
    · have hfinal := hall s hs
      have hsame : ((seqsOf (ds.map Decode.ub)).foldl (fun rs s => rs.set s 0) rs').getD s 0 =
          ((seqsOf ((d :: ds).map Decode.ub)).foldl (fun rs s => rs.set s 0) rs).getD s 0 := by
        rw [foldl_set_getD _ rs', hrs', foldl_set_getD _ rs, List.map_cons]
        by_cases h1 : s ∈ seqsOf (ds.map Decode.ub)
        · rw [if_pos h1, if_pos ((seqsOf_cons _ _).mpr (Or.inr h1))]
        · by_cases h2 : s ∈ d.ub.seqIdUnq
          · rw [if_neg h1, if_pos h2, if_pos ((seqsOf_cons _ _).mpr (Or.inl ((hf.mem_unq s).mp h2)))]
          · rw [if_neg h1, if_neg h2, if_neg fun h =>
              ((seqsOf_cons _ _).mp h).elim (fun h => h2 ((hf.mem_unq s).mpr h)) h1]
      rwa [hsame] at hfinal

end

/-! ## Steps -/

section

variable [Zero α] {m : Memory α} {s : ℕ}

/-- The pending copies counted as made, every sequence is good, and so is what has been saved. -/
structure Inv (lay : Layout) (m : Memory α) : Prop where
  length : m.rsIdx.length = lay.nStream
  good : ∀ s < lay.nStream,
    Good lay (lay.applyCopies m.copies m.state) s (m.tokens s) (m.recent s) (m.rs s)
  saved : ∀ b ∈ m.saved, IsRing lay.stateSize b.tokens b.rows
  copies : ∀ c ∈ m.copies, c.1 < lay.nStream ∧ c.2 < lay.nStream

theorem inv_start (lay : Layout) : Inv lay (Memory.start lay : Memory α) where
  length := List.length_replicate
  good s hs := by
    have hrs : (Memory.start lay : Memory α).rs s = 0 := by
      rw [Memory.rs, Memory.start, List.getD_eq_getElem?_getD, List.getElem?_replicate, if_pos hs]
      rfl
    rw [hrs]
    exact Good.of_current (isRing_nil fun _ _ => rfl)
  saved _ h := absurd h List.not_mem_nil
  copies _ h := absurd h List.not_mem_nil

theorem Inv.selected (h : Inv lay m) : Selected lay m := fun s hs => (h.good s hs).selected

theorem set_getD {l : List ℕ} {x v : ℕ} (hx : x < l.length) :
    (l.set x v).getD s 0 = if s = x then v else l.getD s 0 := by
  rw [List.getD_eq_getElem?_getD, List.getD_eq_getElem?_getD]
  split_ifs with hs
  · rw [hs, List.getElem?_set_self hx]
    rfl
  · rw [List.getElem?_set_ne (Ne.symm hs)]

/-- A step that gives sequence `x` new tokens with a ring in the current plane. -/
theorem Inv.update (h : Inv lay m) {x : ℕ} (hx : x < lay.nStream) {state' : ℕ → α}
    {copies' : List (ℕ × ℕ)} {tokens : List α}
    (hcopies : ∀ c ∈ copies', c.1 < lay.nStream ∧ c.2 < lay.nStream)
    (hsame : SameBut lay x (lay.applyCopies m.copies m.state) (lay.applyCopies copies' state'))
    (hring : IsRing lay.stateSize tokens fun r =>
      lay.applyCopies copies' state' (lay.planeRow 0 x r)) :
    Inv lay { m with
      state := state'
      copies := copies'
      rsIdx := m.rsIdx.set x 0
      tokens := Function.update m.tokens x tokens
      recent := Function.update m.recent x 0 } where
  length := by rw [List.length_set, h.length]
  good s hs := by
    simp only [Memory.rs]
    rw [set_getD (h.length.symm ▸ hx)]
    by_cases hsx : s = x
    · subst hsx
      rw [if_pos rfl, Function.update_self, Function.update_self]
      exact Good.of_current hring
    · rw [if_neg hsx, Function.update_of_ne hsx, Function.update_of_ne hsx]
      exact (h.good s hs).congr fun k hk r hr => hsame k hk s hs hsx r hr
  saved := h.saved
  copies := hcopies

theorem Inv.decode (h : Inv lay m) {ds : List (Decode E α)} (hcont : Contiguous lay m.len ds) :
    ∃ m', m.decode lay ds = some m' ∧ Inv lay m' := by
  let m₀ : Memory α := { m with
    state := lay.applyCopies m.copies m.state
    copies := []
    rsIdx := lay.resetRsIdx (ds.map Decode.ub) m.rsIdx }
  have hstart : AllGood lay m₀ m.rsIdx := h.good
  obtain ⟨plans, hplans, hall⟩ := runUbatches_good hstart hcont
  obtain ⟨hrs, hcopies, hsaved⟩ := runUbatches_kept lay (ds.zip plans) m₀
  refine ⟨_, by rw [Memory.decode, hplans], ?_, fun s hs => ?_, ?_, ?_⟩
  · rw [hrs, resetRsIdx_length, h.length]
  · have hgood := hall s hs
    rw [← resetRsIdx_getD (h.good s hs).rs_le] at hgood
    rw [hcopies, Memory.rs, hrs]
    exact hgood
  · rw [hsaved]
    exact h.saved
  · rw [hcopies]
    exact fun _ hc => absurd hc List.not_mem_nil

theorem Inv.seqRm (h : Inv lay m) {p0 : ℤ} (hs : s < lay.nStream)
    (hcare : (Op.seqRm s p0 : Op E α).Careful lay m) : Inv lay (m.seqRm lay s p0).2 := by
  rw [Op.Careful] at hcare
  rw [Memory.seqRm]
  by_cases hp : 0 < p0
  · rw [if_pos hp] at hcare ⊢
    dsimp only
    split_ifs with h1 h2 h3 h4 h5
    · exact h
    · exact h
    · exact h
    · exact h
    · exact h
    · obtain ⟨hone, hmax⟩ := not_or.mp h4
      have hrecent := hcare (not_lt.mp hone) (not_lt.mp hmax) (not_not.mp h5)
      obtain ⟨d, hd⟩ := Int.eq_ofNat_of_zero_le
        (show 0 ≤ m.posMax s - (p0 - 1) by omega)
      have hlen : (m.tokens s).length - d = p0.toNat := by
        rw [Memory.posMax, Memory.len] at hd
        omega
      rw [hd] at hrecent hmax ⊢
      have hring := (h.good s hs).planes (not_not.mp h5) d (by exact_mod_cast hrecent)
        (by exact_mod_cast not_lt.mp hmax)
      rw [hlen] at hring
      refine ⟨by rw [List.length_set, h.length], fun x hx => ?_, h.saved, h.copies⟩
      simp only [Memory.rs]
      rw [set_getD (h.length.symm ▸ hs)]
      by_cases hxs : x = s
      · subst hxs
        rw [if_pos rfl, Function.update_self]
        refine ⟨?_, hring, fun h0 => ?_⟩
        · exact_mod_cast not_lt.mp hmax
        · have : d = 0 := h0
          omega
      · rw [if_neg hxs, Function.update_of_ne hxs]
        exact h.good x hx
  · rw [if_neg hp] at hcare ⊢
    refine h.update hs h.copies ((sameBut_clear hs).applyCopies h.copies fun c hc =>
      (hcare c hc).1) (isRing_nil fun r hr => ?_)
    rw [applyCopies_kept h.copies (fun c hc => (hcare c hc).2) hs hr,
      clear_row (Nat.zero_le _) hs hs hr, if_pos rfl]

theorem Inv.seqCp (h : Inv lay m) {src dst : ℕ} (hsrc : src < lay.nStream)
    (hdst : dst < lay.nStream) (hcare : (Op.seqCp src dst : Op E α).Careful lay m) :
    Inv lay (m.seqCp lay src dst) := by
  rw [Memory.seqCp]
  split_ifs with hne
  · exact h
  obtain ⟨hrs, hcopied⟩ := hcare.resolve_left hne
  have hclear : SameBut lay dst m.state (lay.clear dst m.state) := sameBut_clear hdst
  have hsame := hclear.applyCopies h.copies hcopied
  have hrow : ∀ k s r, s < lay.nStream → r < lay.stateSize →
      lay.applyCopies (m.copies ++ [(src, dst)]) (lay.clear dst m.state) (lay.planeRow k s r) =
        if k = 0 ∧ s = dst then
          lay.applyCopies m.copies (lay.clear dst m.state) (lay.planeRow 0 src r)
        else lay.applyCopies m.copies (lay.clear dst m.state) (lay.planeRow k s r) := by
    intro k s r hs hr
    rw [Layout.applyCopies, List.foldl_append, List.foldl_cons, List.foldl_nil,
      copyStream_row hdst hs hr]
    rfl
  refine h.update hdst (fun c hc => ?_) (fun k hk s hs hsd r hr => ?_) ?_
  · obtain hc | hc := List.mem_append.mp hc
    · exact h.copies c hc
    · rw [List.mem_singleton.mp hc]
      exact ⟨hsrc, hdst⟩
  · rw [hrow k s r hs hr, if_neg fun hc => hsd hc.2]
    exact hsame k hk s hs hsd r hr
  · have hring := (h.good src hsrc).selected
    rw [hrs] at hring
    refine hring.congr fun r hr => ?_
    rw [hrow 0 dst r hdst hr, if_pos ⟨rfl, rfl⟩]
    exact hsame 0 (Nat.zero_le _) src hsrc hne r hr

theorem Inv.stateWrite (h : Inv lay m) {partialOnly : Bool} (hs : s < lay.nStream)
    (hcare : (Op.stateWrite s partialOnly : Op E α).Careful lay m) :
    ∃ m', m.stateWrite lay s partialOnly = some m' ∧ Inv lay m' := by
  rw [Memory.stateWrite, if_neg (not_lt.mpr (h.good s hs).rs_le)]
  refine ⟨_, rfl, h.length, h.good, fun b hb => ?_, h.copies⟩
  obtain hb | hb := List.mem_append.mp hb
  · exact h.saved b hb
  · rw [List.mem_singleton.mp hb]
    refine (h.good s hs).selected.congr fun r hr => ?_
    exact (applyCopies_kept h.copies hcare hs hr).symm

theorem Inv.stateRead (h : Inv lay m) {blob : SavedSeq α} (hs : s < lay.nStream)
    (hblob : IsRing lay.stateSize blob.tokens blob.rows)
    (hcare : ∀ c ∈ m.copies, c.1 ≠ s ∧ c.2 ≠ s) : Inv lay (m.stateRead lay s blob) := by
  rw [Memory.stateRead]
  refine h.update hs h.copies (SameBut.applyCopies (fun k hk x hx hne r hr => ?_) h.copies
    fun c hc => (hcare c hc).1) (hblob.congr fun r hr => ?_)
  · rw [planeRow_div hr, if_neg fun heq => ?_]
    · split_ifs
      · rfl
      · exact sameBut_clear hs k hk x hx hne r hr
    · exact hne (row_inj hx hs (heq.trans (by rw [Nat.zero_mul, Nat.zero_add] : s = 0 * lay.nStream + s))).2
  · rw [applyCopies_kept h.copies (fun c hc => (hcare c hc).2) hs hr, planeRow_div hr,
      planeRow_mod hr, Nat.zero_mul, Nat.zero_add, if_pos rfl]

theorem Inv.step (h : Inv lay m) {op : Op E α} (hallowed : op.Allowed lay m)
    (hcare : op.Careful lay m) : ∃ m', op.step lay m = some m' ∧ Inv lay m' := by
  cases op with
  | decode ds => exact h.decode hallowed
  | seqRm s p0 => exact ⟨_, rfl, h.seqRm hallowed hcare⟩
  | seqCp src dst => exact ⟨_, rfl, h.seqCp hallowed.1 hallowed.2 hcare⟩
  | stateWrite s partialOnly => exact h.stateWrite hallowed hcare
  | stateRead s k =>
    obtain ⟨hs, hk⟩ := hallowed
    refine ⟨m.stateRead lay s m.saved[k], ?_, h.stateRead hs (h.saved _ (List.getElem_mem hk)) hcare⟩
    rw [Op.step, List.getElem?_eq_getElem hk]
    rfl

theorem Inv.run {ops : List (Op E α)} (h : Inv lay m)
    (hsteps : Op.AllSteps (fun m op => op.Allowed lay m ∧ op.Careful lay m) lay m ops) :
    ∃ m', Op.run lay m ops = some m' ∧ Inv lay m' := by
  induction ops generalizing m with
  | nil => exact ⟨m, rfl, h⟩
  | cons op ops ih =>
    obtain ⟨⟨hallowed, hcare⟩, hrest⟩ := hsteps
    obtain ⟨m', hstep, hinv⟩ := h.step hallowed hcare
    obtain ⟨m'', hrun, hinv'⟩ := ih hinv (hrest m' hstep)
    refine ⟨m'', ?_, hinv'⟩
    rw [Op.run, List.foldlM_cons, hstep]
    exact hrun

/-- In a run of careful steps the selected plane of every sequence is the ring of the tokens that
have survived. -/
theorem selected_of_careful (lay : Layout) (ops : List (Op E α))
    (h : Op.AllSteps (fun m op => op.Allowed lay m ∧ op.Careful lay m) lay (Memory.start lay) ops) :
    ∃ m, Op.run lay (Memory.start lay) ops = some m ∧ Selected lay m := by
  obtain ⟨m, hrun, hinv⟩ := (inv_start lay).run h
  exact ⟨m, hrun, hinv.selected⟩

end

/-! ## Two runs of one sequence -/

theorem buildCompPlans_length {ubs : List (Ubatch E)} {rs : List ℕ} {plans : List CompPlan}
    (h : lay.buildCompPlans ubs rs = .ok plans) : plans.length = ubs.length := by
  induction ubs generalizing rs plans with
  | nil =>
    cases h
    rfl
  | cons ub ubs ih =>
    rw [Layout.buildCompPlans] at h
    cases hplan : lay.buildCompPlan ub rs with
    | error e =>
      rw [hplan] at h
      cases h
    | ok plan =>
      rw [hplan] at h
      change (lay.buildCompPlans ubs _ >>= fun plans => pure (plan :: plans)) = _ at h
      cases hplans : lay.buildCompPlans ubs
          ((ub.seqIdUnq.take ub.nSeqsUnq).foldl (fun rs s => rs.set s 0) rs) with
      | error e =>
        rw [hplans] at h
        cases h
      | ok rest =>
        rw [hplans] at h
        cases h
        rw [List.length_cons, List.length_cons, ih hplans]

theorem len_runUbatches (xs : List (Decode E α × CompPlan)) (m : Memory α) :
    (xs.foldl (Memory.runUbatch lay) m).len =
      (xs.map Prod.fst).foldl (fun len d => lenAfter len d.ub) m.len := by
  induction xs generalizing m with
  | nil => rfl
  | cons x xs ih => rw [List.foldl_cons, ih, len_runUbatch, List.map_cons, List.foldl_cons]

theorem decode_len {m m' : Memory α} {ds : List (Decode E α)} (h : m.decode lay ds = some m') :
    m'.len = ds.foldl (fun len d => lenAfter len d.ub) m.len := by
  rw [Memory.decode] at h
  split at h
  · cases h
  · rename_i plans hplans
    have hlen := buildCompPlans_length hplans
    rw [List.length_map] at hlen
    rw [← Option.some.inj h, len_runUbatches, List.map_fst_zip hlen.ge]
    rfl

/-- Tokens of sequence 0 from position `a` on; the row of position `p` is `p + 1`. -/
def oneSeqDecode (a n : ℕ) : Decode Unit ℕ := ⟨oneSeqUbatch a n, fun i => a + i + 1⟩

theorem allowed_decode {m : Memory ℕ} (hlay : lay = Layout.csa 64 1 2) {a n : ℕ} (hn : 0 < n)
    (hlen : m.len = fun s => if s = 0 then a else 0) (hfit : a + n ≤ 64) :
    (Op.decode [oneSeqDecode a n]).Allowed lay m := by
  subst hlay
  refine ⟨oneSeqUbatch_formed hn (by decide), oneSeqUbatch_continues (by rw [hlen]; rfl)
    (fun s => ?_) hfit, trivial⟩
  rw [hlen]
  change (if s = 0 then a else 0) ≤ 64
  split_ifs <;> omega

theorem len_oneSeqDecode {m m' : Memory ℕ} {a n : ℕ}
    (hlen : m.len = fun s => if s = 0 then a else 0)
    (h : (Op.decode [oneSeqDecode a n]).step lay m = some m') :
    m'.len = fun s => if s = 0 then a + n else 0 := by
  rw [decode_len h]
  funext s
  change lenAfter m.len (oneSeqUbatch a n : Ubatch Unit) s = _
  rw [lenAfter, hlen, oneSeqUbatch_tokenIdxs]
  dsimp only
  split_ifs
  · rw [List.length_range]
  · rfl

/-- Nine tokens, of which two are taken back and the rest is saved. -/
theorem selected_of_careful_nine :
    ∃ m, Op.run (Layout.csa 64 1 2) (Memory.start (Layout.csa 64 1 2))
        [.decode [oneSeqDecode 0 9], .seqRm 0 7, .stateWrite 0 false] = some m ∧
      Selected (Layout.csa 64 1 2) m := by
  refine selected_of_careful _ _ ⟨⟨allowed_decode rfl (by decide) (funext fun _ => (ite_self 0).symm)
    (by decide), trivial⟩, fun m h => ?_⟩
  have hfacts : (m.posMax 0, m.rs 0, m.recent 0, m.copies) = (8, 0, 9, []) := by
    have heval : ((Op.decode [oneSeqDecode 0 9]).step (Layout.csa 64 1 2)
        (Memory.start (Layout.csa 64 1 2))).map
          (fun m => (m.posMax 0, m.rs 0, m.recent 0, m.copies)) = some (8, 0, 9, []) := by
      decide +kernel
    rw [h] at heval
    exact Option.some.inj heval
  simp only [Prod.mk.injEq] at hfacts
  obtain ⟨hpos, -, hrecent, hcopies⟩ := hfacts
  refine ⟨⟨Nat.one_pos, ?_⟩, fun m' h' => ⟨⟨Nat.one_pos, ?_⟩, fun _ _ => trivial⟩⟩
  · rw [Op.Careful, if_pos (by decide), hpos, hrecent]
    exact fun _ _ _ => by decide
  · have hcopies' : m'.copies = m.copies := by
      rw [← Option.some.inj h', Memory.seqRm, if_pos (by decide)]
      dsimp only
      split_ifs <;> rfl
    intro c hc
    rw [hcopies', hcopies] at hc
    exact absurd hc List.not_mem_nil

/-- Nine tokens and then one more; two are taken back, which reaches behind the last ubatch. Row 0
of the plane holds position 8, which has been removed, and not position 0. -/
theorem rollback_past_ubatch :
    Op.AllSteps (fun m op => op.Allowed (Layout.csa 64 1 2) m) (Layout.csa 64 1 2)
        (Memory.start (Layout.csa 64 1 2))
        [.decode [oneSeqDecode 0 9], .decode [oneSeqDecode 9 1], .seqRm 0 8] ∧
      ∃ m, Op.run (Layout.csa 64 1 2) (Memory.start (Layout.csa 64 1 2))
          [.decode [oneSeqDecode 0 9], .decode [oneSeqDecode 9 1], .seqRm 0 8] = some m ∧
        ¬ Selected (Layout.csa 64 1 2) m := by
  have hstart : (Memory.start (Layout.csa 64 1 2) : Memory ℕ).len = fun s => if s = 0 then 0 else 0 :=
    funext fun _ => (ite_self 0).symm
  constructor
  · refine ⟨allowed_decode rfl (by decide) hstart (by decide), fun m h => ?_⟩
    exact ⟨allowed_decode rfl (by decide) (len_oneSeqDecode hstart h) (by decide),
      fun _ _ => ⟨Nat.one_pos, fun _ _ => trivial⟩⟩
  · have heval : (Op.run (Layout.csa 64 1 2) (Memory.start (Layout.csa 64 1 2))
        [.decode [oneSeqDecode 0 9], .decode [oneSeqDecode 9 1], .seqRm 0 8]).map
          (fun m => (m.state ((Layout.csa 64 1 2).planeRow 2 0 0), m.rs 0, m.copies, m.tokens 0)) =
        some (9, 2, [], [1, 2, 3, 4, 5, 6, 7, 8]) := by
      decide +kernel
    obtain ⟨m, hrun, hm⟩ := Option.map_eq_some_iff.mp heval
    simp only [Prod.mk.injEq] at hm
    obtain ⟨hrow, hrs, hcopies, htokens⟩ := hm
    refine ⟨m, hrun, fun hsel => ?_⟩
    have h0 := (hsel 0 Nat.one_pos 0 (Layout.stateSize_pos _)).1 0
    rw [hrs, hcopies, htokens] at h0
    have hrow0 := h0 ((isGreatest_iff (Layout.stateSize_pos _)).mpr ⟨by decide, rfl, by decide⟩)
    have hone : (1 : ℕ) = m.state ((Layout.csa 64 1 2).planeRow 2 0 0) := Option.some.inj hrow0
    rw [hrow] at hone
    exact absurd hone (by decide)

end RocmFpx.Dsv4
