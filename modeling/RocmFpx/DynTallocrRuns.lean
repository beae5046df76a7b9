import RocmFpx.DynTallocr
import RocmFpx.GuardedRuns
import Mathlib.Order.Bounds.Defs

/-!
Runs of the dynamic allocator: in every chunk what is free and what is live tile the chunk. Which
chunk serves a request is another matter, for the search for the best fit starts anew in every
chunk and what it finds there takes the place of what it found before.
-/

namespace RocmFpx

open Span TallocrChunk

namespace DynTallocr

/-! ## The search for the best fit -/

/-- The blocks of a chunk that are searched and suffice. -/
def fits (size : ℕ) (chunk : TallocrChunk) : List FreeBlock :=
  chunk.freeBlocks.dropLast.filter (size ≤ ·.size)

variable {size c : ℕ} {chunks : List TallocrChunk} {best : Option (ℕ × ℕ)}

theorem mem_fits {chunk : TallocrChunk} {b : FreeBlock} :
    b ∈ fits size chunk ↔ b ∈ chunk.freeBlocks.dropLast ∧ size ≤ b.size := by
  rw [fits, List.mem_filter, decide_eq_true_iff]

theorem fitLoop_spec (size c : ℕ) (blocks : List FreeBlock) (i bestFitSize : ℕ)
    (best : Option (ℕ × ℕ)) :
    ((∀ b ∈ blocks, size ≤ b.size → bestFitSize < b.size) ∧
      fitLoop size c blocks i bestFitSize best = best) ∨
    ∃ j b, blocks[j]? = some b ∧ size ≤ b.size ∧ b.size ≤ bestFitSize ∧
      (∀ b' ∈ blocks, size ≤ b'.size → b.size ≤ b'.size) ∧
      fitLoop size c blocks i bestFitSize best = some (c, i + j) := by
  induction blocks generalizing i bestFitSize best with
  | nil => exact Or.inl ⟨fun b hb => absurd hb List.not_mem_nil, rfl⟩
  | cons block rest ih =>
    rw [fitLoop]
    split_ifs with hfit
    · refine Or.inr ?_
      rcases ih (i + 1) block.size (some (c, i)) with ⟨hno, hrun⟩ | ⟨j, b, hj, hb, hle, hmin, hrun⟩
      · refine ⟨0, block, rfl, hfit.1, hfit.2, ?_, hrun⟩
        exact List.forall_mem_cons.mpr ⟨fun _ => le_rfl, fun b hb hsize => (hno b hb hsize).le⟩
      · refine ⟨j + 1, b, hj, hb, hle.trans hfit.2, List.forall_mem_cons.mpr ⟨fun _ => hle, hmin⟩, ?_⟩
        rw [hrun, Nat.add_assoc, Nat.add_comm 1 j]
    · rcases ih (i + 1) bestFitSize best with ⟨hno, hrun⟩ | ⟨j, b, hj, hb, hle, hmin, hrun⟩
      · refine Or.inl ⟨List.forall_mem_cons.mpr ⟨fun hsize => ?_, hno⟩, hrun⟩
        exact not_le.mp fun hle => hfit ⟨hsize, hle⟩
      · refine Or.inr ⟨j + 1, b, hj, hb, hle, List.forall_mem_cons.mpr ⟨fun hsize => ?_, hmin⟩, ?_⟩
        · exact hle.trans (not_le.mp fun hle => hfit ⟨hsize, hle⟩).le
        · rw [hrun, Nat.add_assoc, Nat.add_comm 1 j]

theorem bestFit_spec (size c : ℕ) (best : Option (ℕ × ℕ))
    (hmax : ∀ chunk ∈ chunks, ∀ b ∈ chunk.freeBlocks, b.size ≤ sizeMax) :
    ((∀ chunk ∈ chunks, fits size chunk = []) ∧ bestFit size chunks c best = best) ∨
    ∃ k chunk j b, chunks[k]? = some chunk ∧ chunk.freeBlocks.dropLast[j]? = some b ∧
      size ≤ b.size ∧ (∀ b' ∈ fits size chunk, b.size ≤ b'.size) ∧
      (∀ k' chunk', k < k' → chunks[k']? = some chunk' → fits size chunk' = []) ∧
      bestFit size chunks c best = some (c + k, j) := by
  induction chunks generalizing c best with
  | nil => exact Or.inl ⟨fun chunk h => absurd h List.not_mem_nil, rfl⟩
  | cons chunk rest ih =>
    obtain ⟨hfirst, hrest⟩ := List.forall_mem_cons.mp hmax
    rw [bestFit]
    rcases ih (c + 1) (fitLoop size c chunk.freeBlocks.dropLast 0 sizeMax best) hrest
      with ⟨hno, hrun⟩ | ⟨k, chunk', j, b, hk, hj, hb, hmin, hlater, hrun⟩
    · rw [hrun]
      rcases fitLoop_spec size c chunk.freeBlocks.dropLast 0 sizeMax best with
        ⟨hnone, hloop⟩ | ⟨j, b, hj, hb, -, hmin, hloop⟩
      · refine Or.inl ⟨List.forall_mem_cons.mpr ⟨?_, hno⟩, hloop⟩
        refine List.filter_eq_nil_iff.mpr fun b hb hsize => ?_
        have hle := hfirst b (List.dropLast_subset _ hb)
        exact absurd (hnone b hb (by simpa using hsize)) (not_lt.mpr hle)
      · refine Or.inr ⟨0, chunk, j, b, rfl, hj, hb, fun b' hb' => ?_, fun k' chunk' hk' hget => ?_, ?_⟩
        · exact hmin b' (mem_fits.1 hb').1 (mem_fits.1 hb').2
        · obtain ⟨k', rfl⟩ := Nat.exists_eq_succ_of_ne_zero (Nat.ne_of_gt hk')
          exact hno chunk' (List.mem_of_getElem? hget)
        · rw [hloop, Nat.zero_add, Nat.add_zero]
    · refine Or.inr ⟨k + 1, chunk', j, b, hk, hj, hb, hmin, fun k' chunk'' hk' hget => ?_, ?_⟩
      · obtain ⟨k', rfl⟩ := Nat.exists_eq_succ_of_ne_zero (Nat.ne_zero_of_lt hk')
        exact hlater k' chunk'' (Nat.lt_of_succ_lt_succ hk') hget
      · rw [hrun, Nat.add_assoc, Nat.add_comm 1 k]

/-- A request served from a block that is not the last takes a smallest one that suffices. -/
def ServesSmallest (a : DynTallocr) (size : ℕ) : Prop :=
  ∀ c i, bestFit size a.chunks 0 none = some (c, i) →
    ∃ chunk block, a.chunks[c]? = some chunk ∧ chunk.freeBlocks.dropLast[i]? = some block ∧
      size ≤ block.size ∧ ∀ chunk' ∈ a.chunks, ∀ b ∈ fits size chunk', block.size ≤ b.size

/-- The last chunk that has a block that suffices has a smallest one. -/
def LastHasSmallest (a : DynTallocr) (size : ℕ) : Prop :=
  ∀ (k : ℕ) chunk, a.chunks[k]? = some chunk → fits size chunk ≠ [] →
    (∀ (k' : ℕ) chunk', k < k' → a.chunks[k']? = some chunk' → fits size chunk' = []) →
    ∀ chunk' ∈ a.chunks, ∀ b' ∈ fits size chunk', ∃ b ∈ fits size chunk, b.size ≤ b'.size

theorem servesSmallest_iff {a : DynTallocr}
    (hmax : ∀ chunk ∈ a.chunks, ∀ b ∈ chunk.freeBlocks, b.size ≤ sizeMax) :
    ServesSmallest a size ↔ LastHasSmallest a size := by
  rcases bestFit_spec size 0 none hmax with
    ⟨hno, hrun⟩ | ⟨k, chunk, j, b, hk, hj, hb, hmin, hlater, hrun⟩
  · refine iff_of_true (fun c i h => ?_) fun k chunk hk hne => ?_
    · nomatch hrun.symm.trans h
    · exact absurd (hno chunk (List.mem_of_getElem? hk)) hne
  · rw [Nat.zero_add] at hrun
    have hfit : b ∈ fits size chunk := mem_fits.2 ⟨List.mem_of_getElem? hj, hb⟩
    constructor
    · intro h k' chunk' hk' hne hlast chunk'' hchunk'' b'' hb''
      obtain ⟨chunk₁, block, hget, hblock, -, hsmall⟩ := h k j hrun
      obtain rfl := Option.some.inj (hk.symm.trans hget)
      obtain rfl := Option.some.inj (hj.symm.trans hblock)
      have hkk : k' = k := by
        by_contra hkk
        rcases Nat.lt_or_gt_of_ne hkk with hlt | hlt
        · exact absurd (hlast k chunk hlt hk) (List.ne_nil_of_mem hfit)
        · exact hne (hlater k' chunk' hlt hk')
      subst hkk
      obtain rfl := Option.some.inj (hk.symm.trans hk')
      exact ⟨b, hfit, hsmall chunk'' hchunk'' b'' hb''⟩
    · intro h c i hci
      obtain ⟨rfl, rfl⟩ := Prod.mk.inj (Option.some.inj (hrun.symm.trans hci))
      refine ⟨chunk, b, hk, hj, hb, fun chunk' hchunk' b' hb' => ?_⟩
      obtain ⟨b₁, hb₁, hle⟩ := h k chunk hk (List.ne_nil_of_mem hfit) hlater chunk' hchunk' b' hb'
      exact (hmin b₁ hb₁).trans hle

/-! ## What a call does -/

theorem lastFit_spec (size : ℕ) (chunks : List TallocrChunk) (c : ℕ) (reuse : ℤ)
    (best : Option (ℕ × ℕ)) :
    lastFit size chunks c reuse best = best ∨
    ∃ k chunk b, chunks[k]? = some chunk ∧ chunk.freeBlocks[chunk.freeBlocks.length - 1]? = some b ∧
      size ≤ b.size ∧
      lastFit size chunks c reuse best = some (c + k, chunk.freeBlocks.length - 1) := by
  induction chunks generalizing c reuse best with
  | nil => exact Or.inl rfl
  | cons chunk rest ih =>
    have hstep (reuse' : ℤ) : lastFit size rest (c + 1) reuse' best = best ∨
        ∃ k chunk' b, (chunk :: rest)[k]? = some chunk' ∧
          chunk'.freeBlocks[chunk'.freeBlocks.length - 1]? = some b ∧ size ≤ b.size ∧
          lastFit size rest (c + 1) reuse' best =
            some (c + k, chunk'.freeBlocks.length - 1) := by
      refine (ih (c + 1) reuse' best).imp id ?_
      rintro ⟨k, chunk', b, hk, hb, hsize, hrun⟩
      exact ⟨k + 1, chunk', b, hk, hb, hsize, by rw [hrun, Nat.add_assoc, Nat.add_comm 1 k]⟩
    rw [lastFit]
    cases hlast : chunk.freeBlocks.getLast? with
    | none => exact hstep reuse
    | some block =>
      simp only
      split_ifs with htake
      · refine Or.inr ?_
        have hblock : chunk.freeBlocks[chunk.freeBlocks.length - 1]? = some block := by
          rw [← List.getLast?_eq_getElem?]
          exact hlast
        rcases ih (c + 1) (chunk.reuseFactor block size)
          (some (c, chunk.freeBlocks.length - 1)) with hrun | ⟨k, chunk', b, hk, hb, hsize, hrun⟩
        · exact ⟨0, chunk, block, rfl, hblock, htake.1, hrun⟩
        · exact ⟨k + 1, chunk', b, hk, hb, hsize, by rw [hrun, Nat.add_assoc, Nat.add_comm 1 k]⟩
      · exact hstep reuse

variable {a a' : DynTallocr} {addr : BufferAddress}

theorem serve_some {c i : ℕ} (h : a.serve c i size = some (a', addr)) :
    ∃ chunk block, a.chunks[c]? = some chunk ∧ chunk.freeBlocks[i]? = some block ∧
      addr = ⟨c, block.offset⟩ ∧
      a' = { a with chunks := a.chunks.set c (chunk.take i block size) } := by
  obtain ⟨chunk, hchunk, h⟩ := Option.bind_eq_some_iff.mp h
  obtain ⟨block, hblock, h⟩ := Option.bind_eq_some_iff.mp h
  obtain ⟨rfl, rfl⟩ := Prod.mk.inj (Option.some.inj h)
  exact ⟨chunk, block, hchunk, hblock, rfl, rfl⟩

theorem alloc_cases (hmax : ∀ chunk ∈ a.chunks, ∀ b ∈ chunk.freeBlocks, b.size ≤ sizeMax)
    (h : a.alloc size = some (a', addr)) :
    (∃ chunk i block, a.chunks[addr.chunk]? = some chunk ∧ chunk.freeBlocks[i]? = some block ∧
      alignedOffset size a.alignment ≤ block.size ∧ addr.offset = block.offset ∧
      a' = { a with
        chunks := a.chunks.set addr.chunk
          (chunk.take i block (alignedOffset size a.alignment)) }) ∨
    (addr = ⟨a.chunks.length, 0⟩ ∧ a' = { a with
      chunks := a.chunks ++
        [TallocrChunk.take ⟨[⟨0, a.newChunkSize (alignedOffset size a.alignment)⟩], 0⟩ 0
          ⟨0, a.newChunkSize (alignedOffset size a.alignment)⟩
          (alignedOffset size a.alignment)] }) := by
  rw [alloc] at h
  generalize alignedOffset size a.alignment = sz at h ⊢
  rcases bestFit_spec sz 0 none hmax with
    ⟨-, hbest⟩ | ⟨k, chunk, j, b, hk, hj, hb, -, -, hbest⟩
  · rw [hbest] at h
    rcases lastFit_spec sz a.chunks 0 (-2 ^ 63) none with
      hlast | ⟨k, chunk, b, hk, hb, hsize, hlast⟩
    · rw [hlast] at h
      obtain ⟨grown, hgrown, h⟩ := Option.bind_eq_some_iff.mp h
      rw [newChunk] at hgrown
      split_ifs at hgrown
      obtain rfl := Option.some.inj hgrown
      obtain ⟨chunk, block, hchunk, hblock, rfl, rfl⟩ := serve_some h
      rw [List.getElem?_concat_length] at hchunk
      obtain rfl := Option.some.inj hchunk
      obtain rfl := Option.some.inj hblock
      refine Or.inr ⟨rfl, ?_⟩
      rw [List.set_append_right _ _ le_rfl, Nat.sub_self]
      rfl
    · rw [hlast, Nat.zero_add] at h
      obtain ⟨chunk', block, hchunk, hblock, rfl, rfl⟩ := serve_some h
      obtain rfl := Option.some.inj (hk.symm.trans hchunk)
      obtain rfl := Option.some.inj (hb.symm.trans hblock)
      exact Or.inl ⟨chunk, _, b, hk, hb, hsize, rfl, rfl⟩
  · rw [hbest, Nat.zero_add] at h
    obtain ⟨chunk', block, hchunk, hblock, rfl, rfl⟩ := serve_some h
    obtain rfl := Option.some.inj (hk.symm.trans hchunk)
    have hj' : chunk.freeBlocks[j]? = some b := by
      rw [List.getElem?_dropLast] at hj
      split_ifs at hj
      exact hj
    obtain rfl := Option.some.inj (hj'.symm.trans hblock)
    exact Or.inl ⟨chunk, j, b, hk, hj', hb, rfl, rfl⟩

theorem freeBytes_some (h : a.freeBytes addr size = some a') :
    ∃ chunk chunk', a.chunks[addr.chunk]? = some chunk ∧
      chunk.freeBytes addr.offset (alignedOffset size a.alignment) = some chunk' ∧
      a' = { a with chunks := a.chunks.set addr.chunk chunk' } := by
  obtain ⟨chunk, hchunk, h⟩ := Option.bind_eq_some_iff.mp h
  obtain ⟨chunk', hchunk', h⟩ := Option.bind_eq_some_iff.mp h
  exact ⟨chunk, chunk', hchunk, hchunk', (Option.some.inj h).symm⟩

end DynTallocr
/-- What a call of the allocator handed out. -/
structure Allocation where
  chunk : ℕ
  offset : ℕ
  size : ℕ
  deriving DecidableEq

namespace Allocation

def span (a : Allocation) : Span := ⟨a.offset, a.size⟩

/-- The allocations of one chunk. -/
def inChunk (allocations : List Allocation) (c : ℕ) : List Span :=
  (allocations.filter fun a => a.chunk = c).map span

variable {a : Allocation} {allocations more : List Allocation} {c : ℕ}

theorem inChunk_cons_of_eq (h : a.chunk = c) :
    inChunk (a :: allocations) c = a.span :: inChunk allocations c := by
  rw [inChunk, List.filter_cons_of_pos (by simpa using h)]
  rfl

theorem inChunk_cons_of_ne (h : a.chunk ≠ c) :
    inChunk (a :: allocations) c = inChunk allocations c := by
  rw [inChunk, List.filter_cons_of_neg (by simpa using h)]
  rfl

/-- What stays live of an allocation when all but its first bytes is freed. -/
def leftover (a : Allocation) (keep : ℕ) : List Allocation :=
  if keep = 0 then [] else [{ a with size := keep }]

theorem mem_leftover {b : Allocation} {keep : ℕ} (h : b ∈ leftover a keep) :
    b.chunk = a.chunk := by
  rw [leftover] at h
  split_ifs at h
  · nomatch h
  · rw [List.mem_singleton.mp h]

theorem inChunk_perm (h : allocations.Perm more) (c : ℕ) :
    (inChunk allocations c).Perm (inChunk more c) := (h.filter _).map _

end Allocation

/-- The allocator, what is live, what was ever handed out and the sizes of the chunks. -/
structure TallocrRun where
  tallocr : DynTallocr
  live : List Allocation
  handed : List Allocation
  sizes : List ℕ

inductive TallocrAction where
  | alloc (request : ℕ)
  | free (a : Allocation) (keep request : ℕ)

namespace TallocrRun

open Allocation DynTallocr

/-- The allocator after `ggml_dyn_tallocr_reset`. -/
def start (alignment maxChunkSize : ℕ) : TallocrRun := ⟨⟨alignment, maxChunkSize, []⟩, [], [], []⟩

/-- A call: a free names a live allocation, or the part of one behind `keep` aligned bytes. -/
def step (s : TallocrRun) : TallocrAction → Option TallocrRun
  | .alloc request => do
    let r ← s.tallocr.alloc request
    let bytes := alignedOffset request s.tallocr.alignment
    let a : Allocation := ⟨r.2.chunk, r.2.offset, bytes⟩
    some ⟨r.1, a :: s.live, a :: s.handed,
      if r.2.chunk = s.tallocr.chunks.length then s.sizes ++ [s.tallocr.newChunkSize bytes]
      else s.sizes⟩
  | .free a keep request =>
    if a ∈ s.live ∧ s.tallocr.alignment ∣ keep ∧
        a.size = keep + alignedOffset request s.tallocr.alignment then do
      let tallocr ← s.tallocr.freeBytes ⟨a.chunk, a.offset + keep⟩ request
      some { s with
        tallocr := tallocr
        live := leftover a keep ++ s.live.erase a }
    else none

/-- In every chunk what is free and what is live tile the chunk, and `max_size` is the largest end
ever handed out. -/
structure Inv (s : TallocrRun) : Prop where
  sizes_length : s.sizes.length = s.tallocr.chunks.length
  live_chunk : ∀ a ∈ s.live, a.chunk < s.tallocr.chunks.length
  handed_chunk : ∀ a ∈ s.handed, a.chunk < s.tallocr.chunks.length
  sound : ∀ (c : ℕ) chunk n, s.tallocr.chunks[c]? = some chunk → s.sizes[c]? = some n →
    Sound s.tallocr.alignment chunk n (inChunk s.live c)
  maxSize : ∀ (c : ℕ) chunk, s.tallocr.chunks[c]? = some chunk →
    IsGreatest {e | ∃ a ∈ s.handed, a.chunk = c ∧ e = a.span.stop} chunk.maxSize

/-- The condition on a call: the size fits the last chunk, the last chunk with a block that
suffices has a smallest one, and nothing is freed that is empty and touches no free block. -/
def Permits (s : TallocrRun) : TallocrAction → Prop
  | .alloc request =>
    request + (s.tallocr.alignment - request % s.tallocr.alignment) % s.tallocr.alignment ≤
        sizeMax / 2 ∧
      LastHasSmallest s.tallocr (alignedOffset request s.tallocr.alignment)
  | .free a keep request => ∀ chunk, s.tallocr.chunks[a.chunk]? = some chunk →
    Touches chunk (a.offset + keep) (alignedOffset request s.tallocr.alignment)

/-- A request served from a block that is not the last takes a smallest one that suffices. -/
def Serves (s : TallocrRun) : TallocrAction → Prop
  | .alloc request => ServesSmallest s.tallocr (alignedOffset request s.tallocr.alignment)
  | .free _ _ _ => True

variable {s s' : TallocrRun}

theorem start_inv (alignment maxChunkSize : ℕ) : Inv (start alignment maxChunkSize) where
  sizes_length := rfl
  live_chunk _ ha := absurd ha List.not_mem_nil
  handed_chunk _ ha := absurd ha List.not_mem_nil
  sound _ _ _ h := nomatch h
  maxSize _ _ h := nomatch h

theorem Inv.exists_size (h : Inv s) {c : ℕ} {chunk : TallocrChunk}
    (hc : s.tallocr.chunks[c]? = some chunk) : ∃ n, s.sizes[c]? = some n := by
  obtain ⟨hlt, -⟩ := List.getElem?_eq_some_iff.mp hc
  rw [← h.sizes_length] at hlt
  exact ⟨_, List.getElem?_eq_getElem hlt⟩

theorem Inv.block_le (h : Inv s) :
    ∀ chunk ∈ s.tallocr.chunks, ∀ b ∈ chunk.freeBlocks, b.size ≤ sizeMax := by
  intro chunk hchunk b hb
  obtain ⟨c, hc⟩ := List.mem_iff_getElem?.mp hchunk
  obtain ⟨n, hn⟩ := h.exists_size hc
  have hsound := h.sound c chunk n hc hn
  have hle := (hsound.free_le b hb).trans hsound.size_le
  unfold stop at hle
  omega

theorem alignedOffset_dvd {request alignment : ℕ} (halign : 0 < alignment)
    (hle : request + (alignment - request % alignment) % alignment ≤ sizeMax) :
    alignment ∣ alignedOffset request alignment ∧
      alignedOffset request alignment =
        request + (alignment - request % alignment) % alignment := by
  have heq : alignedOffset request alignment =
      request + (alignment - request % alignment) % alignment := wrapSize_eq hle
  refine ⟨?_, heq⟩
  have hlt := Nat.mod_lt request halign
  have hdiv := Nat.div_add_mod request alignment
  rw [heq]
  by_cases hzero : request % alignment = 0
  · rw [hzero, Nat.sub_zero, Nat.mod_self, Nat.add_zero]
    exact Nat.dvd_of_mod_eq_zero hzero
  · rw [Nat.mod_eq_of_lt (by omega : alignment - request % alignment < alignment)]
    refine ⟨request / alignment + 1, ?_⟩
    rw [Nat.mul_add, Nat.mul_one]
    omega

theorem isGreatest_cons {handed : List Allocation} {a : Allocation} {c m : ℕ}
    (h : IsGreatest {e | ∃ b ∈ handed, b.chunk = c ∧ e = b.span.stop} m) (hc : a.chunk = c) :
    IsGreatest {e | ∃ b ∈ a :: handed, b.chunk = c ∧ e = b.span.stop} (max m a.span.stop) := by
  constructor
  · rcases le_total m a.span.stop with hle | hle
    · rw [max_eq_right hle]
      exact ⟨a, List.mem_cons_self, hc, rfl⟩
    · obtain ⟨b, hb, hbc, heq⟩ := h.1
      rw [max_eq_left hle]
      exact ⟨b, List.mem_cons_of_mem _ hb, hbc, heq⟩
  · rintro e ⟨b, hb, hbc, rfl⟩
    rcases List.mem_cons.mp hb with rfl | hb
    · exact le_max_right _ _
    · exact (h.2 ⟨b, hb, hbc, rfl⟩).trans (le_max_left _ _)

theorem isGreatest_other {handed : List Allocation} {a : Allocation} {c m : ℕ}
    (h : IsGreatest {e | ∃ b ∈ handed, b.chunk = c ∧ e = b.span.stop} m) (hc : a.chunk ≠ c) :
    IsGreatest {e | ∃ b ∈ a :: handed, b.chunk = c ∧ e = b.span.stop} m := by
  refine ⟨?_, ?_⟩
  · obtain ⟨b, hb, hbc, heq⟩ := h.1
    exact ⟨b, List.mem_cons_of_mem _ hb, hbc, heq⟩
  · rintro e ⟨b, hb, hbc, rfl⟩
    rcases List.mem_cons.mp hb with rfl | hb
    · exact absurd hbc hc
    · exact h.2 ⟨b, hb, hbc, rfl⟩

theorem Inv.serve (h : Inv s) {c i bytes : ℕ} {chunk : TallocrChunk} {block : FreeBlock}
    (hc : s.tallocr.chunks[c]? = some chunk) (hblock : chunk.freeBlocks[i]? = some block)
    (hsize : bytes ≤ block.size) (hal : s.tallocr.alignment ∣ bytes) :
    Inv ⟨{ s.tallocr with chunks := s.tallocr.chunks.set c (chunk.take i block bytes) },
      ⟨c, block.offset, bytes⟩ :: s.live, ⟨c, block.offset, bytes⟩ :: s.handed, s.sizes⟩ := by
  have hlt := (List.getElem?_eq_some_iff.mp hc).1
  refine ⟨by rw [List.length_set]; exact h.sizes_length, ?_, ?_, ?_, ?_⟩
  · rw [List.length_set]
    exact List.forall_mem_cons.mpr ⟨hlt, h.live_chunk⟩
  · rw [List.length_set]
    exact List.forall_mem_cons.mpr ⟨hlt, h.handed_chunk⟩
  · intro c' chunk' n hc' hn
    by_cases heq : c = c'
    · subst heq
      rw [List.getElem?_set_self hlt] at hc'
      obtain rfl := Option.some.inj hc'
      rw [inChunk_cons_of_eq rfl]
      exact (h.sound c chunk n hc hn).take hblock hsize hal
    · rw [List.getElem?_set_ne heq] at hc'
      rw [inChunk_cons_of_ne heq]
      exact h.sound c' chunk' n hc' hn
  · intro c' chunk' hc'
    by_cases heq : c = c'
    · subst heq
      rw [List.getElem?_set_self hlt] at hc'
      obtain rfl := Option.some.inj hc'
      obtain ⟨n, hn⟩ := h.exists_size hc
      have hsound := h.sound c chunk n hc hn
      have hle := (hsound.free_le block (List.mem_of_getElem? hblock)).trans hsound.size_le
      unfold stop at hle
      have hwrap : wrapSize (block.offset + bytes) = block.offset + bytes :=
        wrapSize_eq (by omega)
      rw [TallocrChunk.take, hwrap]
      exact isGreatest_cons (h.maxSize c chunk hc) rfl
    · rw [List.getElem?_set_ne heq] at hc'
      exact isGreatest_other (h.maxSize c' chunk' hc') heq

theorem Inv.grow (h : Inv s) {n bytes : ℕ} (hsize : bytes ≤ n) (hn : n ≤ sizeMax)
    (hal : s.tallocr.alignment ∣ bytes) :
    Inv ⟨{ s.tallocr with
        chunks := s.tallocr.chunks ++ [TallocrChunk.take ⟨[⟨0, n⟩], 0⟩ 0 ⟨0, n⟩ bytes] },
      ⟨s.tallocr.chunks.length, 0, bytes⟩ :: s.live,
      ⟨s.tallocr.chunks.length, 0, bytes⟩ :: s.handed, s.sizes ++ [n]⟩ := by
  have hnone : inChunk s.live s.tallocr.chunks.length = [] := by
    rw [inChunk, List.filter_eq_nil_iff.mpr, List.map_nil]
    intro a ha
    simpa using Nat.ne_of_lt (h.live_chunk a ha)
  have hlen : ∀ (f : TallocrChunk),
      (s.tallocr.chunks ++ [f]).length = s.tallocr.chunks.length + 1 := fun f => by simp
  refine ⟨?_, ?_, ?_, ?_, ?_⟩
  · rw [List.length_append, hlen, h.sizes_length]
    rfl
  · rw [hlen]
    exact List.forall_mem_cons.mpr
      ⟨Nat.lt_succ_self _, fun a ha => Nat.lt_succ_of_lt (h.live_chunk a ha)⟩
  · rw [hlen]
    exact List.forall_mem_cons.mpr
      ⟨Nat.lt_succ_self _, fun a ha => Nat.lt_succ_of_lt (h.handed_chunk a ha)⟩
  · intro c chunk n' hc hn'
    by_cases heq : c = s.tallocr.chunks.length
    · subst heq
      rw [List.getElem?_concat_length] at hc
      rw [← h.sizes_length, List.getElem?_concat_length] at hn'
      obtain rfl := Option.some.inj hc
      obtain rfl := Option.some.inj hn'
      rw [inChunk_cons_of_eq rfl, hnone]
      exact sound_newChunk hsize hn hal
    · have hlt : c < s.tallocr.chunks.length := by
        have hlt := (List.getElem?_eq_some_iff.mp hc).1
        rw [hlen] at hlt
        omega
      rw [List.getElem?_append_left hlt] at hc
      rw [List.getElem?_append_left (h.sizes_length ▸ hlt)] at hn'
      rw [inChunk_cons_of_ne (Ne.symm heq)]
      exact h.sound c chunk n' hc hn'
  · intro c chunk hc
    by_cases heq : c = s.tallocr.chunks.length
    · subst heq
      rw [List.getElem?_concat_length] at hc
      obtain rfl := Option.some.inj hc
      have hwrap : wrapSize (0 + bytes) = 0 + bytes := wrapSize_eq (by omega)
      rw [TallocrChunk.take, hwrap, Nat.max_eq_right (Nat.zero_le _)]
      refine ⟨⟨_, List.mem_cons_self, rfl, rfl⟩, ?_⟩
      rintro e ⟨b, hb, hbc, rfl⟩
      rcases List.mem_cons.mp hb with rfl | hb
      · exact le_rfl
      · exact absurd hbc (Nat.ne_of_lt (h.handed_chunk b hb))
    · have hlt : c < s.tallocr.chunks.length := by
        have hlt := (List.getElem?_eq_some_iff.mp hc).1
        rw [hlen] at hlt
        omega
      rw [List.getElem?_append_left hlt] at hc
      exact isGreatest_other (h.maxSize c chunk hc) (Ne.symm heq)

theorem Inv.free (h : Inv s) {a : Allocation} {keep bytes : ℕ} {chunk chunk' : TallocrChunk}
    (ha : a ∈ s.live) (hkeep : s.tallocr.alignment ∣ keep) (hsize : a.size = keep + bytes)
    (hc : s.tallocr.chunks[a.chunk]? = some chunk) (htouches : Touches chunk (a.offset + keep) bytes)
    (hrun : chunk.freeBytes (a.offset + keep) bytes = some chunk') :
    Inv { s with
      tallocr := { s.tallocr with chunks := s.tallocr.chunks.set a.chunk chunk' }
      live := leftover a keep ++ s.live.erase a } := by
  have hlt := (List.getElem?_eq_some_iff.mp hc).1
  have hperm := List.perm_cons_erase ha
  have hsame : chunk'.maxSize = chunk.maxSize := by
    rw [TallocrChunk.freeBytes] at hrun
    split at hrun
    · obtain rfl := Option.some.inj hrun
      rfl
    · rw [insertBlock] at hrun
      split_ifs at hrun
      obtain rfl := Option.some.inj hrun
      rfl
  refine ⟨by rw [List.length_set]; exact h.sizes_length, ?_, ?_, ?_, ?_⟩
  · rw [List.length_set]
    intro b hb
    rcases List.mem_append.mp hb with hb | hb
    · exact mem_leftover hb ▸ hlt
    · exact h.live_chunk b (List.mem_of_mem_erase hb)
  · rw [List.length_set]
    exact h.handed_chunk
  · intro c chunk'' n hc' hn
    have hall : inChunk (leftover a keep ++ s.live.erase a) c =
        inChunk (leftover a keep) c ++ inChunk (s.live.erase a) c := by
      rw [inChunk, List.filter_append, List.map_append]
      rfl
    by_cases heq : a.chunk = c
    · subst heq
      rw [List.getElem?_set_self hlt] at hc'
      obtain rfl := Option.some.inj hc'
      have hsound := (h.sound _ chunk n hc hn).perm (inChunk_perm hperm _)
      rw [inChunk_cons_of_eq rfl, Allocation.span, hsize] at hsound
      have hfreed := (hsound.cut hkeep).freeBytes htouches hrun
      by_cases hzero : keep = 0
      · subst hzero
        exact hfreed.drop
      · have hleft : inChunk (leftover a keep) a.chunk = [⟨a.offset, keep⟩] := by
          rw [leftover, if_neg hzero, inChunk_cons_of_eq rfl]
          rfl
        rw [hall, hleft]
        exact hfreed
    · rw [List.getElem?_set_ne heq] at hc'
      have hsound := (h.sound _ chunk'' n hc' hn).perm (inChunk_perm hperm _)
      rw [inChunk_cons_of_ne heq] at hsound
      have hleft : inChunk (leftover a keep) c = [] := by
        rw [inChunk, List.filter_eq_nil_iff.mpr, List.map_nil]
        intro b hb
        simpa using mem_leftover hb ▸ heq
      rw [hall, hleft]
      exact hsound
  · intro c n' hc'
    by_cases heq : a.chunk = c
    · subst heq
      rw [List.getElem?_set_self hlt] at hc'
      obtain rfl := Option.some.inj hc'
      rw [hsame]
      exact h.maxSize _ _ hc
    · rw [List.getElem?_set_ne heq] at hc'
      exact h.maxSize _ _ hc'

theorem Inv.step (h : Inv s) (halign : 0 < s.tallocr.alignment)
    (hmax : s.tallocr.maxChunkSize ≤ sizeMax) {action : TallocrAction} (hok : Permits s action)
    (hrun : step s action = some s') :
    Inv s' ∧ s'.tallocr.alignment = s.tallocr.alignment ∧
      s'.tallocr.maxChunkSize = s.tallocr.maxChunkSize := by
  cases action with
  | alloc request =>
    obtain ⟨hfit, -⟩ := hok
    have hhalf : sizeMax / 2 ≤ sizeMax := Nat.div_le_self _ _
    obtain ⟨hal, heq⟩ := alignedOffset_dvd halign (hfit.trans hhalf)
    rw [← heq] at hfit
    obtain ⟨r, hr, hs'⟩ := Option.bind_eq_some_iff.mp hrun
    obtain rfl := Option.some.inj hs'
    obtain ⟨a', addr⟩ := r
    rcases alloc_cases h.block_le hr with
      ⟨chunk, i, block, hc, hblock, hsize, hoff, rfl⟩ | ⟨rfl, rfl⟩
    · have hlt := (List.getElem?_eq_some_iff.mp hc).1
      refine ⟨?_, rfl, rfl⟩
      rw [if_neg (Nat.ne_of_lt hlt), hoff]
      exact h.serve hc hblock hsize hal
    · refine ⟨?_, rfl, rfl⟩
      rw [if_pos rfl]
      refine h.grow ?_ ?_ hal
      · rw [newChunkSize]
        split_ifs
        · exact hfit
        · exact le_max_left _ _
      · rw [newChunkSize]
        split_ifs
        · exact hhalf
        · exact max_le (hfit.trans hhalf) hmax
  | free a keep request =>
    rw [TallocrRun.step] at hrun
    split_ifs at hrun with hguard
    obtain ⟨ha, hkeep, hsize⟩ := hguard
    obtain ⟨tallocr, hfree, hs'⟩ := Option.bind_eq_some_iff.mp hrun
    obtain rfl := Option.some.inj hs'
    obtain ⟨chunk, chunk', hc, hchunk, rfl⟩ := freeBytes_some hfree
    exact ⟨h.free ha hkeep hsize hc (hok chunk hc) hchunk, rfl, rfl⟩

open GuardedRuns

/-- Every run whose calls meet the condition keeps every chunk tiled, and serves each request that
a block which is not the last can serve from a smallest such block. -/
theorem runs_tile (alignment maxChunkSize : ℕ) (halign : 0 < alignment)
    (hmax : maxChunkSize ≤ sizeMax) (actions : List TallocrAction)
    (h : Meets step Permits (start alignment maxChunkSize) actions) :
    Along step Inv (start alignment maxChunkSize) actions ∧
      Meets step Serves (start alignment maxChunkSize) actions := by
  have hinv : Along step (fun s => Inv s ∧ 0 < s.tallocr.alignment ∧
      s.tallocr.maxChunkSize ≤ sizeMax) (start alignment maxChunkSize) actions := by
    refine along_of_meets (fun s a s' hs hok hrun => ?_)
      ⟨start_inv alignment maxChunkSize, halign, hmax⟩ h
    obtain ⟨hinv, hal, hsize⟩ := hs.1.step hs.2.1 hs.2.2 hok hrun
    exact ⟨hinv, hal ▸ hs.2.1, hsize ▸ hs.2.2⟩
  refine ⟨hinv.mono fun s hs => hs.1, h.imp (fun s a hs hok => ?_) hinv⟩
  cases a with
  | alloc request => exact (servesSmallest_iff hs.1.block_le).mpr hok.2
  | free a keep request => trivial

theorem runs_tile_one : Along step Inv (start 32 128) [.alloc 20, .free ⟨0, 0, 32⟩ 0 20] ∧
    Meets step Serves (start 32 128) [.alloc 20, .free ⟨0, 0, 32⟩ 0 20] := by
  refine runs_tile 32 128 (by decide) (by decide) _ fun s hs => ?_
  obtain rfl := Option.some.inj hs
  refine ⟨⟨by decide, fun k chunk hk => ?_⟩, fun s' _ => ⟨fun chunk _ => Or.inl ?_, trivial⟩⟩
  · nomatch hk
  · decide

/-- Two chunks of 128 bytes, filled and freed so that a block of 32 bytes is left in the first and
one of 64 bytes in the second. -/
def twoChunks : List TallocrAction :=
  [.alloc 32, .alloc 32, .alloc 64, .alloc 64, .alloc 32, .free ⟨0, 0, 32⟩ 0 32,
    .free ⟨0, 64, 64⟩ 0 64, .free ⟨1, 0, 64⟩ 0 64]

/-- The chunks then. -/
def twoChunksFree : List TallocrChunk :=
  [⟨[⟨0, 32⟩, ⟨64, 64⟩], 128⟩, ⟨[⟨0, 64⟩, ⟨96, 32⟩], 96⟩]

/-- An allocation without bytes, freed between two others. -/
def emptyFree : List TallocrAction := [.alloc 64, .alloc 0, .alloc 64, .free ⟨0, 64, 0⟩ 0 0]

/-- The next 32 bytes are taken from the block of 64, though one of 32 is free; and an empty block
is put into the list. -/
theorem twoChunks_serves_larger :
    (∃ s, run step (start 32 128) twoChunks = some s ∧ s.tallocr.chunks = twoChunksFree ∧
      bestFit 32 s.tallocr.chunks 0 none = some (1, 0) ∧ ¬ Serves s (.alloc 32)) ∧
    ∃ s, run step (start 32 128) emptyFree = some s ∧
      s.tallocr.chunks = [⟨[⟨64, 0⟩], 128⟩] ∧ ¬ Inv s := by
  constructor
  · refine ⟨_, rfl, rfl, rfl, fun h => ?_⟩
    obtain ⟨chunk, block, hchunk, hblock, -, hsmall⟩ := h 1 0 rfl
    obtain rfl := Option.some.inj hchunk
    obtain rfl := Option.some.inj hblock
    have hle := hsmall _ List.mem_cons_self ⟨0, 32⟩ (by decide)
    exact absurd hle (by decide)
  · refine ⟨_, rfl, rfl, fun h => ?_⟩
    have hpos := (h.sound 0 ⟨[⟨64, 0⟩], 128⟩ 128 rfl rfl).apart.pos ⟨64, 0⟩ List.mem_cons_self
    exact absurd hpos (by decide)

end TallocrRun
end RocmFpx
