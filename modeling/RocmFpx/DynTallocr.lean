import RocmFpx.SizeT
import RocmFpx.Spans

/-!
The allocator that plans tensor addresses before any memory is there. It keeps the free blocks of
a few growable chunks in order; an allocation goes to the best fitting block that is not the last
of its chunk, else to a last block, which may grow the chunk, else to a new chunk.
-/

namespace RocmFpx

/-- `aligned_offset` of an address in a buffer at 0. -/
def alignedOffset (offset alignment : ℕ) : ℕ :=
  wrapSize (offset + (alignment - offset % alignment) % alignment)

/-- `MAX_FREE_BLOCKS`. -/
def maxFreeBlocks : ℕ := 256

/-- `GGML_VBUFFER_MAX_CHUNKS`. -/
def vbufferMaxChunks : ℕ := 16

/-- `buffer_address`. -/
structure BufferAddress where
  chunk : ℕ
  offset : ℕ
  deriving DecidableEq, Repr

/-- `free_block`. -/
abbrev FreeBlock := Span

/-- `tallocr_chunk`. -/
structure TallocrChunk where
  freeBlocks : List FreeBlock
  maxSize : ℕ
  deriving DecidableEq, Repr

/-- `ggml_dyn_tallocr`; the alignment is asserted not to be zero. -/
structure DynTallocr where
  alignment : ℕ
  maxChunkSize : ℕ
  chunks : List TallocrChunk
  deriving DecidableEq, Repr

namespace TallocrChunk

/-- `ggml_dyn_tallocr_insert_block`. -/
def insertBlock (chunk : TallocrChunk) (offset size : ℕ) : Option TallocrChunk :=
  if chunk.freeBlocks.length < maxFreeBlocks then
    some { chunk with freeBlocks := Span.insertBefore ⟨offset, size⟩ chunk.freeBlocks }
  else none

/-- The loop of `ggml_dyn_tallocr_free_bytes` that looks for a block to merge with, from behind
`prev` on; the blocks from `prev` on, where one is found. -/
def mergeLoop (offset size : ℕ) : Option FreeBlock → List FreeBlock → Option (List FreeBlock)
  | _, [] => none
  | prev, block :: rest =>
    if wrapSize (block.offset + block.size) = offset then
      match rest with
      | [] => some (prev.toList ++ [⟨block.offset, wrapSize (block.size + size)⟩])
      | next :: more =>
        if wrapSize (block.offset + wrapSize (block.size + size)) = next.offset then
          some (prev.toList ++
            ⟨block.offset, wrapSize (wrapSize (block.size + size) + next.size)⟩ :: more)
        else some (prev.toList ++ ⟨block.offset, wrapSize (block.size + size)⟩ :: next :: more)
    else if wrapSize (offset + size) = block.offset then
      match prev with
      | none => some (⟨offset, wrapSize (block.size + size)⟩ :: rest)
      | some p =>
        if wrapSize (p.offset + p.size) = offset then
          some (⟨p.offset, wrapSize (p.size + wrapSize (block.size + size))⟩ :: rest)
        else some (p :: ⟨offset, wrapSize (block.size + size)⟩ :: rest)
    else (mergeLoop offset size (some block) rest).map (prev.toList ++ ·)

/-- `ggml_dyn_tallocr_free_bytes` in the chunk of the address, with the size aligned. -/
def freeBytes (chunk : TallocrChunk) (offset size : ℕ) : Option TallocrChunk :=
  match mergeLoop offset size none chunk.freeBlocks with
  | some freeBlocks => some { chunk with freeBlocks := freeBlocks }
  | none => chunk.insertBlock offset size

/-- The space at the start of a block is taken. -/
def take (chunk : TallocrChunk) (i : ℕ) (block : FreeBlock) (size : ℕ) : TallocrChunk where
  freeBlocks :=
    if sizeSub block.size size = 0 then chunk.freeBlocks.eraseIdx i
    else chunk.freeBlocks.set i ⟨wrapSize (block.offset + size), sizeSub block.size size⟩
  maxSize := max chunk.maxSize (wrapSize (block.offset + size))

/-- `reuse_factor` of a last block. -/
def reuseFactor (chunk : TallocrChunk) (block : FreeBlock) (size : ℕ) : ℤ :=
  Int.bmod ((chunk.maxSize : ℤ) - block.offset - size) (2 ^ 64)

end TallocrChunk

namespace DynTallocr

/-- The blocks of a chunk, less the last, searched for the best fit; the search of every chunk
begins with `best_fit_size = SIZE_MAX`. -/
def fitLoop (size c : ℕ) : List FreeBlock → ℕ → ℕ → Option (ℕ × ℕ) → Option (ℕ × ℕ)
  | [], _, _, best => best
  | block :: rest, i, bestFitSize, best =>
    if size ≤ block.size ∧ block.size ≤ bestFitSize then
      fitLoop size c rest (i + 1) block.size (some (c, i))
    else fitLoop size c rest (i + 1) bestFitSize best

/-- `best_fit_chunk` and `best_fit_block` after all chunks, searched from the chunk `c` on. -/
def bestFit (size : ℕ) : List TallocrChunk → ℕ → Option (ℕ × ℕ) → Option (ℕ × ℕ)
  | [], _, best => best
  | chunk :: rest, c, best =>
    bestFit size rest (c + 1) (fitLoop size c chunk.freeBlocks.dropLast 0 sizeMax best)

/-- The last blocks searched for the best reuse; `INT64_MIN` to begin with. -/
def lastFit (size : ℕ) : List TallocrChunk → ℕ → ℤ → Option (ℕ × ℕ) → Option (ℕ × ℕ)
  | [], _, _, best => best
  | chunk :: rest, c, bestReuse, best =>
    match chunk.freeBlocks.getLast? with
    | none => lastFit size rest (c + 1) bestReuse best
    | some block =>
      let reuse := chunk.reuseFactor block size
      if size ≤ block.size ∧
          ((bestReuse < 0 ∧ bestReuse < reuse) ∨ (0 ≤ reuse ∧ reuse < bestReuse)) then
        lastFit size rest (c + 1) reuse (some (c, chunk.freeBlocks.length - 1))
      else lastFit size rest (c + 1) bestReuse best

/-- The size of the chunk that `ggml_dyn_tallocr_new_chunk` adds. -/
def newChunkSize (a : DynTallocr) (minSize : ℕ) : ℕ :=
  if a.chunks.length = vbufferMaxChunks - 1 then sizeMax / 2 else max minSize a.maxChunkSize

/-- `ggml_dyn_tallocr_new_chunk`. -/
def newChunk (a : DynTallocr) (minSize : ℕ) : Option DynTallocr :=
  if a.chunks.length < vbufferMaxChunks then
    some { a with chunks := a.chunks ++ [⟨[⟨0, a.newChunkSize minSize⟩], 0⟩] }
  else none

/-- The block `i` of the chunk `c` serves a request. -/
def serve (a : DynTallocr) (c i size : ℕ) : Option (DynTallocr × BufferAddress) := do
  let chunk ← a.chunks[c]?
  let block ← chunk.freeBlocks[i]?
  some ({ a with chunks := a.chunks.set c (chunk.take i block size) }, ⟨c, block.offset⟩)

/-- `ggml_dyn_tallocr_alloc`. -/
def alloc (a : DynTallocr) (size : ℕ) : Option (DynTallocr × BufferAddress) :=
  let size := alignedOffset size a.alignment
  match bestFit size a.chunks 0 none with
  | some (c, i) => a.serve c i size
  | none =>
    match lastFit size a.chunks 0 (-2 ^ 63) none with
    | some (c, i) => a.serve c i size
    | none => do
      let grown ← a.newChunk size
      grown.serve a.chunks.length 0 size

/-- `ggml_dyn_tallocr_free_bytes`. -/
def freeBytes (a : DynTallocr) (addr : BufferAddress) (size : ℕ) : Option DynTallocr := do
  let chunk ← a.chunks[addr.chunk]?
  let chunk ← chunk.freeBytes addr.offset (alignedOffset size a.alignment)
  some { a with chunks := a.chunks.set addr.chunk chunk }

end DynTallocr
end RocmFpx

/-!
One chunk of the dynamic allocator. Its free blocks are apart and tile the chunk together with
what is live; taking from a block and freeing keep that, except that freeing nothing where no
block is puts an empty block into the list.
-/

namespace RocmFpx

open Span

namespace TallocrChunk

/-! ## Merging -/

variable {o m : ℕ}

/-- The spec of the loop: a block that the span touches takes it in. -/
structure Merged (o m : ℕ) (blocks rest out : List FreeBlock) : Prop where
  apart : Apart out
  cover_eq : ∀ x, cover out x = cover blocks x + cover [⟨o, m⟩] x
  /-- Where a block begins at the span, the block behind the span was touched. -/
  offset : ∀ f ∈ out, (∃ g ∈ blocks, f.offset = g.offset) ∨
    (f.offset = o ∧ ∃ g ∈ rest, o + m = g.offset)

variable {prev : Option FreeBlock} {block : FreeBlock} {rest : List FreeBlock}

theorem mergeLoop_end (hom : o + m ≤ sizeMax) (hapart : Apart (prev.toList ++ block :: rest))
    (hle : ∀ f ∈ prev.toList ++ block :: rest, f.stop ≤ sizeMax)
    (hsep : ∀ f ∈ prev.toList ++ block :: rest, o + m ≤ f.offset ∨ f.stop ≤ o)
    (hend : block.stop = o) : ∃ out, mergeLoop o m prev (block :: rest) = some out ∧
      Merged o m (prev.toList ++ block :: rest) (block :: rest) out := by
  have hstop : wrapSize (block.offset + block.size) = o := by
    rw [← hend]
    exact wrapSize_eq (hle block (List.mem_append_right _ List.mem_cons_self))
  have hsum : block.offset + (block.size + m) = o + m := by rw [← hend, stop, Nat.add_assoc]
  have hgrow : wrapSize (block.size + m) = block.size + m := wrapSize_eq (by omega)
  have hold (f : FreeBlock) (hf : f ∈ prev.toList ++ block :: rest) :
      (∃ g ∈ prev.toList ++ block :: rest, f.offset = g.offset) ∨
        (f.offset = o ∧ ∃ g ∈ block :: rest, o + m = g.offset) := Or.inl ⟨f, hf, rfl⟩
  cases rest with
  | nil =>
    obtain ⟨hgrown, hcover⟩ := hapart.extend (m := m) hend fun f hf => by cases hf
    refine ⟨_, ?_, hgrown, hcover, fun f hf => ?_⟩
    · simp only [mergeLoop, if_pos hstop, hgrow]
    · rcases List.mem_append.mp hf with hf | hf
      · exact hold f (List.mem_append_left _ hf)
      · obtain rfl := List.mem_singleton.mp hf
        exact hold block (List.mem_append_right _ List.mem_cons_self)
  | cons next more =>
    have hnext : next ∈ prev.toList ++ block :: next :: more :=
      List.mem_append_right _ (List.mem_cons_of_mem _ List.mem_cons_self)
    have hbefore : ∀ f ∈ next :: more, o < f.offset := fun f hf =>
      hend ▸ (apart_cons.1 (apart_append.1 hapart).2.1).2.1 f hf
    by_cases hboth : o + m = next.offset
    · obtain ⟨hgrown, hcover⟩ := hapart.bridge hend hboth
      have hall : wrapSize (block.size + m + next.size) = block.size + m + next.size :=
        wrapSize_eq (by
          have hlast := hle next hnext
          unfold stop at hlast
          omega)
      refine ⟨_, ?_, hgrown, hcover, fun f hf => ?_⟩
      · simp only [mergeLoop, if_pos hstop, hgrow, hsum, wrapSize_eq hom, if_pos hboth, hall]
      · rcases List.mem_append.mp hf with hf | hf
        · exact hold f (List.mem_append_left _ hf)
        · rcases List.mem_cons.mp hf with rfl | hf
          · exact hold block (List.mem_append_right _ List.mem_cons_self)
          · exact hold f (List.mem_append_right _
              (List.mem_cons_of_mem _ (List.mem_cons_of_mem _ hf)))
    · have hgap : ∀ f ∈ next :: more, o + m < f.offset := by
        intro f hf
        have hpos := hapart.pos next hnext
        have hlt := hbefore next List.mem_cons_self
        have hfirst : o + m < next.offset := by
          have hor := hsep next hnext
          unfold stop at hor
          omega
        rcases List.mem_cons.mp hf with rfl | hmore
        · exact hfirst
        · have htail := (apart_cons.1 (apart_append.1 hapart).2.1).2.2
          have hafter := (apart_cons.1 htail).2.1 f hmore
          unfold Before stop at hafter
          omega
      obtain ⟨hgrown, hcover⟩ := hapart.extend hend hgap
      refine ⟨_, ?_, hgrown, hcover, fun f hf => ?_⟩
      · simp only [mergeLoop, if_pos hstop, hgrow, hsum, wrapSize_eq hom, if_neg hboth]
      · rcases List.mem_append.mp hf with hf | hf
        · exact hold f (List.mem_append_left _ hf)
        · rcases List.mem_cons.mp hf with rfl | hf
          · exact hold block (List.mem_append_right _ List.mem_cons_self)
          · exact hold f (List.mem_append_right _ (List.mem_cons_of_mem _ hf))

theorem mergeLoop_start (hom : o + m ≤ sizeMax) (hapart : Apart (prev.toList ++ block :: rest))
    (hle : ∀ f ∈ prev.toList ++ block :: rest, f.stop ≤ sizeMax)
    (hsep : ∀ f ∈ prev.toList ++ block :: rest, o + m ≤ f.offset ∨ f.stop ≤ o)
    (hend : block.stop ≠ o) (hstart : o + m = block.offset) :
    ∃ out, mergeLoop o m prev (block :: rest) = some out ∧
      Merged o m (prev.toList ++ block :: rest) (block :: rest) out := by
  have hblock := hle block (List.mem_append_right _ List.mem_cons_self)
  have hstop : ¬ wrapSize (block.offset + block.size) = o := by
    rwa [show block.offset + block.size = block.stop from rfl, wrapSize_eq hblock]
  have hgrow : wrapSize (block.size + m) = block.size + m := wrapSize_eq (by
    unfold stop at hblock
    omega)
  have hold (f : FreeBlock) (hf : f ∈ prev.toList ++ block :: rest) :
      (∃ g ∈ prev.toList ++ block :: rest, f.offset = g.offset) ∨
        (f.offset = o ∧ ∃ g ∈ block :: rest, o + m = g.offset) := Or.inl ⟨f, hf, rfl⟩
  have hnew : (∃ g ∈ prev.toList ++ block :: rest, o = g.offset) ∨
      (o = o ∧ ∃ g ∈ block :: rest, o + m = g.offset) :=
    Or.inr ⟨rfl, block, List.mem_cons_self, hstart⟩
  cases prev with
  | none =>
    obtain ⟨hgrown, hcover⟩ := hapart.extendDown hstart fun p hp => nomatch hp
    refine ⟨_, ?_, hgrown, hcover, fun f hf => ?_⟩
    · simp only [mergeLoop, if_neg hstop, wrapSize_eq hom, if_pos hstart, hgrow]
      rfl
    · rcases List.mem_cons.mp hf with rfl | hf
      · exact hnew
      · exact hold f (List.mem_cons_of_mem _ hf)
  | some p =>
    have hp := hle p List.mem_cons_self
    have hpstop : wrapSize (p.offset + p.size) = p.stop := wrapSize_eq hp
    have hbefore : p.stop < block.offset :=
      (apart_append.1 hapart).2.2 p (List.mem_singleton_self p) block List.mem_cons_self
    have hple : p.stop ≤ o := by
      have hor := hsep p List.mem_cons_self
      have hpos := hapart.pos p List.mem_cons_self
      unfold stop at hor hbefore ⊢
      omega
    by_cases hboth : p.stop = o
    · have hapart' : Apart ([] ++ p :: block :: rest) := hapart
      obtain ⟨hgrown, hcover⟩ := hapart'.bridge hboth hstart
      have hall : wrapSize (p.size + (block.size + m)) = p.size + m + block.size := by
        rw [wrapSize_eq]
        · omega
        · unfold stop at hblock hboth
          omega
      refine ⟨_, ?_, hgrown, hcover, fun f hf => ?_⟩
      · simp only [mergeLoop, if_neg hstop, wrapSize_eq hom, if_pos hstart, hgrow, hpstop,
          if_pos hboth, hall]
        rfl
      · rcases List.mem_cons.mp hf with rfl | hf
        · exact hold p List.mem_cons_self
        · exact hold f (List.mem_cons_of_mem _ (List.mem_cons_of_mem _ hf))
    · obtain ⟨hgrown, hcover⟩ := hapart.extendDown hstart fun q hq => by
        obtain rfl := List.mem_singleton.mp hq
        exact lt_of_le_of_ne hple hboth
      refine ⟨_, ?_, hgrown, hcover, fun f hf => ?_⟩
      · simp only [mergeLoop, if_neg hstop, wrapSize_eq hom, if_pos hstart, hgrow, hpstop,
          if_neg hboth]
        rfl
      · rcases List.mem_cons.mp hf with rfl | hf
        · exact hold f List.mem_cons_self
        · rcases List.mem_cons.mp hf with rfl | hf
          · exact hnew
          · exact hold f (List.mem_cons_of_mem _ (List.mem_cons_of_mem _ hf))

theorem mergeLoop_spec (hom : o + m ≤ sizeMax) (prev : Option FreeBlock) {blocks : List FreeBlock}
    (hapart : Apart (prev.toList ++ blocks)) (hle : ∀ f ∈ prev.toList ++ blocks, f.stop ≤ sizeMax)
    (hsep : ∀ f ∈ prev.toList ++ blocks, o + m ≤ f.offset ∨ f.stop ≤ o) :
    (mergeLoop o m prev blocks = none ∧ ∀ f ∈ blocks, f.stop ≠ o ∧ o + m ≠ f.offset) ∨
    ∃ out, mergeLoop o m prev blocks = some out ∧
      Merged o m (prev.toList ++ blocks) blocks out := by
  induction blocks generalizing prev with
  | nil => exact Or.inl ⟨rfl, fun f hf => nomatch hf⟩
  | cons block rest ih =>
    by_cases hend : block.stop = o
    · exact Or.inr (mergeLoop_end hom hapart hle hsep hend)
    by_cases hstart : o + m = block.offset
    · exact Or.inr (mergeLoop_start hom hapart hle hsep hend hstart)
    obtain ⟨hprev, hblocks, hcross⟩ := apart_append.1 hapart
    have hmem (f : FreeBlock) (hf : f ∈ block :: rest) : f ∈ prev.toList ++ block :: rest :=
      List.mem_append_right _ hf
    have hstop : ¬ wrapSize (block.offset + block.size) = o := by
      rwa [show block.offset + block.size = block.stop from rfl,
        wrapSize_eq (hle block (hmem block List.mem_cons_self))]
    have hunfold : mergeLoop o m prev (block :: rest) =
        (mergeLoop o m (some block) rest).map (prev.toList ++ ·) := by
      simp only [mergeLoop, if_neg hstop, wrapSize_eq hom, if_neg hstart]
    rw [hunfold]
    rcases ih (some block) hblocks (fun f hf => hle f (hmem f hf))
      (fun f hf => hsep f (hmem f hf)) with ⟨hnone, hno⟩ | ⟨out, hout, hmerged⟩
    · refine Or.inl ⟨by rw [hnone]; rfl, ?_⟩
      exact List.forall_mem_cons.mpr ⟨⟨hend, hstart⟩, hno⟩
    · refine Or.inr ⟨prev.toList ++ out, by rw [hout]; rfl, ?_, fun x => ?_, fun f hf => ?_⟩
      · refine apart_append.2 ⟨hprev, hmerged.apart, fun p hp f hf => ?_⟩
        rcases hmerged.offset f hf with ⟨g, hg, hoff⟩ | ⟨hoff, g, hg, hgap⟩
        · rw [Before, hoff]
          exact hcross p hp g hg
        · -- the block begins at the span, which lies behind `block`
          have hpb := hcross p hp block List.mem_cons_self
          have hbg := (apart_cons.1 hblocks).2.1 g hg
          have hor := hsep block (hmem block List.mem_cons_self)
          have hpos := hblocks.pos block List.mem_cons_self
          unfold Before stop at *
          omega
      · have hcover : cover out x = cover (block :: rest) x + cover [⟨o, m⟩] x :=
          hmerged.cover_eq x
        rw [cover_append, hcover, cover_append, Nat.add_assoc]
      · rcases List.mem_append.mp hf with hf | hf
        · exact Or.inl ⟨f, List.mem_append_left _ hf, rfl⟩
        · rcases hmerged.offset f hf with ⟨g, hg, hoff⟩ | ⟨hoff, g, hg, hgap⟩
          · exact Or.inl ⟨g, hmem g hg, hoff⟩
          · exact Or.inr ⟨hoff, g, List.mem_cons_of_mem _ hg, hgap⟩

/-! ## One chunk -/

/-- A chunk of `n` bytes with these live allocations. -/
structure Sound (alignment : ℕ) (chunk : TallocrChunk) (n : ℕ) (live : List Span) : Prop where
  apart : Apart chunk.freeBlocks
  aligned : ∀ f ∈ chunk.freeBlocks, alignment ∣ f.offset
  tiles : Tiles (chunk.freeBlocks ++ live) n
  live_aligned : ∀ s ∈ live, alignment ∣ s.offset ∧ alignment ∣ s.size
  live_le : ∀ s ∈ live, s.stop ≤ n
  size_le : n ≤ sizeMax

variable {alignment n size i : ℕ} {chunk chunk' : TallocrChunk} {live : List Span} {s : Span}

theorem Sound.free_le (h : Sound alignment chunk n live) : ∀ f ∈ chunk.freeBlocks,
    f.stop ≤ n := fun f hf => h.tiles.stop_le (List.mem_append_left _ hf) (h.apart.pos f hf)

theorem getElem?_split {α : Type*} {l : List α} {i : ℕ} {a : α} (h : l[i]? = some a) :
    l = l.take i ++ a :: l.drop (i + 1) ∧ ∀ b, l.set i b = l.take i ++ b :: l.drop (i + 1) := by
  obtain ⟨hlt, rfl⟩ := List.getElem?_eq_some_iff.mp h
  refine ⟨?_, fun b => by rw [List.set_eq_take_append_cons_drop, if_pos hlt]⟩
  rw [List.getElem_cons_drop, List.take_append_drop]

theorem Sound.take (h : Sound alignment chunk n live) (hs : chunk.freeBlocks[i]? = some s)
    (hsize : size ≤ s.size) (hal : alignment ∣ size) :
    Sound alignment (chunk.take i s size) n (⟨s.offset, size⟩ :: live) := by
  have hmem := List.mem_of_getElem? hs
  have hle := h.free_le s hmem
  have hmax := hle.trans h.size_le
  unfold stop at hle hmax
  obtain ⟨hsplit, hset⟩ := getElem?_split hs
  have hapart := h.apart
  rw [hsplit] at hapart
  obtain ⟨hpre, hpost, hcross⟩ := apart_append.1 hapart
  obtain ⟨hpos, hnext, hrest⟩ := apart_cons.1 hpost
  have hsub : sizeSub s.size size = s.size - size := sizeSub_eq hsize (by omega)
  have hadd : wrapSize (s.offset + size) = s.offset + size := wrapSize_eq (by omega)
  have hcover (x : ℕ) : cover [s] x =
      cover [⟨s.offset, size⟩] x + cover [⟨s.offset + size, s.size - size⟩] x := by
    rw [← cover_split, Nat.add_sub_cancel' hsize]
  have hlive : ∀ l ∈ (⟨s.offset, size⟩ : Span) :: live, alignment ∣ l.offset ∧ alignment ∣ l.size :=
    List.forall_mem_cons.mpr ⟨⟨h.aligned s hmem, hal⟩, h.live_aligned⟩
  have hwithin : ∀ l ∈ (⟨s.offset, size⟩ : Span) :: live, l.stop ≤ n :=
    List.forall_mem_cons.mpr ⟨by rw [stop_mk]; omega, h.live_le⟩
  have htiles (x : ℕ) : cover (chunk.freeBlocks.take i) x + cover [s] x +
      cover (chunk.freeBlocks.drop (i + 1)) x + cover live x = if x < n then 1 else 0 := by
    rw [← h.tiles x, cover_append, Nat.add_right_cancel_iff]
    conv_rhs => rw [hsplit]
    rw [cover_append, cover_cons_append s (chunk.freeBlocks.drop (i + 1)), Nat.add_assoc]
  by_cases hwhole : size = s.size
  · have hfree : (chunk.take i s size).freeBlocks =
        chunk.freeBlocks.take i ++ chunk.freeBlocks.drop (i + 1) := by
      rw [TallocrChunk.take, hsub, if_pos (by omega), List.eraseIdx_eq_take_drop_succ]
    refine ⟨?_, fun f hf => ?_, fun x => ?_, hlive, hwithin, h.size_le⟩
    · rw [hfree]
      exact apart_append.2 ⟨hpre, hrest, fun p hp f hf => hcross p hp f (List.mem_cons_of_mem _ hf)⟩
    · rw [hfree] at hf
      refine h.aligned f ?_
      exact (List.mem_append.mp hf).elim List.mem_of_mem_take List.mem_of_mem_drop
    · rw [hfree, ← htiles x, cover_append, cover_append, cover_cons_append, hcover x, hwhole,
        Nat.sub_self, cover_empty]
      omega
  · have hfree : (chunk.take i s size).freeBlocks = chunk.freeBlocks.take i ++
        ⟨s.offset + size, s.size - size⟩ :: chunk.freeBlocks.drop (i + 1) := by
      rw [TallocrChunk.take, hsub, hadd, if_neg (by omega), hset]
    refine ⟨?_, fun f hf => ?_, fun x => ?_, hlive, hwithin, h.size_le⟩
    · rw [hfree]
      refine apart_append.2 ⟨hpre, apart_cons.2 ⟨?_, fun f hf => ?_, hrest⟩, fun p hp f hf => ?_⟩
      · exact Nat.sub_pos_of_lt (lt_of_le_of_ne hsize hwhole)
      · have hlt := hnext f hf
        unfold Before stop at hlt ⊢
        simp only
        omega
      · rcases List.mem_cons.mp hf with rfl | hf
        · have hlt := hcross p hp s List.mem_cons_self
          unfold Before at hlt ⊢
          exact hlt.trans_le (Nat.le_add_right _ _)
        · exact hcross p hp f (List.mem_cons_of_mem _ hf)
    · rw [hfree] at hf
      rcases List.mem_append.mp hf with hf | hf
      · exact h.aligned f (List.mem_of_mem_take hf)
      · rcases List.mem_cons.mp hf with rfl | hf
        · exact Nat.dvd_add (h.aligned s hmem) hal
        · exact h.aligned f (List.mem_of_mem_drop hf)
    · rw [hfree, ← htiles x, cover_append, cover_append, cover_cons_append,
        cover_cons_append ⟨s.offset, size⟩, hcover x]
      omega

theorem sound_newChunk (hsize : size ≤ n) (hn : n ≤ sizeMax) (hal : alignment ∣ size) :
    Sound alignment (TallocrChunk.take ⟨[⟨0, n⟩], 0⟩ 0 ⟨0, n⟩ size) n [⟨0, size⟩] := by
  by_cases hzero : n = 0
  · obtain rfl : size = 0 := by omega
    subst hzero
    refine ⟨apart_nil, fun f hf => absurd hf List.not_mem_nil, fun x => ?_, fun s hs => ?_, fun s hs => ?_, hn⟩
    · exact (cover_empty 0 x).trans (if_neg (by omega)).symm
    · obtain rfl := List.mem_singleton.mp hs
      exact ⟨Nat.dvd_zero _, hal⟩
    · obtain rfl := List.mem_singleton.mp hs
      exact le_rfl
  · have hnew : Sound alignment ⟨[⟨0, n⟩], 0⟩ n [] :=
      ⟨apart_cons.2 ⟨Nat.pos_of_ne_zero hzero, fun f hf => absurd hf List.not_mem_nil, apart_nil⟩,
        List.forall_mem_singleton.mpr (Nat.dvd_zero _), fun x => by simp [cover_singleton],
        fun s hs => absurd hs List.not_mem_nil, fun s hs => absurd hs List.not_mem_nil, hn⟩
    exact hnew.take rfl hsize hal

theorem Sound.perm {live' : List Span} (h : Sound alignment chunk n live)
    (hperm : live.Perm live') : Sound alignment chunk n live' where
  apart := h.apart
  aligned := h.aligned
  tiles x := by rw [← h.tiles x, cover_perm (hperm.append_left chunk.freeBlocks)]
  live_aligned s hs := h.live_aligned s (hperm.mem_iff.mpr hs)
  live_le s hs := h.live_le s (hperm.mem_iff.mpr hs)
  size_le := h.size_le

theorem Sound.cut {o keep : ℕ} (h : Sound alignment chunk n (⟨o, keep + size⟩ :: live))
    (hkeep : alignment ∣ keep) :
    Sound alignment chunk n (⟨o + keep, size⟩ :: ⟨o, keep⟩ :: live) := by
  obtain ⟨⟨ho, hsum⟩, hlive⟩ := List.forall_mem_cons.mp h.live_aligned
  obtain ⟨hstop, hle⟩ := List.forall_mem_cons.mp h.live_le
  rw [stop_mk] at hstop
  refine ⟨h.apart, h.aligned, fun x => ?_, ?_, ?_, h.size_le⟩
  · rw [← h.tiles x, cover_append, cover_append, cover_cons_append, cover_cons_append ⟨o, keep⟩,
      cover_cons_append ⟨o, keep + size⟩, cover_split]
    omega
  · refine List.forall_mem_cons.mpr ⟨⟨Nat.dvd_add ho hkeep, ?_⟩, List.forall_mem_cons.mpr
      ⟨⟨ho, hkeep⟩, hlive⟩⟩
    exact (Nat.dvd_add_right hkeep).mp hsum
  · refine List.forall_mem_cons.mpr ⟨by rw [stop_mk]; omega, List.forall_mem_cons.mpr
      ⟨by rw [stop_mk]; omega, hle⟩⟩

theorem Sound.drop {o : ℕ} (h : Sound alignment chunk n (⟨o, 0⟩ :: live)) :
    Sound alignment chunk n live := by
  refine ⟨h.apart, h.aligned, fun x => ?_, (List.forall_mem_cons.mp h.live_aligned).2,
    (List.forall_mem_cons.mp h.live_le).2, h.size_le⟩
  rw [← h.tiles x, cover_append, cover_append, cover_cons_append, cover_empty, Nat.zero_add]

/-- What is freed is not empty, or a free block ends or begins there. -/
def Touches (chunk : TallocrChunk) (offset size : ℕ) : Prop :=
  0 < size ∨ ∃ f ∈ chunk.freeBlocks, f.stop = offset ∨ f.offset = offset

theorem Sound.freeBytes {o : ℕ} (h : Sound alignment chunk n (⟨o, size⟩ :: live))
    (htouches : Touches chunk o size) (hrun : chunk.freeBytes o size = some chunk') :
    Sound alignment chunk' n live := by
  have hom : o + size ≤ sizeMax := by
    have hle := (List.forall_mem_cons.mp h.live_le).1
    exact hle.trans h.size_le
  have hone (x : ℕ) : cover chunk.freeBlocks x + cover [⟨o, size⟩] x ≤ 1 := by
    have hle := h.tiles.le_one x
    rw [cover_append, cover_cons_append] at hle
    omega
  have hsep : ∀ f ∈ chunk.freeBlocks, o + size ≤ f.offset ∨ f.stop ≤ o := by
    intro f hf
    by_cases hpos : 0 < size
    · exact le_or_le_of_cover hone hf (h.apart.pos f hf) hpos
    · obtain ⟨t, ht, htouch⟩ := htouches.resolve_left hpos
      have hft := h.apart.before_or hf ht
      have hfpos := h.apart.pos f hf
      have htpos := h.apart.pos t ht
      unfold Before stop at *
      rcases hft with rfl | hft | hft <;> omega
  have hfree : ∀ f ∈ chunk.freeBlocks, f.stop ≤ sizeMax := fun f hf =>
    (h.free_le f hf).trans h.size_le
  have hrest : ∀ l ∈ live, alignment ∣ l.offset ∧ alignment ∣ l.size :=
    (List.forall_mem_cons.mp h.live_aligned).2
  have hwithin := (List.forall_mem_cons.mp h.live_le).2
  have ho : alignment ∣ o := (List.forall_mem_cons.mp h.live_aligned).1.1
  have htiles {freeBlocks : List FreeBlock}
      (hcover : ∀ x, cover freeBlocks x = cover chunk.freeBlocks x + cover [⟨o, size⟩] x) :
      Tiles (freeBlocks ++ live) n := fun x => by
    rw [← h.tiles x, cover_append, cover_append, cover_cons_append, hcover, Nat.add_assoc]
  rw [TallocrChunk.freeBytes] at hrun
  rcases mergeLoop_spec hom none h.apart hfree hsep with
    ⟨hnone, hno⟩ | ⟨out, hout, hmerged⟩
  · rw [hnone] at hrun
    simp only [insertBlock] at hrun
    split_ifs at hrun with hroom
    obtain rfl := Option.some.inj hrun
    have hpos : 0 < size := htouches.elim id fun ⟨t, ht, htouch⟩ => by
      have hnot := hno t ht
      by_contra hzero
      omega
    refine ⟨h.apart.insertBefore hpos fun f hf => ?_, fun f hf => ?_,
      htiles (cover_insertBefore _ _), hrest, hwithin, h.size_le⟩
    · obtain ⟨hend, hstart⟩ := hno f hf
      exact (hsep f hf).imp (fun hle => lt_of_le_of_ne hle hstart) fun hle => lt_of_le_of_ne hle hend
    · rcases mem_insertBefore.1 hf with rfl | hf
      · exact ho
      · exact h.aligned f hf
  · rw [hout] at hrun
    obtain rfl := Option.some.inj hrun
    refine ⟨hmerged.apart, fun f hf => ?_, htiles hmerged.cover_eq, hrest, hwithin, h.size_le⟩
    rcases hmerged.offset f hf with ⟨g, hg, hoff⟩ | ⟨hoff, -⟩
    · rw [hoff]
      exact h.aligned g hg
    · rw [hoff]
      exact ho

end TallocrChunk

end RocmFpx
