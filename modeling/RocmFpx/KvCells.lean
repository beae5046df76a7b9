import Mathlib.Data.Finset.Lattice.Fold
import Mathlib.Data.Finset.Max
import Mathlib.Data.Prod.Lex
import Mathlib.Tactic

/-!
Metadata of the KV cells. The four arrays `pos`, `ext`, `shift`, `seq`
are functions of the cell index, equal to the value of an empty cell from `size`
on; `std::set` is a `Finset`, ordered pairs in the lexicographic product, and
`std::bitset` the `Finset` of its set bits. Positions are exact integers: a run
whose `int32_t` arithmetic would overflow has no meaning in the source.

The operations below compute what a build without `assert` computes. What each of
them asserts on entry is `Op.Pre`, and `step` refuses a call that breaks it.
-/

namespace RocmFpx

def llamaMaxSeq : ℕ := 256

def llamaTokenNull : ℤ := -1

structure KvCellExt where
  x : ℤ := 0
  y : ℤ := 0
  tok : ℤ := llamaTokenNull
  deriving DecidableEq, Repr

/-- The current 2D position is greater than the other one. -/
def KvCellExt.is2dGt (e : KvCellExt) (ox oy : ℤ) : Bool :=
  decide (e.y > oy) || (decide (e.y = oy) && decide (e.x > ox))

structure KvCells where
  hasShift : Bool
  used : Finset ℕ
  size : ℕ
  pos : ℕ → ℤ
  ext : ℕ → KvCellExt
  shift : ℕ → ℤ
  seq : ℕ → Finset ℕ
  seqPos : ℕ → Finset (ℤ ×ₗ ℕ)

namespace KvCells

/-- A default-constructed object: no cells at all. -/
def init : KvCells where
  hasShift := false
  used := ∅
  size := 0
  pos := fun _ => -1
  ext := fun _ => {}
  shift := fun _ => 0
  seq := fun _ => ∅
  seqPos := fun _ => ∅

def reset (c : KvCells) : KvCells := { init with size := c.size }

def resetShift (c : KvCells) : KvCells :=
  { c with hasShift := false, shift := fun _ => 0 }

def resize (c : KvCells) (n : ℕ) : KvCells := { c with size := n }.reset

/-! ## Queries -/

def isEmpty (c : KvCells) (i : ℕ) : Bool := decide (c.pos i = -1)

def getUsed (c : KvCells) : ℕ := c.used.card

def usedMin (c : KvCells) : ℕ := if h : c.used.Nonempty then c.used.min' h else 0

def usedMaxP1 (c : KvCells) : ℕ := c.used.sup Nat.succ

def seqCount (c : KvCells) (i : ℕ) : ℕ := (c.seq i).card

def seqHas (c : KvCells) (i s : ℕ) : Bool := decide (s ∈ c.seq i)

/-- The lowest sequence of the cell; `none` is the source's `-1`. -/
def seqGet (c : KvCells) (i : ℕ) : Option ℕ :=
  (List.range llamaMaxSeq).find? fun s => c.seqHas i s

def seqPosMin (c : KvCells) (s : ℕ) : ℤ :=
  if h : (c.seqPos s).Nonempty then (ofLex ((c.seqPos s).min' h)).1 else -1

def seqPosMax (c : KvCells) (s : ℕ) : ℤ :=
  if h : (c.seqPos s).Nonempty then (ofLex ((c.seqPos s).max' h)).1 else -1

def posIn (c : KvCells) (i : ℕ) (p₀ p₁ : ℤ) : Bool :=
  decide (c.pos i ≥ p₀) && decide (c.pos i < p₁)

/-! ## Upkeep of the per-sequence position sets -/

def seqPosDec (c : KvCells) (s i : ℕ) : KvCells :=
  { c with seqPos := Function.update c.seqPos s ((c.seqPos s).erase (toLex (c.pos i, i))) }

def seqPosInc (c : KvCells) (s i : ℕ) : KvCells :=
  { c with seqPos := Function.update c.seqPos s (insert (toLex (c.pos i, i)) (c.seqPos s)) }

/-- The loop over all sequences touches each set once, so it is written set by set. -/
def seqPosRm (c : KvCells) (i : ℕ) : KvCells :=
  { c with seqPos := fun s =>
      if s ∈ c.seq i then (c.seqPos s).erase (toLex (c.pos i, i)) else c.seqPos s }

def seqPosAdd (c : KvCells) (i : ℕ) : KvCells :=
  { c with seqPos := fun s =>
      if s ∈ c.seq i then insert (toLex (c.pos i, i)) (c.seqPos s) else c.seqPos s }

/-! ## Mutating operations -/

def posSet (c : KvCells) (i : ℕ) (p : ℤ) : KvCells :=
  { c with pos := Function.update c.pos i p, used := insert i c.used }

def extSet (c : KvCells) (i : ℕ) (e : KvCellExt) : KvCells :=
  { c with ext := Function.update c.ext i e }

def seqAdd (c : KvCells) (i s : ℕ) : KvCells :=
  { c with seq := Function.update c.seq i (insert s (c.seq i)) }.seqPosInc s i

def rm (c : KvCells) (i : ℕ) : KvCells :=
  let c := c.seqPosRm i
  { c with
    seq := Function.update c.seq i ∅
    pos := Function.update c.pos i (-1)
    ext := Function.update c.ext i {}
    shift := Function.update c.shift i 0
    used := c.used.erase i }

/-- The Boolean tells whether the cell became empty. -/
def seqRm (c : KvCells) (i s : ℕ) : KvCells × Bool :=
  let c := { c with seq := Function.update c.seq i ((c.seq i).erase s) }
  let c := c.seqPosDec s i
  if c.seq i = ∅ then
    ({ c with
      pos := Function.update c.pos i (-1)
      ext := Function.update c.ext i {}
      shift := Function.update c.shift i 0
      used := c.used.erase i }, true)
  else
    (c, false)

def seqKeep (c : KvCells) (i s : ℕ) : KvCells × Bool :=
  if s ∈ c.seq i then
    let c := c.seqPosRm i
    let c := { c with seq := Function.update c.seq i {s} }
    (c.seqPosInc s i, false)
  else if c.seq i ≠ ∅ then
    (c.rm i, true)
  else
    (c, false)

def posAdd (c : KvCells) (i : ℕ) (d : ℤ) : KvCells × Bool :=
  let c := c.seqPosRm i
  let c := { c with
    pos := Function.update c.pos i (c.pos i + d)
    shift := Function.update c.shift i (c.shift i + d)
    hasShift := true }
  if c.pos i < 0 then
    -- unlike the other freeing branches this one leaves `ext` as it is
    ({ c with
      seq := Function.update c.seq i ∅
      pos := Function.update c.pos i (-1)
      shift := Function.update c.shift i 0
      used := c.used.erase i }, true)
  else
    (c.seqPosAdd i, false)

/-- C division truncates towards zero. -/
def posDiv (c : KvCells) (i : ℕ) (d : ℤ) : KvCells :=
  let pOld := c.pos i
  let c := c.seqPosRm i
  let c := { c with pos := Function.update c.pos i ((c.pos i).tdiv d) }
  let c := { c with shift := Function.update c.shift i (c.shift i + (pOld - c.pos i)) }
  { c.seqPosAdd i with hasShift := true }

/-! ## Copies of cells, used to save and restore their state -/

def cp (c : KvCells) (i n : ℕ) : KvCells :=
  { init with
    size := n
    pos := fun j => if j < n then c.pos (i + j) else -1
    ext := fun j => if j < n then c.ext (i + j) else {}
    seq := fun j => if j < n then c.seq (i + j) else ∅ }

def cpIdxs (c : KvCells) (idxs : List ℕ) : KvCells :=
  { init with
    size := idxs.length
    pos := fun j => if h : j < idxs.length then c.pos idxs[j] else -1
    ext := fun j => if h : j < idxs.length then c.ext idxs[j] else {}
    seq := fun j => if h : j < idxs.length then c.seq idxs[j] else ∅ }

/-- The loop body shared by both overloads of `set`. -/
def setCell (c : KvCells) (idx : ℕ) (other : KvCells) (j : ℕ) : KvCells :=
  let c := if c.pos idx = -1 ∧ other.pos j ≠ -1 then
    { c with used := insert idx c.used } else c
  let c := if c.pos idx ≠ -1 ∧ other.pos j = -1 then
    { c with used := c.used.erase idx } else c
  let c := if c.pos idx ≠ -1 then c.seqPosRm idx else c
  let c := { c with
    pos := Function.update c.pos idx (other.pos j)
    ext := Function.update c.ext idx (other.ext j)
    seq := Function.update c.seq idx (other.seq j) }
  if c.pos idx ≠ -1 then c.seqPosAdd idx else c

def set (c : KvCells) (i : ℕ) (other : KvCells) : KvCells :=
  (List.range other.size).foldl (fun c j => c.setCell (i + j) other j) c

def setIdxs (c : KvCells) (idxs : List ℕ) (other : KvCells) : KvCells :=
  (List.range other.size).foldl (fun c j => c.setCell (idxs.getD j 0) other j) c

end KvCells
end RocmFpx
