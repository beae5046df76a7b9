import RocmFpx.LinkedSlots

/-!
The cache of the experts of a group of layers: a bank of slots shared by the layers, a slot map
for each layer, and the least recently used order of the slots. The caller gives a bank at least
the slots of one token's experts, and a model's layers and experts are few enough for a key to
fit an `int32_t`.
-/

namespace RocmFpx
namespace MoeCache

/-- `slotMap il e` is `-1` if expert `e` of layer `il` is not cached, `keyOf s` is
`il * nExpert + e`, or `-1` if slot `s` is empty. -/
structure MoeCacheLru where
  nExpert : ℕ
  nSlots : ℕ
  slotMap : ℕ → ℕ → ℤ
  keyOf : ℕ → ℤ
  links : Links
  seen : ℕ → ℕ
  seenGen : ℕ
  uniq : List ℕ

def init (nExpert nSlots : ℕ) : MoeCacheLru where
  nExpert := nExpert
  nSlots := nSlots
  slotMap _ _ := -1
  keyOf _ := -1
  links := Links.inOrder nSlots
  seen _ := 0
  seenGen := 0
  uniq := []

structure Fill where
  expert : ℕ
  slot : ℕ
deriving DecidableEq, Repr

structure Planned where
  ok : Bool
  fills : List Fill
  nHit : ℕ
deriving DecidableEq, Repr

namespace MoeCacheLru
variable (c : MoeCacheLru)

/-- `++seen_gen` of a `uint32_t`, with fresh marks when it wraps. -/
def nextGen : MoeCacheLru :=
  let gen := (c.seenGen + 1) % 2 ^ 32
  if gen = 0 then { c with seen := fun _ => 0, seenGen := 1, uniq := [] }
  else { c with seenGen := gen, uniq := [] }

def see (e : ℕ) : MoeCacheLru :=
  if c.seen e ≠ c.seenGen then
    { c with seen := Function.update c.seen e c.seenGen, uniq := c.uniq ++ [e] }
  else c

def touch (s : ℕ) : MoeCacheLru := { c with links := c.links.touch s }

def setSlot (il e : ℕ) (v : ℤ) : MoeCacheLru :=
  { c with slotMap := Function.update c.slotMap il (Function.update (c.slotMap il) e v) }

/-- One turn of the loop over the hits. -/
def hit (il : ℕ) (r : MoeCacheLru × ℕ) (e : ℕ) : MoeCacheLru × ℕ :=
  if 0 ≤ r.1.slotMap il e then (r.1.touch (r.1.slotMap il e).toNat, r.2 + 1) else r

def evict (s : ℕ) : MoeCacheLru :=
  if 0 ≤ c.keyOf s then
    c.setSlot ((c.keyOf s).toNat / c.nExpert) ((c.keyOf s).toNat % c.nExpert) (-1)
  else c

def insert (il e s : ℕ) : MoeCacheLru :=
  { (c.evict s).setSlot il e s with
    keyOf := Function.update c.keyOf s ((il * c.nExpert + e : ℕ) : ℤ) }

/-- One turn of the loop over the misses. -/
def miss (il : ℕ) (r : MoeCacheLru × List Fill) (e : ℕ) : MoeCacheLru × List Fill :=
  if 0 ≤ r.1.slotMap il e then r
  else
    let s := r.1.links.head.toNat
    ((r.1.insert il e s).touch s, r.2 ++ [⟨e, s⟩])

/-- Give a slot to each expert selected by `ids` in layer `il`. -/
def plan (il : ℕ) (ids : List ℤ) : Option (MoeCacheLru × Planned) :=
  if ∃ id ∈ ids, id < 0 ∨ (c.nExpert : ℤ) ≤ id then none
  else
    let c := (ids.map Int.toNat).foldl see c.nextGen
    if c.nSlots < c.uniq.length then some (c, ⟨false, [], 0⟩)
    else
      let hits := c.uniq.foldl (hit il) (c, 0)
      let c := { hits.1 with uniq := c.uniq.insertionSort (· ≤ ·) }
      let misses := c.uniq.foldl (miss il) (c, [])
      some (misses.1, ⟨true, misses.2, hits.2⟩)

end MoeCacheLru

/-! ## The uploads of a plan -/

/-- `n` experts from `expert` on, written to the slots from `slot` on. -/
structure Upload where
  expert : ℕ
  slot : ℕ
  n : ℕ
deriving DecidableEq, Repr

/-- How many fills after the first go on where it left off. -/
def mergeLength (first : Fill) : ℕ → List Fill → ℕ
  | n, [] => n
  | n, f :: fills =>
    if f.expert = first.expert + n ∧ f.slot = first.slot + n then mergeLength first (n + 1) fills
    else n

def uploads : ℕ → List Fill → List Upload
  | 0, _ => []
  | _ + 1, [] => []
  | fuel + 1, f :: fills =>
    let n := mergeLength f 1 fills
    ⟨f.expert, f.slot, n⟩ :: uploads fuel ((f :: fills).drop n)

def mergedUploads (fills : List Fill) : List Upload := uploads fills.length fills

/-- The bank after an upload: slot `slot + k` holds the data of expert `expert + k`. -/
def write {α : Type*} (weight : ℕ → α) (bank : ℕ → α) (u : Upload) : ℕ → α := fun s =>
  if u.slot ≤ s ∧ s < u.slot + u.n then weight (u.expert + (s - u.slot)) else bank s

end MoeCache
end RocmFpx

/-!
What the loops of `plan` do to the cache: the marks find the distinct experts, the hits go to
the back of the list, and each miss takes the slot at its front.
-/

namespace RocmFpx
namespace MoeCache

open Links

namespace MoeCacheLru
variable {c : MoeCacheLru} {il e s : ℕ} {order rest : List ℕ}

/-! ## The distinct experts -/

/-- The entries of a list, each where it first stands. -/
def addNew (found : List ℕ) (e : ℕ) : List ℕ := if e ∈ found then found else found ++ [e]

def distinct (ids : List ℕ) : List ℕ := ids.foldl addNew []

theorem foldl_addNew_spec (ids : List ℕ) {found : List ℕ} (hfound : found.Nodup) :
    (ids.foldl addNew found).Nodup ∧ ∀ e, e ∈ ids.foldl addNew found ↔ e ∈ found ∨ e ∈ ids := by
  induction ids generalizing found with
  | nil => exact ⟨hfound, fun e => by simp⟩
  | cons id ids ih =>
    by_cases hid : id ∈ found
    · obtain ⟨hnodup, hmem⟩ := ih hfound
      rw [List.foldl_cons, addNew, if_pos hid]
      refine ⟨hnodup, fun e => (hmem e).trans ?_⟩
      rw [List.mem_cons]
      exact ⟨fun h => h.imp_right .inr, fun h => by
        rcases h with h | rfl | h
        · exact .inl h
        · exact .inl hid
        · exact .inr h⟩
    · have hfound' : (found ++ [id]).Nodup :=
        List.nodup_append.mpr ⟨hfound, List.nodup_singleton id, fun a ha b hb heq =>
          hid ((heq.trans (List.mem_singleton.mp hb)) ▸ ha)⟩
      obtain ⟨hnodup, hmem⟩ := ih hfound'
      rw [List.foldl_cons, addNew, if_neg hid]
      refine ⟨hnodup, fun e => (hmem e).trans ?_⟩
      rw [List.mem_append, List.mem_singleton, List.mem_cons, or_assoc]

theorem distinct_nodup (ids : List ℕ) : (distinct ids).Nodup :=
  (foldl_addNew_spec ids List.nodup_nil).1

@[simp] theorem mem_distinct {ids : List ℕ} : e ∈ distinct ids ↔ e ∈ ids := by
  rw [distinct, (foldl_addNew_spec ids List.nodup_nil).2 e]
  simp

/-- No mark is ahead of the generation. -/
structure Marks (c : MoeCacheLru) : Prop where
  gen_lt : c.seenGen < 2 ^ 32
  seen_le : ∀ e, c.seen e ≤ c.seenGen

theorem nextGen_eq (h : Marks c) : ∃ seen gen, c.nextGen = { c with
    seen := seen, seenGen := gen, uniq := [] } ∧ gen < 2 ^ 32 ∧ ∀ e, seen e < gen := by
  have hgen := h.gen_lt
  by_cases hwrap : (c.seenGen + 1) % 2 ^ 32 = 0
  · exact ⟨fun _ => 0, 1, if_pos hwrap, by decide, fun _ => Nat.one_pos⟩
  · refine ⟨c.seen, (c.seenGen + 1) % 2 ^ 32, if_neg hwrap, Nat.mod_lt _ (by decide), fun e => ?_⟩
    have hle := h.seen_le e
    omega

theorem foldl_see (ids : List ℕ) (hseen : ∀ e, c.seen e ≤ c.seenGen)
    (huniq : ∀ e, c.seen e = c.seenGen ↔ e ∈ c.uniq) :
    ∃ seen, ids.foldl see c = { c with seen := seen, uniq := ids.foldl addNew c.uniq } ∧
      ∀ e, seen e ≤ c.seenGen := by
  induction ids generalizing c with
  | nil => exact ⟨c.seen, rfl, hseen⟩
  | cons id ids ih =>
    by_cases hid : id ∈ c.uniq
    · have hold : c.see id = c := if_neg (not_not.mpr ((huniq id).mpr hid))
      rw [List.foldl_cons, List.foldl_cons, hold, addNew, if_pos hid]
      exact ih hseen huniq
    · have hnew : c.see id = { c with
          seen := Function.update c.seen id c.seenGen, uniq := c.uniq ++ [id] } :=
        if_pos fun heq => hid ((huniq id).mp heq)
      rw [List.foldl_cons, List.foldl_cons, hnew, addNew, if_neg hid]
      refine ih (c := { c with
        seen := Function.update c.seen id c.seenGen, uniq := c.uniq ++ [id] }) ?_ ?_
      · intro e
        by_cases he : e = id
        · rw [he]
          exact (Function.update_self ..).le
        · change Function.update c.seen id c.seenGen e ≤ c.seenGen
          rw [Function.update_of_ne he]
          exact hseen e
      · intro e
        rw [List.mem_append, List.mem_singleton]
        by_cases he : e = id
        · exact iff_of_true (by rw [he]; exact Function.update_self ..) (.inr he)
        · have hother : Function.update c.seen id c.seenGen e = c.seen e :=
            Function.update_of_ne he _ _
          rw [or_iff_left he, ← huniq e]
          exact ⟨fun h => hother.symm.trans h, fun h => hother.trans h⟩

theorem distinct_eq (h : Marks c) (ids : List ℕ) :
    ∃ seen gen, ids.foldl see c.nextGen =
        { c with seen := seen, seenGen := gen, uniq := distinct ids } ∧
      gen < 2 ^ 32 ∧ ∀ e, seen e ≤ gen := by
  obtain ⟨seen, gen, heq, hgen, hlt⟩ := nextGen_eq h
  rw [heq]
  obtain ⟨seen', heq', hle'⟩ := foldl_see (c := { c with
    seen := seen, seenGen := gen, uniq := [] }) ids (fun e => (hlt e).le)
    fun e => iff_of_false (hlt e).ne List.not_mem_nil
  exact ⟨seen', gen, heq', hgen, hle'⟩

/-! ## The hits -/

/-- The slots of the resident experts among `es`. -/
def residentSlots (c : MoeCacheLru) (il : ℕ) (es : List ℕ) : List ℕ :=
  (es.filter fun e => 0 ≤ c.slotMap il e).map fun e => (c.slotMap il e).toNat

theorem foldl_hit (es : List ℕ) (n : ℕ) :
    es.foldl (hit il) (c, n) =
      ({ c with links := (residentSlots c il es).foldl Links.touch c.links },
        n + (residentSlots c il es).length) := by
  induction es generalizing c n with
  | nil => rfl
  | cons e es ih =>
    rw [List.foldl_cons, hit, residentSlots, List.filter_cons]
    by_cases he : 0 ≤ c.slotMap il e
    · rw [if_pos he, if_pos (decide_eq_true he), ih]
      simp only [residentSlots, touch, List.map_cons, List.foldl_cons, List.length_cons]
      rw [Nat.add_assoc, Nat.add_comm 1]
      rfl
    · rw [if_neg he, if_neg (by simpa using he), ih]
      rfl

/-! ## Consistency -/

/-- The links run through all slots in the given order, and the two maps are inverse. -/
structure Consistent (c : MoeCacheLru) (order : List ℕ) : Prop where
  represents : c.links.Represents order
  perm : order.Perm (List.range c.nSlots)
  key_of_slot : ∀ il e, e < c.nExpert → 0 ≤ c.slotMap il e →
    (c.slotMap il e).toNat < c.nSlots ∧
      c.keyOf (c.slotMap il e).toNat = ((il * c.nExpert + e : ℕ) : ℤ)
  slot_of_key : ∀ s < c.nSlots, 0 ≤ c.keyOf s →
    c.slotMap ((c.keyOf s).toNat / c.nExpert) ((c.keyOf s).toNat % c.nExpert) = s
  slot_or_none : ∀ il e, c.slotMap il e = -1 ∨ 0 ≤ c.slotMap il e
  key_or_none : ∀ s, c.keyOf s = -1 ∨
    ∃ il e, e < c.nExpert ∧ c.keyOf s = ((il * c.nExpert + e : ℕ) : ℤ)

theorem Consistent.mem_order (h : Consistent c order) : s ∈ order ↔ s < c.nSlots :=
  h.perm.mem_iff.trans List.mem_range

theorem init_consistent {nExpert nSlots : ℕ} (hslots : 0 < nSlots) :
    Consistent (init nExpert nSlots) (List.range nSlots) where
  represents := Links.inOrder_represents hslots
  perm := List.Perm.refl _
  key_of_slot _ _ _ h := absurd h (of_decide_eq_false rfl)
  slot_of_key _ _ h := absurd h (of_decide_eq_false rfl)
  slot_or_none _ _ := .inl rfl
  key_or_none _ := .inl rfl

theorem setSlot_slotMap (il e : ℕ) (v : ℤ) (i x : ℕ) :
    (c.setSlot il e v).slotMap i x = if i = il ∧ x = e then v else c.slotMap i x := by
  simp only [setSlot]
  by_cases hi : i = il
  · subst hi
    by_cases hx : x = e
    · subst hx
      simp
    · simp [hx]
  · simp [hi]

theorem insert_slotMap (il e s i x : ℕ) :
    (c.insert il e s).slotMap i x =
      if i = il ∧ x = e then (s : ℤ)
      else if 0 ≤ c.keyOf s ∧ i = (c.keyOf s).toNat / c.nExpert ∧
        x = (c.keyOf s).toNat % c.nExpert then -1
      else c.slotMap i x := by
  change ((c.evict s).setSlot il e s).slotMap i x = _
  rw [setSlot_slotMap]
  congr 1
  by_cases hkey : 0 ≤ c.keyOf s
  · rw [evict, if_pos hkey, setSlot_slotMap]
    simp [hkey]
  · rw [evict, if_neg hkey, if_neg fun h => hkey h.1]

theorem insert_nExpert (il e s : ℕ) : (c.insert il e s).nExpert = c.nExpert := by
  unfold insert evict setSlot
  split_ifs <;> rfl

theorem insert_nSlots (il e s : ℕ) : (c.insert il e s).nSlots = c.nSlots := by
  unfold insert evict setSlot
  split_ifs <;> rfl

theorem insert_links (il e s : ℕ) : (c.insert il e s).links = c.links := by
  unfold insert evict setSlot
  split_ifs <;> rfl

theorem insert_keyOf (il e s t : ℕ) :
    (c.insert il e s).keyOf t =
      if t = s then ((il * c.nExpert + e : ℕ) : ℤ) else c.keyOf t :=
  Function.update_apply ..

theorem key_div (he : e < c.nExpert) : (il * c.nExpert + e) / c.nExpert = il := by
  rw [mul_comm, Nat.mul_add_div (by omega), Nat.div_eq_of_lt he, add_zero]

theorem key_mod (he : e < c.nExpert) : (il * c.nExpert + e) % c.nExpert = e := by
  rw [mul_comm, Nat.mul_add_mod, Nat.mod_eq_of_lt he]

theorem insert_consistent (h : Consistent c (s :: rest)) (he : e < c.nExpert)
    (hmiss : c.slotMap il e < 0) :
    Consistent ((c.insert il e s).touch s) (rest ++ [s]) := by
  have hs : s < c.nSlots := h.mem_order.mp List.mem_cons_self
  have hrepresents : (c.links.touch s).Represents ([] ++ rest ++ [s]) :=
    Links.touch_represents h.represents
  refine ⟨?_, ?_, ?_, ?_, ?_, ?_⟩
  · change ((c.insert il e s).links.touch s).Represents _
    rw [insert_links]
    exact hrepresents
  · change (rest ++ [s]).Perm (List.range (c.insert il e s).nSlots)
    rw [insert_nSlots]
    exact (List.perm_append_singleton s rest).trans h.perm
  · change ∀ i x, x < (c.insert il e s).nExpert → 0 ≤ (c.insert il e s).slotMap i x →
      ((c.insert il e s).slotMap i x).toNat < (c.insert il e s).nSlots ∧
        (c.insert il e s).keyOf ((c.insert il e s).slotMap i x).toNat =
          ((i * (c.insert il e s).nExpert + x : ℕ) : ℤ)
    intro i x hx hpos
    rw [insert_nExpert] at hx ⊢
    rw [insert_slotMap] at hpos ⊢
    rw [insert_nSlots, insert_keyOf]
    by_cases hnew : i = il ∧ x = e
    · obtain ⟨rfl, rfl⟩ := hnew
      simpa using hs
    · rw [if_neg hnew] at hpos ⊢
      by_cases hold : 0 ≤ c.keyOf s ∧ i = (c.keyOf s).toNat / c.nExpert ∧
          x = (c.keyOf s).toNat % c.nExpert
      · rw [if_pos hold] at hpos
        exact absurd hpos (of_decide_eq_false rfl)
      · rw [if_neg hold] at hpos ⊢
        obtain ⟨hlt, hkey⟩ := h.key_of_slot i x hx hpos
        -- the slot of a surviving expert is not the one handed out
        have hne : (c.slotMap i x).toNat ≠ s := by
          intro heq
          rw [heq] at hkey
          refine hold ⟨by omega, ?_, ?_⟩
          · rw [hkey, Int.toNat_natCast, key_div hx]
          · rw [hkey, Int.toNat_natCast, key_mod hx]
        rw [if_neg hne]
        exact ⟨hlt, hkey⟩
  · change ∀ t < (c.insert il e s).nSlots, 0 ≤ (c.insert il e s).keyOf t →
      (c.insert il e s).slotMap (((c.insert il e s).keyOf t).toNat / (c.insert il e s).nExpert)
        (((c.insert il e s).keyOf t).toNat % (c.insert il e s).nExpert) = t
    intro t ht hkey
    rw [insert_nSlots] at ht
    rw [insert_keyOf] at hkey ⊢
    rw [insert_nExpert]
    by_cases hts : t = s
    · rw [if_pos hts, Int.toNat_natCast, key_div he, key_mod he, insert_slotMap,
        if_pos ⟨rfl, rfl⟩, hts]
    · rw [if_neg hts] at hkey ⊢
      have hslot := h.slot_of_key t ht hkey
      rw [insert_slotMap, if_neg, if_neg]
      · exact hslot
      · rintro ⟨hkey', hdiv, hmod⟩
        have hslot' := h.slot_of_key s hs hkey'
        rw [← hdiv, ← hmod, hslot] at hslot'
        exact hts (Int.ofNat_inj.mp hslot')
      · rintro ⟨hdiv, hmod⟩
        rw [hdiv, hmod] at hslot
        omega
  · change ∀ i x, (c.insert il e s).slotMap i x = -1 ∨ 0 ≤ (c.insert il e s).slotMap i x
    intro i x
    rw [insert_slotMap]
    split_ifs
    · exact .inr (Int.natCast_nonneg s)
    · exact .inl rfl
    · exact h.slot_or_none i x
  · change ∀ t, (c.insert il e s).keyOf t = -1 ∨ ∃ i x, x < (c.insert il e s).nExpert ∧
      (c.insert il e s).keyOf t = ((i * (c.insert il e s).nExpert + x : ℕ) : ℤ)
    intro t
    rw [insert_keyOf, insert_nExpert]
    split_ifs
    · exact .inr ⟨il, e, he, rfl⟩
    · exact h.key_or_none t

/-! ## The misses -/

theorem insert_frame (il e s : ℕ) :
    ∃ slotMap keyOf, c.insert il e s = { c with slotMap := slotMap, keyOf := keyOf } := by
  unfold insert evict setSlot
  split_ifs
  · exact ⟨_, _, rfl⟩
  · exact ⟨_, _, rfl⟩

/-- The experts of `es` that have no slot. -/
def missing (c : MoeCacheLru) (il : ℕ) (es : List ℕ) : List ℕ :=
  es.filter fun e => c.slotMap il e < 0

/-- The outcome of handing the first slots of `victims` to the experts in `lacking`. -/
structure Refilled (c : MoeCacheLru) (il : ℕ) (lacking victims kept : List ℕ) (fills : List Fill)
    (r : MoeCacheLru × List Fill) : Prop where
  fills_eq : r.2 = fills ++ List.zipWith Fill.mk lacking victims
  consistent : Consistent r.1
    (victims.drop lacking.length ++ kept ++ victims.take lacking.length)
  frame : ∃ slotMap keyOf links,
    r.1 = { c with slotMap := slotMap, keyOf := keyOf, links := links }
  filled : ∀ f ∈ List.zipWith Fill.mk lacking victims, r.1.slotMap il f.expert = f.slot
  others : ∀ i x, 0 ≤ c.slotMap i x → (c.slotMap i x).toNat ∉ victims.take lacking.length →
    r.1.slotMap i x = c.slotMap i x
  keys : ∀ s ∉ victims.take lacking.length, r.1.keyOf s = c.keyOf s

theorem insert_others (h : Consistent c (s :: rest)) {i x : ℕ} (hmiss : c.slotMap il e < 0)
    (hx : 0 ≤ c.slotMap i x) (hslot : (c.slotMap i x).toNat ≠ s) :
    (c.insert il e s).slotMap i x = c.slotMap i x := by
  rw [insert_slotMap, if_neg, if_neg]
  · rintro ⟨hkey, hdiv, hmod⟩
    have hback := h.slot_of_key s (h.mem_order.mp List.mem_cons_self) hkey
    rw [← hdiv, ← hmod] at hback
    exact hslot (by rw [hback, Int.toNat_natCast])
  · rintro ⟨rfl, rfl⟩
    omega

theorem insert_missing (hx : c.slotMap il s < 0) {e t : ℕ} (hne : s ≠ e) :
    (c.insert il e t).slotMap il s < 0 := by
  rw [insert_slotMap, if_neg fun h => hne h.2]
  split_ifs
  · exact Int.negSucc_lt_zero 0
  · exact hx

theorem foldl_miss (todo : List ℕ) {c : MoeCacheLru} {victims kept : List ℕ} (fills : List Fill)
    (h : Consistent c (victims ++ kept)) (hnodup : todo.Nodup) (hlt : ∀ e ∈ todo, e < c.nExpert)
    (hkept : ∀ e ∈ todo, 0 ≤ c.slotMap il e → (c.slotMap il e).toNat ∈ kept)
    (hroom : (c.missing il todo).length ≤ victims.length) :
    Refilled c il (c.missing il todo) victims kept fills (todo.foldl (miss il) (c, fills)) := by
  induction todo generalizing c victims kept fills with
  | nil =>
    refine ⟨by simp [missing], ?_, ⟨_, _, _, rfl⟩, by simp [missing], fun _ _ _ _ => rfl,
      fun _ _ => rfl⟩
    simpa [missing] using h
  | cons e todo ih =>
    obtain ⟨he, hnodup⟩ := List.nodup_cons.mp hnodup
    rw [List.forall_mem_cons] at hlt hkept
    rw [missing, List.filter_cons] at hroom ⊢
    rw [List.foldl_cons, miss]
    by_cases hres : 0 ≤ c.slotMap il e
    · rw [if_neg (by simpa using hres)] at hroom ⊢
      rw [if_pos hres]
      exact ih fills h hnodup hlt.2 hkept.2 hroom
    · have hmiss : c.slotMap il e < 0 := not_le.mp hres
      rw [if_pos (decide_eq_true hmiss)] at hroom ⊢
      rw [if_neg hres]
      obtain ⟨s, vs, rfl⟩ : ∃ s vs, victims = s :: vs :=
        List.exists_cons_of_length_pos (by rw [List.length_cons] at hroom; omega)
      have hhead : c.links.head.toNat = s := by
        rw [h.represents.head_eq]
        exact Int.toNat_natCast s
      have hskept : s ∉ kept := fun hmem =>
        (List.nodup_cons.mp h.represents.nodup).1 (List.mem_append_right vs hmem)
      have hnext : Consistent ((c.insert il e s).touch s) (vs ++ (kept ++ [s])) := by
        rw [← List.append_assoc]
        exact insert_consistent h hlt.1 hmiss
      have hstays : ∀ x ∈ todo, 0 ≤ c.slotMap il x →
          (c.insert il e s).slotMap il x = c.slotMap il x := fun x hx hpos =>
        insert_others h hmiss hpos fun heq => hskept (heq ▸ hkept.2 x hx hpos)
      have hlacking : ((c.insert il e s).touch s).missing il todo = c.missing il todo := by
        refine List.filter_congr fun x hx => decide_eq_decide.mpr ?_
        change (c.insert il e s).slotMap il x < 0 ↔ c.slotMap il x < 0
        constructor
        · intro hneg
          by_contra hpos
          rw [hstays x hx (not_lt.mp hpos)] at hneg
          exact hpos hneg
        · exact fun hneg => insert_missing hneg fun heq => he (heq ▸ hx)
      simp only [hhead]
      have hrest := ih (fills ++ [⟨e, s⟩]) hnext hnodup
        (fun x hx => (insert_nExpert il e s).symm ▸ hlt.2 x hx) (fun x hx hpos => ?_)
        (by rw [hlacking]; exact Nat.le_of_succ_le_succ hroom)
      · rw [hlacking] at hrest
        change Refilled c il (e :: c.missing il todo) (s :: vs) kept fills _
        have hsvs : s ∉ vs := fun hmem =>
          (List.nodup_cons.mp h.represents.nodup).1 (List.mem_append_left kept hmem)
        have hself : (c.insert il e s).slotMap il e = s := by
          rw [insert_slotMap, if_pos ⟨rfl, rfl⟩]
        have hpair : ∀ r : MoeCacheLru,
            (∀ i x, 0 ≤ (c.insert il e s).slotMap i x →
              ((c.insert il e s).slotMap i x).toNat ∉ vs.take (c.missing il todo).length →
              r.slotMap i x = (c.insert il e s).slotMap i x) → r.slotMap il e = s := by
          intro r hothers
          rw [hothers il e (by rw [hself]; exact Int.natCast_nonneg s), hself]
          rw [hself, Int.toNat_natCast]
          exact fun hmem => hsvs (List.mem_of_mem_take hmem)
        obtain ⟨slotMap, keyOf, hframe⟩ := insert_frame (c := c) il e s
        refine ⟨?_, ?_, ?_, ?_, ?_, ?_⟩
        · rw [hrest.fills_eq, List.append_assoc]
          rfl
        · have horder := hrest.consistent
          rwa [← List.append_assoc, List.append_assoc (_ ++ kept)] at horder
        · obtain ⟨slotMap', keyOf', links', hr⟩ := hrest.frame
          refine ⟨slotMap', keyOf', links', ?_⟩
          rw [hr, touch, hframe]
        · intro f hf
          rcases List.mem_cons.mp hf with rfl | hf
          · exact hpair _ hrest.others
          · exact hrest.filled f hf
        · intro i x hpos hout
          have hout' := not_or.mp fun hor => hout (List.mem_cons.mpr hor)
          have hsame := insert_others h hmiss hpos hout'.1
          rw [hrest.others i x]
          · exact hsame
          · change 0 ≤ (c.insert il e s).slotMap i x
            rwa [hsame]
          · change ((c.insert il e s).slotMap i x).toNat ∉ _
            rw [hsame]
            exact hout'.2
        · intro t hout
          have hout' := not_or.mp fun hor => hout (List.mem_cons.mpr hor)
          rw [hrest.keys t hout'.2]
          exact (insert_keyOf il e s t).trans (if_neg hout'.1)
      · change ((c.insert il e s).slotMap il x).toNat ∈ kept ++ [s]
        change 0 ≤ (c.insert il e s).slotMap il x at hpos
        by_cases hx' : 0 ≤ c.slotMap il x
        · rw [hstays x hx hx']
          exact List.mem_append_left _ (hkept.2 x hx hx')
        · have hneg := insert_missing (c := c) (e := e) (t := s) (not_le.mp hx') fun heq => he (heq ▸ hx)
          omega

/-! ## The plan -/

theorem residentSlots_nodup (h : Consistent c order) {es : List ℕ} (hnodup : es.Nodup)
    (hlt : ∀ e ∈ es, e < c.nExpert) : (c.residentSlots il es).Nodup := by
  refine List.Nodup.map_on (fun a ha b hb heq => ?_) (hnodup.filter _)
  obtain ⟨ha, hra⟩ := List.mem_filter.mp ha
  obtain ⟨hb, hrb⟩ := List.mem_filter.mp hb
  have hka := (h.key_of_slot il a (hlt a ha) (of_decide_eq_true hra)).2
  have hkb := (h.key_of_slot il b (hlt b hb) (of_decide_eq_true hrb)).2
  rw [heq, hkb] at hka
  omega

theorem mem_residentSlots {es : List ℕ} :
    s ∈ c.residentSlots il es ↔ ∃ e ∈ es, 0 ≤ c.slotMap il e ∧ (c.slotMap il e).toNat = s := by
  simp only [residentSlots, List.mem_map, List.mem_filter, decide_eq_true_eq, and_assoc]

theorem residentSlots_length (il : ℕ) (es : List ℕ) :
    (c.residentSlots il es).length + (c.missing il es).length = es.length := by
  have hsplit := List.length_eq_length_filter_add (l := es) fun e => decide (0 ≤ c.slotMap il e)
  have hneg : c.missing il es = es.filter fun e => !decide (0 ≤ c.slotMap il e) :=
    List.filter_congr fun e _ => by
      rw [Bool.eq_iff_iff]
      simp
  rw [residentSlots, List.length_map, hneg]
  exact hsplit.symm

theorem hits_consistent (il : ℕ) (h : Consistent c order) {es : List ℕ} (hnodup : es.Nodup)
    (hlt : ∀ e ∈ es, e < c.nExpert) :
    Consistent { c with links := (c.residentSlots il es).foldl Links.touch c.links }
      (order.filter (· ∉ c.residentSlots il es) ++ c.residentSlots il es) := by
  have hsub : ∀ s ∈ c.residentSlots il es, s ∈ order := fun s hs => by
    obtain ⟨e, he, hres, rfl⟩ := mem_residentSlots.1 hs
    exact h.mem_order.mpr (h.key_of_slot il e (hlt e he) hres).1
  rw [← Links.foldl_toBack h.represents.nodup (residentSlots_nodup h hnodup hlt) hsub]
  exact ⟨Links.foldl_touch h.represents hsub, (Links.foldl_toBack_perm hsub).trans h.perm,
    h.key_of_slot, h.slot_of_key, h.slot_or_none, h.key_or_none⟩

end MoeCacheLru
end MoeCache
end RocmFpx
