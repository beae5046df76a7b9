import RocmFpx.Fallible
import RocmFpx.NgramMap
import Mathlib.Data.List.GetD

/-!
Positions of the n-gram map along a run. A key and a value lie in front of `size_last_begin` or
behind it, not across; then every read is in range, and a cleanup leaves what has not changed.
-/

namespace RocmFpx
namespace NgramMap

open Fallible

/-- The `size` tokens from `i` on. -/
def gram (inp : List Token) (i size : ℕ) : List Token := (inp.drop i).take size

/-! ## Reads in range -/

section

variable {inp : List Token} {i j size : ℕ}

theorem read_ok (hi : i < inp.length) : read inp i = .ok inp[i] := by
  rw [read, List.getElem?_eq_getElem hi]

theorem gram_length (h : i + size ≤ inp.length) : (gram inp i size).length = size := by
  rw [gram, List.length_take, List.length_drop]
  omega

theorem gram_succ (h : i < inp.length) : gram inp i (size + 1) = inp[i] :: gram inp (i + 1) size := by
  rw [gram, List.drop_eq_getElem_cons h, List.take_succ_cons]
  rfl

/-- Tokens behind the history do not change what it has. -/
theorem gram_grown {hist : List Token} (h : hist <+: inp) (hi : i + size ≤ hist.length) :
    gram inp i size = gram hist i size := by
  obtain ⟨more, rfl⟩ := h
  rw [gram, gram, List.drop_append_of_le_length (by omega), List.take_append_of_le_length]
  rw [List.length_drop]
  omega

theorem sameKey_ok {key : List Token} (h : i + key.length ≤ inp.length) :
    ∃ b, sameKey inp i key = .ok b ∧ (b = true ↔ gram inp i key.length = key) := by
  induction key generalizing i with
  | nil => exact ⟨true, rfl, iff_of_true rfl rfl⟩
  | cons t ts ih =>
    rw [List.length_cons] at h
    have hi : i < inp.length := by omega
    rw [sameKey, read_ok hi, List.length_cons, gram_succ hi]
    by_cases ht : inp[i] = t
    · obtain ⟨b, hb, hiff⟩ := ih (i := i + 1) (by omega)
      refine ⟨b, ?_, ?_⟩
      · rw [ok_bind, if_neg (not_not.mpr ht)]
        exact hb
      · rw [hiff, ht, List.cons_inj_right]
    · refine ⟨false, ?_, iff_of_false (by decide) fun h => ht (List.cons.inj h).1⟩
      rw [ok_bind, if_pos ht]
      rfl

theorem sameGram_ok (hi : i + size ≤ inp.length) (hj : j + size ≤ inp.length) :
    ∃ b, sameGram inp i j size = .ok b ∧ (b = true ↔ gram inp i size = gram inp j size) := by
  induction size generalizing i j with
  | zero => exact ⟨true, rfl, iff_of_true rfl rfl⟩
  | succ size ih =>
    have hi' : i < inp.length := by omega
    have hj' : j < inp.length := by omega
    rw [sameGram, read_ok hi', read_ok hj', gram_succ hi', gram_succ hj']
    by_cases ht : inp[i] = inp[j]
    · obtain ⟨b, hb, hiff⟩ := ih (i := i + 1) (j := j + 1) (by omega) (by omega)
      refine ⟨b, ?_, ?_⟩
      · rw [ok_bind, ok_bind, if_neg (not_not.mpr ht)]
        exact hb
      · rw [hiff, ht, List.cons_inj_right]
    · refine ⟨false, ?_, iff_of_false (by decide) fun h => ht (List.cons.inj h).1⟩
      rw [ok_bind, ok_bind, if_pos ht]
      rfl

theorem readGram_ok (h : i + size ≤ inp.length) : readGram inp i size = .ok (gram inp i size) := by
  rw [readGram, mapM_eq_ok, List.forall₂_iff_get]
  refine ⟨by rw [List.length_range, gram_length h], fun k hk hk' => ?_⟩
  rw [List.length_range] at hk
  simp only [List.get_eq_getElem, List.getElem_range, gram, List.getElem_take, List.getElem_drop]
  exact read_ok (by omega)

theorem searchDown_ok {key : List Token} (lo hi : ℕ) (h : hi + key.length ≤ inp.length) :
    ∃ pos, searchDown inp key lo hi = .ok pos ∧
      (pos ≠ 0 → lo < pos ∧ pos ≤ hi ∧ gram inp pos key.length = key) := by
  induction hi with
  | zero => exact ⟨0, rfl, fun h => absurd rfl h⟩
  | succ hi ih =>
    rw [searchDown]
    split_ifs with hlo
    · obtain ⟨b, hb, hiff⟩ := sameKey_ok h
      rw [hb, ok_bind]
      cases b with
      | true => exact ⟨hi + 1, rfl, fun _ => ⟨hlo, le_rfl, hiff.mp rfl⟩⟩
      | false =>
        obtain ⟨pos, hpos, hfound⟩ := ih (by omega)
        refine ⟨pos, hpos, fun hne => ?_⟩
        obtain ⟨h1, h2, h3⟩ := hfound hne
        exact ⟨h1, Nat.le_succ_of_le h2, h3⟩
    · exact ⟨0, rfl, fun h => absurd rfl h⟩

theorem addHashes_ok {sizeKey : ℕ} (keyMapSize lo hi : ℕ) (h : hi + sizeKey ≤ inp.length)
    (keyMap : ℕ → ℕ) : ∃ keyMap', addHashes inp sizeKey keyMapSize lo keyMap hi = .ok keyMap' ∧
      ∀ b, keyMap' b = keyMap b ∨ (lo < keyMap' b ∧ keyMap' b ≤ hi) := by
  induction hi generalizing keyMap with
  | zero => exact ⟨keyMap, rfl, fun b => .inl rfl⟩
  | succ hi ih =>
    rw [addHashes]
    split_ifs with hlo
    · rw [readGram_ok h, ok_bind]
      obtain ⟨keyMap', hrun, hmap⟩ := ih (by omega)
        (if keyMap (hash (gram inp (hi + 1) sizeKey) % keyMapSize) = 0 then
          Function.update keyMap (hash (gram inp (hi + 1) sizeKey) % keyMapSize) (hi + 1) else keyMap)
      refine ⟨keyMap', hrun, fun b => ?_⟩
      rcases hmap b with heq | ⟨h1, h2⟩
      · rw [heq]
        split_ifs with hzero
        · by_cases hb : b = hash (gram inp (hi + 1) sizeKey) % keyMapSize
          · rw [hb, Function.update_self]
            exact .inr ⟨hlo, le_rfl⟩
          · rw [Function.update_of_ne hb]
            exact .inl rfl
        · exact .inl rfl
      · exact .inr ⟨h1, Nat.le_succ_of_le h2⟩
    · exact ⟨keyMap, rfl, fun b => .inl rfl⟩

theorem findKey_ok {key : List Token} {keys : List Key}
    (h : ∀ k ∈ keys, k.keyIdx + key.length ≤ inp.length) :
    ∃ offset, findKey inp key keys = .ok offset ∧ offset ≤ keys.length ∧
      (∀ k, keys[offset]? = some k → gram inp k.keyIdx key.length = key) ∧
      ∀ i < offset, ∀ k, keys[i]? = some k → gram inp k.keyIdx key.length ≠ key := by
  induction keys with
  | nil => exact ⟨0, rfl, le_rfl, fun k hk => (nomatch hk), fun i hi => absurd hi (Nat.not_lt_zero i)⟩
  | cons k ks ih =>
    obtain ⟨b, hb, hiff⟩ := sameKey_ok (h k List.mem_cons_self)
    rw [findKey, hb, ok_bind]
    cases b with
    | true =>
      refine ⟨0, rfl, Nat.zero_le _, fun k' hk' => ?_, fun i hi => absurd hi (Nat.not_lt_zero i)⟩
      obtain rfl : k = k' := by simpa using hk'
      exact hiff.mp rfl
    | false =>
      obtain ⟨offset, hrun, hle, hat, hbefore⟩ := ih fun k hk => h k (List.mem_cons_of_mem _ hk)
      refine ⟨offset + 1, ?_, Nat.succ_le_succ hle, fun k' hk' => hat k' (by simpa using hk'), ?_⟩
      · rw [hrun]
        rfl
      · intro i hi k' hk'
        cases i with
        | zero =>
          obtain rfl : k = k' := by simpa using hk'
          exact fun heq => absurd (hiff.mpr heq) (by decide)
        | succ i => exact hbefore i (Nat.lt_of_succ_lt_succ hi) k' (by simpa using hk')

theorem countValue_ok {values : List Value} (hi : i + size ≤ inp.length)
    (h : ∀ v ∈ values, v.valueIdx ≠ 0 → v.valueIdx + size ≤ inp.length) :
    ∃ values', countValue inp size i values = .ok values' ∧
      ∀ v' ∈ values', v'.valueIdx = i ∨ ∃ v ∈ values, v.valueIdx = v'.valueIdx := by
  induction values with
  | nil => exact ⟨[], rfl, fun v' hv' => absurd hv' List.not_mem_nil⟩
  | cons v vs ih =>
    rw [countValue]
    split_ifs with hzero
    · refine ⟨_, rfl, fun v' hv' => ?_⟩
      rcases List.mem_cons.mp hv' with rfl | hv'
      · exact .inl rfl
      · exact .inr ⟨v', List.mem_cons_of_mem _ hv', rfl⟩
    · obtain ⟨b, hb, -⟩ := sameGram_ok hi (h v List.mem_cons_self hzero)
      rw [hb, ok_bind]
      cases b with
      | true =>
        refine ⟨_, rfl, fun v' hv' => ?_⟩
        rcases List.mem_cons.mp hv' with rfl | hv'
        · exact .inr ⟨v, List.mem_cons_self, rfl⟩
        · exact .inr ⟨v', List.mem_cons_of_mem _ hv', rfl⟩
      | false =>
        obtain ⟨vs', hrun, hvs'⟩ := ih fun v hv => h v (List.mem_cons_of_mem _ hv)
        refine ⟨v :: vs', by rw [hrun]; rfl, fun v' hv' => ?_⟩
        rcases List.mem_cons.mp hv' with rfl | hv'
        · exact .inr ⟨v', List.mem_cons_self, rfl⟩
        · exact (hvs' v' hv').imp_right fun ⟨w, hw, heq⟩ => ⟨w, List.mem_cons_of_mem _ hw, heq⟩

theorem statStep_ok {key : List Token} {values : List Value}
    (hi : i + key.length + size ≤ inp.length)
    (h : ∀ v ∈ values, v.valueIdx ≠ 0 → v.valueIdx + size ≤ inp.length) :
    ∃ values', statStep inp size key values i = .ok values' ∧
      ∀ v' ∈ values', v'.valueIdx = i + key.length ∨ ∃ v ∈ values, v.valueIdx = v'.valueIdx := by
  have hread : i + key.length ≤ inp.length := by omega
  obtain ⟨b, hb, -⟩ := sameKey_ok hread
  rw [statStep, hb, ok_bind]
  cases b with
  | true => exact countValue_ok hi h
  | false => exact ⟨values, rfl, fun v' hv' => .inr ⟨v', hv', rfl⟩⟩

theorem statSteps_ok {key : List Token} {B : ℕ → Prop} (hB : ∀ x, B x → x + size ≤ inp.length)
    (is : List ℕ) (his : ∀ i ∈ is, B (i + key.length)) {values : List Value}
    (h : ∀ v ∈ values, v.valueIdx ≠ 0 → B v.valueIdx) :
    ∃ values', is.foldlM (statStep inp size key) values = .ok values' ∧
      ∀ v ∈ values', v.valueIdx ≠ 0 → B v.valueIdx := by
  induction is generalizing values with
  | nil => exact ⟨values, rfl, h⟩
  | cons i is ih =>
    have hi := his i List.mem_cons_self
    obtain ⟨values₁, hrun, hvalues⟩ := statStep_ok (i := i) (hB _ hi)
      fun v hv hne => hB _ (h v hv hne)
    rw [List.foldlM_cons, hrun, ok_bind]
    refine ih (fun i hi => his i (List.mem_cons_of_mem _ hi)) fun v hv hne => ?_
    rcases hvalues v hv with heq | ⟨w, hw, heq⟩
    · rwa [heq]
    · rw [← heq] at hne ⊢
      exact h w hw hne

end

/-! ## The invariant -/

namespace Map

variable {map : Map} {inp hist : List Token} {sampled : Token}

/-- Key and value at `i` lie in front of `size_last_begin`, or the key starts behind it. -/
def Placed (map : Map) (i : ℕ) : Prop :=
  i + map.sizeKey + map.sizeValue + 1 ≤ map.idxLastCheck ∧
    (i + map.sizeKey + map.sizeValue + 1 ≤ map.sizeLastBegin ∨ map.sizeLastBegin < i)

/-- A value at `x` of a key at `i`; without statistics there are none. -/
def ValuePlaced (map : Map) (i x : ℕ) : Prop :=
  map.keyOnly = false ∧ x + map.sizeValue + 1 ≤ map.idxLastCheck ∧
    (i ≤ map.sizeLastBegin → x + map.sizeValue + 1 ≤ map.sizeLastBegin)

def KeyPlaced (map : Map) (key : Key) : Prop :=
  map.Placed key.keyIdx ∧ ∀ v ∈ key.values, v.valueIdx ≠ 0 → map.ValuePlaced key.keyIdx v.valueIdx

structure Fits (map : Map) : Prop where
  begun : map.sizeLastBegin ≤ map.idxLastCheck
  table : map.keyMapSize = 0 → ∀ h, map.keyMap h = 0
  bucket : ∀ h, map.keyMap h ≠ 0 → map.Placed (map.keyMap h)
  keys : ∀ k ∈ map.keys, map.KeyPlaced k

theorem lastPos_placed {lo pos : ℕ} (hlo : map.sizeLastBegin ≤ lo) (hpos : lo < pos)
    (hle : pos ≤ map.lastPos map.idxLastCheck) : map.Placed pos := by
  rw [lastPos] at hle
  exact ⟨by omega, .inr (by omega)⟩

theorem lastPos_placed_before {lo pos : ℕ} (hbegun : map.sizeLastBegin ≤ map.idxLastCheck)
    (hpos : lo < pos) (hle : pos ≤ map.lastPos map.sizeLastBegin) : map.Placed pos := by
  rw [lastPos] at hle
  exact ⟨by omega, .inl (by omega)⟩

/-- The history is long enough for a search. -/
structure Searchable (map : Map) (inp key : List Token) : Prop where
  length : map.idxLastCheck = inp.length
  key : key.length = map.sizeKey
  enough : 2 * map.sizeKey + map.sizeValue ≤ inp.length

theorem Searchable.lastPos_le {key : List Token} (h : map.Searchable inp key) :
    map.lastPos inp.length + map.sizeKey ≤ inp.length := by
  have := h.enough
  have := map.sizeKey_pos
  rw [lastPos]
  omega

theorem tableMatch_ok {key : List Token} (h : map.Fits) (hs : map.Searchable inp key) :
    ∃ pos, map.tableMatch inp key = .ok pos ∧
      (pos ≠ 0 → map.Placed pos ∧ gram inp pos map.sizeKey = key) := by
  rw [tableMatch]
  split_ifs with hidx
  · have hplaced := h.bucket _ hidx.2.1
    have hle := hplaced.1
    rw [hs.length] at hle
    have hread : map.keyMap (hash key % map.keyMapSize) + key.length ≤ inp.length := by
      rw [hs.key]
      omega
    obtain ⟨b, hb, hiff⟩ := sameKey_ok hread
    rw [hb, ok_bind]
    cases b with
    | true => exact ⟨_, rfl, fun _ => ⟨hplaced, hs.key ▸ hiff.mp rfl⟩⟩
    | false => exact ⟨0, rfl, fun hne => absurd rfl hne⟩
  · exact ⟨0, rfl, fun hne => absurd rfl hne⟩

theorem matchBefore_ok {key : List Token} (h : map.Fits) (hs : map.Searchable inp key) :
    ∃ pos, map.matchBefore inp key = .ok pos ∧
      (pos ≠ 0 → map.Placed pos ∧ gram inp pos map.sizeKey = key) := by
  have hbegun := h.begun
  rw [hs.length] at hbegun
  rw [matchBefore]
  split_ifs
  · have hread : map.lastPos map.sizeLastBegin + key.length ≤ inp.length := by
      rw [hs.key, lastPos]
      omega
    obtain ⟨pos, hrun, hpos⟩ := searchDown_ok map.keyMapLastIdx _ hread
    refine ⟨pos, hrun, fun hne => ?_⟩
    obtain ⟨h1, h2, h3⟩ := hpos hne
    exact ⟨lastPos_placed_before h.begun h1 h2, hs.key ▸ h3⟩
  · exact ⟨0, rfl, fun hne => absurd rfl hne⟩

theorem matchBehind_ok {key : List Token} (hs : map.Searchable inp key) :
    ∃ pos, map.matchBehind inp key = .ok pos ∧
      (pos ≠ 0 → map.Placed pos ∧ gram inp pos map.sizeKey = key) := by
  have hread : map.lastPos inp.length + key.length ≤ inp.length := hs.key ▸ hs.lastPos_le
  obtain ⟨pos, hrun, hpos⟩ :=
    searchDown_ok (max map.sizeLastBegin map.keyMapLastIdx) _ hread
  refine ⟨pos, hrun, fun hne => ?_⟩
  obtain ⟨h1, h2, h3⟩ := hpos hne
  exact ⟨lastPos_placed (le_max_left _ _) h1 (hs.length ▸ h2), hs.key ▸ h3⟩

theorem findMatch_ok {key : List Token} (h : map.Fits) (hs : map.Searchable inp key) :
    ∃ pos, map.findMatch inp key = .ok pos ∧
      (pos ≠ 0 → map.Placed pos ∧ gram inp pos map.sizeKey = key) := by
  obtain ⟨p₁, hrun₁, hp₁⟩ := tableMatch_ok h hs
  obtain ⟨p₂, hrun₂, hp₂⟩ := matchBefore_ok h hs
  obtain ⟨p₃, hrun₃, hp₃⟩ := matchBehind_ok hs
  rw [findMatch, hrun₁, ok_bind]
  split_ifs
  · exact ⟨p₁, rfl, hp₁⟩
  · rw [hrun₂, ok_bind]
    split_ifs
    · exact ⟨p₂, rfl, hp₂⟩
    · exact ⟨p₃, hrun₃, hp₃⟩

/-- The map with another hash table. -/
def withTable (map : Map) (keyMap : ℕ → ℕ) (keyMapLastIdx : ℕ) : Map :=
  { map with keyMap := keyMap, keyMapLastIdx := keyMapLastIdx }

theorem enterBefore_ok {key : List Token} (h : map.Fits) (hs : map.Searchable inp key) :
    ∃ keyMap, map.enterBefore inp = .ok keyMap ∧ ∀ b, keyMap b ≠ 0 → map.Placed (keyMap b) := by
  have hbegun := h.begun
  rw [hs.length] at hbegun
  rw [enterBefore]
  split_ifs
  · have hread : map.lastPos map.sizeLastBegin + map.sizeKey ≤ inp.length := by
      rw [lastPos]
      omega
    obtain ⟨keyMap, hrun, hkeyMap⟩ :=
      addHashes_ok map.keyMapSize map.keyMapLastIdx _ hread map.keyMap
    refine ⟨keyMap, hrun, fun b hne => ?_⟩
    rcases hkeyMap b with heq | ⟨h1, h2⟩
    · rw [heq] at hne ⊢
      exact h.bucket b hne
    · exact lastPos_placed_before h.begun h1 h2
  · exact ⟨map.keyMap, rfl, h.bucket⟩

theorem enterHashes_ok {key : List Token} (h : map.Fits) (hs : map.Searchable inp key) :
    ∃ keyMap lastIdx, map.enterHashes inp = .ok (map.withTable keyMap lastIdx) ∧
      (map.withTable keyMap lastIdx).Fits := by
  rw [enterHashes]
  split_ifs with hsize
  · exact ⟨map.keyMap, map.keyMapLastIdx, rfl, h.begun, h.table, h.bucket, h.keys⟩
  · obtain ⟨keyMap, hrun, hkeyMap⟩ := enterBefore_ok h hs
    obtain ⟨keyMap', hrun', hkeyMap'⟩ := addHashes_ok map.keyMapSize
      (max map.sizeLastBegin map.keyMapLastIdx) _ hs.lastPos_le keyMap
    rw [hrun, ok_bind, hrun', ok_bind]
    refine ⟨keyMap', _, rfl, h.begun, fun hzero => absurd hzero hsize, fun b hne => ?_, h.keys⟩
    change map.Placed (keyMap' b)
    rcases hkeyMap' b with heq | ⟨h1, h2⟩
    · rw [heq]
      exact hkeyMap b (heq ▸ hne)
    · exact lastPos_placed (le_max_left _ _) h1 (hs.length ▸ h2)

theorem keyPlaced_newKey {pos : ℕ} (h : map.Placed pos) : map.KeyPlaced (map.newKey pos) := by
  refine ⟨h, fun v hv hne => absurd ?_ hne⟩
  rw [List.eq_of_mem_replicate hv]

theorem keysWith_placed {offset pos : ℕ} (h : map.Fits) (hpos : map.Placed pos) :
    ∀ k ∈ map.keysWith offset pos, map.KeyPlaced k := by
  rw [keysWith]
  split_ifs
  · intro k hk
    rcases List.mem_append.mp hk with hk | hk
    · exact h.keys k hk
    · exact List.mem_singleton.mp hk ▸ keyPlaced_newKey hpos
  · exact h.keys

theorem currKey_placed (offset : ℕ) {pos : ℕ} (h : map.Fits) (hpos : map.Placed pos) :
    map.KeyPlaced (map.currKey offset pos) := by
  have hplaced : map.KeyPlaced ((map.keysWith offset pos).getD offset (map.newKey pos)) := by
    rw [List.getD_eq_getElem?_getD]
    cases hk : (map.keysWith offset pos)[offset]? with
    | none => exact keyPlaced_newKey hpos
    | some k => exact keysWith_placed h hpos k (List.mem_of_getElem? hk)
  exact hplaced

theorem setKey_fits (offset : ℕ) {pos : ℕ} {key : Key} (h : map.Fits) (hpos : map.Placed pos)
    (hkey : map.KeyPlaced key) : (map.setKey offset pos key).Fits := by
  refine ⟨h.begun, h.table, h.bucket, fun k hk => ?_⟩
  rcases List.mem_or_eq_of_mem_set hk with hk | rfl
  · exact keysWith_placed h hpos k hk
  · exact hkey

theorem fillDraft_ok {offset pos slot : ℕ} {key : Key} (h : map.Fits) (hpos : map.Placed pos)
    (hkey : map.KeyPlaced key) (hlen : map.idxLastCheck = inp.length) :
    ∃ r, map.fillDraft inp pos offset slot key = .ok r ∧ r.1.Fits ∧
      r.1.sizeLastBegin = map.sizeLastBegin ∧ r.1.idxLastCheck = map.idxLastCheck := by
  have hle := hpos.1
  rw [fillDraft, readGram_ok (by omega), ok_bind]
  have hfits := setKey_fits offset h hpos hkey
  exact ⟨_, rfl, ⟨hfits.begun, hfits.table, hfits.bucket, hfits.keys⟩, rfl, rfl⟩

theorem statistics_ok {key : List Token} {pos : ℕ} {curr : Key} (honly : map.keyOnly = false)
    (hs : map.Searchable inp key) (hpos : map.Placed pos) (hcurr : map.KeyPlaced curr)
    (htogether : curr.keyIdx ≤ map.sizeLastBegin → pos ≤ map.sizeLastBegin) :
    ∃ curr', map.statistics inp key pos curr = .ok curr' ∧ map.KeyPlaced curr' := by
  have hle := hpos.1
  have his : ∀ i ∈ List.range' curr.statIdx (pos + 1 - curr.statIdx),
      map.ValuePlaced curr.keyIdx (i + key.length) := by
    intro i hi
    have hi := List.mem_range'_1.mp hi
    rw [hs.key]
    refine ⟨honly, by omega, fun hbefore => ?_⟩
    have hfront := htogether hbefore
    rcases hpos.2 with hpos | hpos <;> omega
  have hread : ∀ x, map.ValuePlaced curr.keyIdx x → x + map.sizeValue ≤ inp.length := by
    intro x hx
    have := hx.2.1
    rw [← hs.length]
    omega
  obtain ⟨values, hrun, hvalues⟩ := statSteps_ok hread _ his hcurr.2
  rw [statistics, hrun, ok_bind]
  exact ⟨_, rfl, hcurr.1, hvalues⟩

/-- What holds before a call that matches `pos`: the statistics of an old key do not run to a match
behind `size_last_begin`. -/
def Together (map : Map) (inp key : List Token) (pos : ℕ) : Prop :=
  map.keyOnly = false → ∀ k ∈ map.keys, gram inp k.keyIdx map.sizeKey = key →
    map.minHits ≤ min (k.keyNum + 1) commonNgramMaxValueCount →
    k.keyIdx ≤ map.sizeLastBegin → pos ≤ map.sizeLastBegin

theorem currKey_keyIdx {key : List Token} {offset : ℕ} (pos : ℕ) (h : map.Fits)
    (hs : map.Searchable inp key) (hoffset : findKey inp key map.keys = .ok offset) :
    (map.currKey offset pos = { map.newKey pos with keyNum := min 1 commonNgramMaxValueCount } ∧
      ∀ k ∈ map.keys, gram inp k.keyIdx map.sizeKey ≠ key) ∨
    ∃ k ∈ map.keys, gram inp k.keyIdx map.sizeKey = key ∧
      map.currKey offset pos = { k with keyNum := min (k.keyNum + 1) commonNgramMaxValueCount } := by
  have hread : ∀ k ∈ map.keys, k.keyIdx + key.length ≤ inp.length := by
    intro k hk
    have := (h.keys k hk).1.1
    rw [hs.key, ← hs.length]
    omega
  obtain ⟨offset', hrun, hle, hat, hbefore⟩ := findKey_ok hread
  obtain rfl : offset' = offset := Except.ok.inj (hrun.symm.trans hoffset)
  rw [hs.key] at hat hbefore
  by_cases hend : offset' = map.keys.length
  · left
    subst hend
    constructor
    · rw [currKey, keysWith, if_pos rfl, List.getD_eq_getElem?_getD, List.getElem?_concat_length]
      rfl
    · intro k hk
      obtain ⟨i, hi, rfl⟩ := List.getElem_of_mem hk
      exact hbefore i hi _ (List.getElem?_eq_getElem hi)
  · right
    have hlt : offset' < map.keys.length := lt_of_le_of_ne hle hend
    refine ⟨map.keys[offset'], List.getElem_mem hlt, hat _ (List.getElem?_eq_getElem hlt), ?_⟩
    rw [currKey, keysWith, if_neg hend, List.getD_eq_getElem _ _ hlt]

theorem draftMatch_ok {key : List Token} {pos : ℕ} (h : map.Fits) (hs : map.Searchable inp key)
    (hpos : map.Placed pos) (htogether : map.Together inp key pos) :
    ∃ r, map.draftMatch inp key pos = .ok r ∧ r.1.Fits ∧
      r.1.sizeLastBegin = map.sizeLastBegin ∧ r.1.idxLastCheck = map.idxLastCheck := by
  have hread : ∀ k ∈ map.keys, k.keyIdx + key.length ≤ inp.length := by
    intro k hk
    have := (h.keys k hk).1.1
    rw [hs.key, ← hs.length]
    omega
  obtain ⟨offset, hoffset, -⟩ := findKey_ok hread
  have hcurr := currKey_placed offset h hpos
  rw [draftMatch, hoffset, ok_bind]
  dsimp only
  split_ifs with honly hhits
  · exact fillDraft_ok h hpos hcurr hs.length
  · exact ⟨_, rfl, setKey_fits offset h hpos hcurr, rfl, rfl⟩
  · have hfront : (map.currKey offset pos).keyIdx ≤ map.sizeLastBegin → pos ≤ map.sizeLastBegin := by
      intro hle
      rcases currKey_keyIdx pos h hs hoffset with ⟨heq, -⟩ | ⟨k, hk, hgram, heq⟩
      · rw [heq] at hle
        exact hle
      · rw [heq] at hle hhits
        exact htogether (by simpa using honly) k hk hgram (not_lt.mp hhits) hle
    obtain ⟨curr, hrun, hplaced⟩ :=
      statistics_ok (Bool.eq_false_iff.mpr honly) hs hpos hcurr hfront
    rw [hrun, ok_bind, draftValue]
    split_ifs
    · exact ⟨_, rfl, setKey_fits offset h hpos hplaced, rfl, rfl⟩
    · exact fillDraft_ok h hpos hplaced hs.length

theorem keyTokens_length (h : map.sizeKey ≤ inp.length) :
    (map.keyTokens inp sampled).length = map.sizeKey := by
  have := map.sizeKey_pos
  rw [keyTokens, List.length_append, List.length_drop, List.length_singleton]
  omega

theorem draftChecked_ok (h : map.Fits) (hlen : map.idxLastCheck = inp.length)
    (henough : 2 * map.sizeKey + map.sizeValue ≤ inp.length)
    (htogether : ∀ pos, map.findMatch inp (map.keyTokens inp sampled) = .ok pos → pos ≠ 0 →
      map.Together inp (map.keyTokens inp sampled) pos) :
    ∃ r, map.draftChecked inp sampled = .ok r ∧ r.1.Fits ∧
      r.1.sizeLastBegin = map.sizeLastBegin ∧ r.1.idxLastCheck = map.idxLastCheck := by
  have hs : map.Searchable inp (map.keyTokens inp sampled) :=
    ⟨hlen, keyTokens_length (by omega), henough⟩
  obtain ⟨pos, hfind, hpos⟩ := findMatch_ok h hs
  obtain ⟨keyMap, lastIdx, henter, hfits⟩ := enterHashes_ok h hs
  rw [draftChecked, hfind, ok_bind, henter, ok_bind]
  split_ifs with hzero
  · exact ⟨_, rfl, hfits, rfl, rfl⟩
  · exact draftMatch_ok hfits ⟨hs.length, hs.key, hs.enough⟩ (hpos hzero).1
      (htogether pos hfind hzero)

/-- The conditions under which a draft is made as the map expects it. -/
def DraftTogether (map : Map) (inp : List Token) (sampled : Token) : Prop :=
  ∀ pos, map.findMatch inp (map.keyTokens inp sampled) = .ok pos → pos ≠ 0 →
    map.Together inp (map.keyTokens inp sampled) pos

theorem Placed.mono {i checked : ℕ} (h : map.Placed i) (hle : map.idxLastCheck ≤ checked) :
    i + map.sizeKey + map.sizeValue + 1 ≤ checked ∧
      (i + map.sizeKey + map.sizeValue + 1 ≤ map.sizeLastBegin ∨ map.sizeLastBegin < i) :=
  ⟨h.1.trans hle, h.2⟩

theorem draft_ok (h : map.Fits) (hlen : map.idxLastCheck ≤ inp.length)
    (htogether : map.DraftTogether inp sampled) :
    map.draft inp sampled = .error .abort ∨ ∃ r, map.draft inp sampled = .ok r ∧ r.1.Fits ∧
      r.1.idxLastCheck ≤ inp.length := by
  rw [draft]
  split_ifs with hshort habort
  · exact .inr ⟨_, rfl, ⟨h.begun, h.table, h.bucket, h.keys⟩, hlen⟩
  · exact .inl rfl
  · right
    have hfits : { map.resetDraft with idxLastCheck := inp.length }.Fits := by
      refine ⟨h.begun.trans hlen, h.table, fun b hne => (h.bucket b hne).mono hlen, fun k hk => ?_⟩
      obtain ⟨hidx, hvalues⟩ := h.keys k hk
      exact ⟨hidx.mono hlen, fun v hv hne =>
        ⟨(hvalues v hv hne).1, (hvalues v hv hne).2.1.trans hlen, (hvalues v hv hne).2.2⟩⟩
    obtain ⟨r, hrun, hr, -, hchecked⟩ :=
      draftChecked_ok hfits rfl (not_lt.mp hshort) htogether
    exact ⟨r, hrun, hr, hchecked.le⟩

/-! ## A cleanup -/

theorem placed_inside {size i : ℕ} (h : i + map.sizeKey + map.sizeValue + 1 ≤ size) :
    { map with idxLastCheck := size, sizeLastBegin := size }.Placed i :=
  ⟨h, .inl h⟩

theorem cleanup_le (map : Map) (size : ℕ) : map.idxBeginCleanup size ≤ map.sizeLastBegin ∧
    map.idxBeginCleanup size ≤ size := by
  rw [idxBeginCleanup]
  split_ifs <;> omega

theorem end_le_of_lt_cleanup {size i : ℕ} (h : map.Placed i) (hlt : i < map.idxBeginCleanup size) :
    i + map.sizeKey + map.sizeValue + 1 ≤ min map.sizeLastBegin size := by
  have hfront := h.2
  rw [idxBeginCleanup] at hlt
  split_ifs at hlt <;> omega

theorem value_end_le_of_lt_cleanup {size i x : ℕ} (hx : map.ValuePlaced i x)
    (hi : i < map.idxBeginCleanup size) (hlt : x < map.idxBeginCleanup size) : x + map.sizeValue + 1 ≤ min map.sizeLastBegin size := by
  have hfront := hx.2.2 ((Nat.le_of_lt hi).trans (cleanup_le map size).1)
  rw [idxBeginCleanup] at hlt
  split_ifs at hlt <;> omega

theorem mem_deleteValues {cleanup : ℕ} {values : List Value} {v : Value}
    (hv : v ∈ deleteValues cleanup values) (hne : v.valueIdx ≠ 0) :
    v ∈ values ∧ v.valueIdx < cleanup := by
  rw [deleteValues] at hv
  rcases List.mem_append.mp hv with hv | hv
  · rw [List.mem_filter, decide_eq_true_eq] at hv
    exact ⟨hv.1, hv.2.resolve_left hne⟩
  · rw [List.eq_of_mem_replicate hv] at hne
    exact absurd rfl hne

theorem cleanKey_spec {cleanup : ℕ} {key key' : Key} (h : map.cleanKey cleanup key = some key') :
    key'.keyIdx = key.keyIdx ∧ key.keyIdx < cleanup ∧
      ∀ v ∈ key'.values, v.valueIdx ≠ 0 →
        v ∈ key.values ∧ (map.keyOnly = false → v.valueIdx < cleanup) := by
  rw [cleanKey] at h
  split_ifs at h with hcleanup honly
  · obtain rfl := Option.some.inj h
    exact ⟨rfl, not_le.mp hcleanup, fun v hv _ => ⟨hv, fun h => absurd honly (by simp [h])⟩⟩
  · dsimp only at h
    split_ifs at h
    obtain rfl := Option.some.inj h
    refine ⟨rfl, not_le.mp hcleanup, fun v hv hne => ?_⟩
    obtain ⟨hmem, hlt⟩ := mem_deleteValues hv hne
    exact ⟨hmem, fun _ => hlt⟩

theorem mem_keys_begin {tokens : List Token} (h : map.Fits) {k : Key}
    (hk : k ∈ (map.begin tokens).keys) : ∃ k₀ ∈ map.keys, k.keyIdx = k₀.keyIdx ∧
      (map.idxLastCheck ≤ tokens.length ∨
        k.keyIdx + map.sizeKey + map.sizeValue + 1 ≤ min map.sizeLastBegin tokens.length) ∧
      ∀ v ∈ k.values, v.valueIdx ≠ 0 → v ∈ k₀.values ∧ (map.idxLastCheck ≤ tokens.length ∨
        v.valueIdx + map.sizeValue + 1 ≤ min map.sizeLastBegin tokens.length) := by
  rw [begin] at hk
  dsimp only at hk
  split_ifs at hk with hshrinks
  · obtain ⟨k₀, hk₀, hclean⟩ := List.mem_filterMap.mp hk
    obtain ⟨hidx, hlt, hvalues⟩ := cleanKey_spec hclean
    obtain ⟨hplaced, hplaces⟩ := h.keys k₀ hk₀
    refine ⟨k₀, hk₀, hidx, .inr (hidx ▸ end_le_of_lt_cleanup hplaced hlt), fun v hv hne => ?_⟩
    obtain ⟨hmem, hvlt⟩ := hvalues v hv hne
    have hx := hplaces v hmem hne
    exact ⟨hmem, .inr (value_end_le_of_lt_cleanup hx hlt (hvlt hx.1))⟩
  · have hle : map.idxLastCheck ≤ tokens.length := by simpa using hshrinks
    exact ⟨k, hk, rfl, .inl hle, fun v hv _ => ⟨hv, .inl hle⟩⟩

theorem begin_fits {tokens : List Token} (h : map.Fits) : (map.begin tokens).Fits := by
  refine ⟨le_rfl, fun hsize b => ?_, fun b hne => placed_inside ?_, fun k hk => ?_⟩
  · change (if _ then _ else _) = _
    rw [h.table hsize b, ite_self]
  · change (if _ then _ else _) ≠ _ at hne
    change (if _ then _ else _) + _ + _ + _ ≤ _
    split_ifs at hne ⊢ with hclean
    · exact absurd rfl hne
    · have hplaced := h.bucket b hne
      by_cases hshrinks : tokens.length < map.idxLastCheck
      · have hsize : map.keyMapSize ≠ 0 := fun hzero => hne (h.table hzero b)
        have hlt : map.keyMap b < map.idxBeginCleanup tokens.length := by
          simpa [hsize, hshrinks] using hclean
        exact (end_le_of_lt_cleanup hplaced hlt).trans (min_le_right _ _)
      · exact hplaced.1.trans (not_lt.mp hshrinks)
  · obtain ⟨k₀, hk₀, hidx, hend, hvalues⟩ := mem_keys_begin h hk
    obtain ⟨hplaced, hplaces⟩ := h.keys k₀ hk₀
    constructor
    · refine placed_inside ?_
      rcases hend with hle | hend
      · exact hidx ▸ hplaced.1.trans hle
      · exact hend.trans (min_le_right _ _)
    · intro v hv hne
      obtain ⟨hmem, hend⟩ := hvalues v hv hne
      have hx := hplaces v hmem hne
      have hle : v.valueIdx + map.sizeValue + 1 ≤ tokens.length := by
        rcases hend with hle | hend
        · exact hx.2.1.trans hle
        · exact hend.trans (min_le_right _ _)
      exact ⟨hx.1, hle, fun _ => hle⟩

end Map

/-! ## Runs -/

/-- The first `size` tokens are the same in both histories. -/
def Unchanged (old new : List Token) (size : ℕ) : Prop :=
  size ≤ old.length ∧ size ≤ new.length ∧ old.take size = new.take size

theorem Unchanged.mono {old new : List Token} {size size' : ℕ} (h : Unchanged old new size)
    (hle : size' ≤ size) : Unchanged old new size' := by
  refine ⟨hle.trans h.1, hle.trans h.2.1, ?_⟩
  have htake := congrArg (List.take size') h.2.2
  rwa [List.take_take, List.take_take, min_eq_left hle] at htake

theorem unchanged_of_grown {old new : List Token} {size : ℕ} (h : old <+: new)
    (hle : size ≤ old.length) : Unchanged old new size := by
  obtain ⟨more, rfl⟩ := h
  refine ⟨hle, hle.trans ?_, (List.take_append_of_le_length hle).symm⟩
  rw [List.length_append]
  exact Nat.le_add_right _ _

/-- The calls that a run may make: a start with a history that shares the tokens in front of the
last start but for a key and a value, and drafts in a history that grows. -/
def Op.Allowed (s : State) : Op → Prop
  | .begin tokens => Unchanged s.hist tokens
      (min s.map.sizeLastBegin tokens.length - s.map.sizeKey - s.map.sizeValue)
  | .draft inp _ => s.hist <+: inp
  | .accept _ => False

/-- Every read is in range, and a start keeps nothing that has changed. -/
def Op.Sound (s : State) (op : Op) : Prop :=
  op.call s ≠ .error .outOfRange ∧ ∀ tokens, op = .begin tokens →
    ∀ k ∈ (s.map.begin tokens).keys, Unchanged s.hist tokens (k.keyIdx + s.map.sizeKey) ∧
      ∀ v ∈ k.values, v.valueIdx ≠ 0 → Unchanged s.hist tokens (v.valueIdx + s.map.sizeValue)

/-- A start gets a history that goes on from the old one, or one with all of the tokens in front of
the last start that is short enough to be noticed; and the statistics of a draft do not cross the
last start. -/
def Op.Careful (s : State) : Op → Prop
  | .begin tokens => s.hist <+: tokens ∨ tokens.length < s.map.idxLastCheck ∧
      Unchanged s.hist tokens (min s.map.sizeLastBegin tokens.length)
  | .draft inp sampled => s.map.DraftTogether inp sampled
  | .accept _ => True

def State.Fits (s : State) : Prop := s.map.Fits ∧ s.map.idxLastCheck ≤ s.hist.length

theorem Op.keeps_fits {s s' : State} {op : Op} {draft : List Token} (h : s.Fits)
    (hop : op.Allowed s ∧ op.Careful s) (hcall : op.call s = .ok (s', draft)) : s'.Fits := by
  cases op with
  | begin tokens =>
    obtain ⟨rfl, -⟩ := Prod.mk.inj (Except.ok.inj hcall)
    exact ⟨Map.begin_fits h.1, le_rfl⟩
  | draft inp sampled =>
    have hgrows : s.hist <+: inp := hop.1
    rcases Map.draft_ok h.1 (h.2.trans hgrows.length_le) hop.2 with habort | ⟨r, hrun, hfits, hle⟩
    · rw [Op.call, habort] at hcall
      cases hcall
    · rw [Op.call, hrun] at hcall
      obtain ⟨rfl, -⟩ := Prod.mk.inj (Except.ok.inj hcall)
      exact ⟨hfits, hle⟩
  | accept nAccepted => exact absurd hop.1 id

theorem Op.sound_of_fits {s : State} {op : Op} (h : s.Fits) (hop : op.Allowed s ∧ op.Careful s) :
    op.Sound s := by
  cases op with
  | begin tokens =>
    refine ⟨fun h => (nomatch h), fun tokens' heq k hk => ?_⟩
    obtain rfl : tokens = tokens' := Op.begin.inj heq
    obtain ⟨k₀, hk₀, hidx, hend, hvalues⟩ := Map.mem_keys_begin h.1 hk
    obtain ⟨hplaced, hplaces⟩ := h.1.keys k₀ hk₀
    rcases hop.2 with hgrows | ⟨hshort, hshared⟩
    · refine ⟨unchanged_of_grown hgrows ?_, fun v hv hne => unchanged_of_grown hgrows ?_⟩
      · have := hplaced.1.trans h.2
        omega
      · have := (hplaces v (hvalues v hv hne).1 hne).2.1.trans h.2
        omega
    · refine ⟨hshared.mono ?_, fun v hv hne => hshared.mono ?_⟩
      · have := hend.resolve_left (not_le.mpr hshort)
        omega
      · have := (hvalues v hv hne).2.resolve_left (not_le.mpr hshort)
        omega
  | draft inp sampled =>
    have hgrows : s.hist <+: inp := hop.1
    refine ⟨fun herr => ?_, fun tokens h => (nomatch h)⟩
    rcases Map.draft_ok h.1 (h.2.trans hgrows.length_le) hop.2 with habort | ⟨r, hrun, -, -⟩
    · rw [Op.call, habort] at herr
      cases herr
    · rw [Op.call, hrun] at herr
      cases herr
  | accept nAccepted => exact absurd hop.1 id

theorem start_fits {sizeKey sizeValue minHits keyMapSize : ℕ} {keyOnly : Bool} (h : 0 < sizeKey) :
    (start sizeKey sizeValue minHits keyMapSize keyOnly h).Fits where
  left :=
    { begun := le_rfl
      table := fun _ _ => rfl
      bucket := fun _ hne => absurd rfl hne
      keys := fun _ hk => absurd hk List.not_mem_nil }
  right := le_rfl

/-- A run of careful calls reads in range, and its starts keep nothing that has changed. -/
theorem careful_run_sound (sizeKey sizeValue minHits keyMapSize : ℕ) (keyOnly : Bool)
    (h : 0 < sizeKey) (ops : List Op)
    (hops : Each (fun s op => op.Allowed s ∧ op.Careful s)
      (start sizeKey sizeValue minHits keyMapSize keyOnly h) ops) :
    Each (fun s op => op.Sound s) (start sizeKey sizeValue minHits keyMapSize keyOnly h) ops :=
  each_of_invariant (I := State.Fits) (fun _ _ => Op.sound_of_fits)
    (fun _ _ _ _ => Op.keeps_fits) (start_fits h) hops

/-! ## A replaced history that has not become shorter -/

/-- Keys of two tokens, values of one; the generation has started behind the token 7. -/
def startedOnce : State :=
  ⟨(start 2 1 1 commonNgramHashMapSize false Nat.two_pos).map.begin [7], [7]⟩

/-- The tokens 1 and 2 come again. -/
def twice : List Token := [7, 9, 1, 2, 3, 5, 6, 7, 8, 1]

theorem call_twice : ∃ s draft, (Op.draft twice 2).call startedOnce = .ok (s, draft) ∧
    s.hist = twice ∧ s.map.sizeKey = 2 ∧ s.map.sizeValue = 1 ∧ s.map.sizeLastBegin = 1 ∧
      ∀ tokens : List Token, tokens.length = 10 →
        (s.map.begin tokens).keys.map Key.keyIdx = [2] := by
  have hread : ((Op.draft twice 2).call startedOnce).toOption.map (fun r =>
      (r.1.hist, [r.1.map.sizeKey, r.1.map.sizeValue, r.1.map.sizeLastBegin, r.1.map.idxLastCheck],
        r.1.map.keys.map Key.keyIdx)) = some (twice, [2, 1, 1, 10], [2]) := by decide +kernel
  cases hcall : (Op.draft twice 2).call startedOnce with
  | error e =>
    rw [hcall] at hread
    cases hread
  | ok r =>
    rw [hcall] at hread
    obtain ⟨hhist, hread⟩ := Prod.mk.inj (Option.some.inj hread)
    obtain ⟨hsizes, hkeys⟩ := Prod.mk.inj hread
    obtain ⟨hkey, hvalue, hbegin, hcheck, -⟩ := by simpa only [List.cons.injEq] using hsizes
    refine ⟨r.1, r.2, rfl, hhist, hkey, hvalue, hbegin, fun tokens hlen => ?_⟩
    rw [Map.begin, hlen, hcheck]
    exact hkeys

/-- The history is replaced behind the last start, and the key behind it is kept. -/
theorem begin_keeps_changed_key : ¬ ∀ (sizeKey sizeValue minHits keyMapSize : ℕ) (keyOnly : Bool)
    (h : 0 < sizeKey) (ops : List Op),
    Each (fun s op => op.Allowed s) (start sizeKey sizeValue minHits keyMapSize keyOnly h) ops →
    Each (fun s op => op.Sound s) (start sizeKey sizeValue minHits keyMapSize keyOnly h) ops := by
  intro hall
  obtain ⟨s, draft, hcall, hhist, hkey, hvalue, hbegin, hkeys⟩ := call_twice
  have hrun := hall 2 1 1 commonNgramHashMapSize false (by decide)
    [.begin [7], .draft twice 2, .begin [7, 4, 4, 4, 4, 4, 4, 4, 4, 4]] ?_
  · have hsound := (((hrun.2 startedOnce [] rfl).2 s draft hcall).1).2 _ rfl
    have hmem : 2 ∈ (s.map.begin [7, 4, 4, 4, 4, 4, 4, 4, 4, 4]).keys.map Key.keyIdx := by
      rw [hkeys _ rfl]
      exact List.mem_singleton_self 2
    obtain ⟨k, hk, hidx⟩ := List.mem_map.mp hmem
    have hsame := (hsound k hk).1.2.2
    rw [hidx, hkey, hhist] at hsame
    exact absurd hsame (by decide)
  · refine ⟨⟨Nat.zero_le _, Nat.zero_le _, rfl⟩, fun s' d h => ?_⟩
    obtain ⟨rfl, -⟩ := Prod.mk.inj (Except.ok.inj h)
    refine ⟨by change [7] <+: twice; decide, fun s'' d' h' => ?_⟩
    obtain ⟨rfl, -⟩ := Prod.mk.inj (Except.ok.inj (h'.symm.trans hcall))
    refine ⟨?_, fun _ _ _ => trivial⟩
    simp only [Op.Allowed, hhist, hkey, hvalue, hbegin]
    exact ⟨Nat.zero_le _, Nat.zero_le _, rfl⟩

theorem careful_run_sound_once : Each (fun s op => op.Sound s)
    (start 2 1 1 commonNgramHashMapSize false (by decide)) [.begin [7], .draft twice 2] := by
  refine careful_run_sound 2 1 1 commonNgramHashMapSize false (by decide) _ ⟨⟨?_, ?_⟩, ?_⟩
  · exact ⟨Nat.zero_le _, Nat.zero_le _, rfl⟩
  · exact .inl (List.nil_prefix)
  · intro s' draft h
    obtain ⟨rfl, -⟩ := Prod.mk.inj (Except.ok.inj h)
    refine ⟨⟨by change [7] <+: twice; decide, fun pos _ _ _ k hk => ?_⟩, fun _ _ _ => trivial⟩
    exact absurd hk List.not_mem_nil

end NgramMap
end RocmFpx
