import RocmFpx.Tally

/-!
The n-gram cache: for every n-gram how often each token has followed it. An `unordered_map` is a list
of entries in the order it is iterated, and counting past the range of `int32_t` has no result.
-/

namespace RocmFpx
namespace NgramCache

def llamaNgramMax : ℕ := 4

def llamaTokenNull : ℤ := -1

def int32Max : ℕ := 2147483647

abbrev Token := {t : ℤ // t ≠ llamaTokenNull}

/-- `common_ngram`. -/
structure Ngram where
  tokens : Fin llamaNgramMax → ℤ
  deriving DecidableEq

/-- The n-gram of a token sequence; the places behind it are empty. -/
def Ngram.ofTokens (input : List Token) : Ngram where
  tokens i := (input[i.val]?).elim llamaTokenNull Subtype.val

abbrev Part := CountTable Token int32Max

abbrev Cache := AList fun _ : Ngram => Part

def one : Count int32Max := ⟨1, Nat.one_pos, by decide⟩

/-- One more occurrence of the token behind the n-gram. -/
def count (cache : Cache) (ngram : Ngram) (token : Token) : Option Cache :=
  match cache.lookup ngram with
  | none => some (cache.insert ngram (AList.singleton token one))
  | some part => (part.addCount token one).map fun part => cache.insert ngram part

/-- The body of the inner loop of `common_ngram_cache_update`. -/
def countAtIndex (inp : List Token) (ngramSize : ℕ) (cache : Cache) (i : ℕ) : Option Cache :=
  (inp[i]?).bind fun token =>
    count cache (Ngram.ofTokens ((inp.drop (i - ngramSize)).take ngramSize)) token

def iStart (inp : List Token) (nnew ngramSize : ℕ) : ℕ := max (inp.length - nnew) ngramSize

/-- `common_ngram_cache_update`. -/
def update (cache : Cache) (ngramMin ngramMax : ℕ) (inp : List Token) (nnew : ℕ) : Option Cache :=
  (List.range' ngramMin (ngramMax + 1 - ngramMin)).foldlM
    (fun cache ngramSize =>
      (List.range' (iStart inp nnew ngramSize) (inp.length - iStart inp nnew ngramSize)).foldlM
        (countAtIndex inp ngramSize) cache)
    cache

/-- One entry of the cache that is added. -/
def mergePart (target : Cache) (entry : (_ : Ngram) × Part) : Option Cache :=
  match target.lookup entry.1 with
  | none => some (target.insert entry.1 entry.2)
  | some part => (part.addAll entry.2).map fun part => target.insert entry.1 part

/-- `common_ngram_cache_merge`. -/
def merge (target add : Cache) : Option Cache := add.entries.foldlM mergePart target

/-- An update after each chunk, each behind the tokens `inp` so far. -/
def updateChunks (ngramMin ngramMax : ℕ) (cache : Cache) (inp : List Token) :
    List (List Token) → Option Cache
  | [] => some cache
  | chunk :: chunks =>
    (update cache ngramMin ngramMax (inp ++ chunk) chunk.length).bind fun cache =>
      updateChunks ngramMin ngramMax cache (inp ++ chunk) chunks

/-- The same map: the same n-grams with the same counts. -/
def Same (a b : Cache) : Prop :=
  ∀ ngram, Option.Rel (fun p q : Part => ∀ token, p.lookup token = q.lookup token)
    (a.lookup ngram) (b.lookup ngram)

/-! ## Counts of a cache -/

section

variable {cache a b : Cache} {r s : Option Cache} {f : Ngram × Token → ℕ}

def countAt (cache : Cache) (e : Ngram × Token) : ℕ :=
  (cache.lookup e.1).elim 0 fun part => CountTable.countAt part e.2

theorem countAt_of_lookup {ngram : Ngram} {part : Part} (h : cache.lookup ngram = some part)
    (token : Token) : countAt cache (ngram, token) = CountTable.countAt part token := by
  rw [countAt, h]
  rfl

theorem countAt_of_none {ngram : Ngram} (h : cache.lookup ngram = none) (token : Token) :
    countAt cache (ngram, token) = 0 := by
  rw [countAt, h]
  rfl

theorem countAt_le (cache : Cache) (e : Ngram × Token) : countAt cache e ≤ int32Max := by
  rw [countAt]
  cases cache.lookup e.1 with
  | none => exact Nat.zero_le _
  | some part => exact CountTable.countAt_le part e.2

theorem countAt_empty : countAt ∅ = 0 := by
  funext e
  rw [countAt, AList.lookup_empty]
  rfl

theorem countAt_insert (cache : Cache) (ngram : Ngram) (part : Part) :
    countAt (cache.insert ngram part) =
      fun e => if e.1 = ngram then CountTable.countAt part e.2 else countAt cache e := by
  funext e
  split_ifs with h
  · rw [countAt, h, AList.lookup_insert]
    rfl
  · rw [countAt, AList.lookup_insert_ne h]
    rfl

theorem same_of_countAt (hcount : countAt a = countAt b) (hmem : ∀ ngram, ngram ∈ a ↔ ngram ∈ b) :
    Same a b := by
  intro ngram
  have hsome := hmem ngram
  rw [← AList.lookup_isSome, ← AList.lookup_isSome] at hsome
  cases hp : a.lookup ngram with
  | none =>
    cases hq : b.lookup ngram with
    | none => exact .none
    | some q =>
      rw [hp, hq] at hsome
      exact absurd (hsome.mpr rfl) (by decide)
  | some p =>
    cases hq : b.lookup ngram with
    | none =>
      rw [hp, hq] at hsome
      exact absurd (hsome.mp rfl) (by decide)
    | some q =>
      refine .some fun token => CountTable.lookup_eq_of_countAt ?_
      rw [← countAt_of_lookup hp, ← countAt_of_lookup hq, hcount]

/-- Results with the same counts and the same n-grams. -/
theorem rel_same (hr : Tallied countAt int32Max r f) (hs : Tallied countAt int32Max s f)
    (hmem : ∀ a ∈ r, ∀ b ∈ s, ∀ ngram, ngram ∈ a ↔ ngram ∈ b) : Option.Rel Same r s := by
  have hsome := hr.isSome_iff.trans hs.isSome_iff.symm
  cases r with
  | none =>
    cases s with
    | none => exact .none
    | some b => exact absurd (hsome.mpr rfl) (by decide)
  | some a =>
    cases s with
    | none => exact absurd (hsome.mp rfl) (by decide)
    | some b =>
      exact .some (same_of_countAt ((hr.counts a rfl).trans (hs.counts b rfl).symm) (hmem a rfl b rfl))

theorem insert_tallied (cache : Cache) (ngram : Ngram) {p : Option Part} {g : Token → ℕ}
    (h : Tallied CountTable.countAt int32Max p g) :
    Tallied countAt int32Max (p.map fun part => cache.insert ngram part)
      (fun e => if e.1 = ngram then g e.2 else countAt cache e) := by
  constructor
  · rw [Option.isSome_map, h.isSome_iff]
    constructor
    · intro hle e
      split_ifs
      · exact hle e.2
      · exact countAt_le cache e
    · intro hle token
      have := hle (ngram, token)
      rwa [if_pos rfl] at this
  · intro c hc
    obtain ⟨part, hpart, rfl⟩ := Option.map_eq_some_iff.mp hc
    rw [countAt_insert, h.counts part hpart]

theorem some_tallied (part : Part) :
    Tallied CountTable.countAt int32Max (some part) (CountTable.countAt part) :=
  ⟨iff_of_true rfl (CountTable.countAt_le part),
    fun _ hp => congrArg CountTable.countAt (Option.some.inj hp).symm⟩

/-- Adding a part to what the n-gram has. -/
theorem add_eq {ngram : Ngram} {g : Token → ℕ} :
    (countAt cache + fun e => if e.1 = ngram then g e.2 else 0) = fun e =>
      if e.1 = ngram then countAt cache (ngram, e.2) + g e.2 else countAt cache e := by
  funext e
  rw [Pi.add_apply]
  split_ifs with h
  · rw [← h]
  · exact Nat.add_zero _

theorem mergePart_tallied (target : Cache) (entry : (_ : Ngram) × Part) :
    Tallied countAt int32Max (mergePart target entry)
      (countAt target + fun e => if e.1 = entry.1 then CountTable.countAt entry.2 e.2 else 0) := by
  rw [add_eq, mergePart]
  cases h : target.lookup entry.1 with
  | none =>
    have := insert_tallied target entry.1 (some_tallied entry.2)
    simpa only [countAt_of_none h, Nat.zero_add, Option.map_some] using this
  | some part =>
    have := insert_tallied target entry.1 (CountTable.addAll_tallied part entry.2)
    simpa only [countAt_of_lookup h, Pi.add_apply] using this

theorem count_tallied (cache : Cache) (e : Ngram × Token) :
    Tallied countAt int32Max (count cache e.1 e.2) (countAt cache + Pi.single e 1) := by
  have hsingle : (Pi.single e 1 : Ngram × Token → ℕ) =
      fun e' => if e'.1 = e.1 then (Pi.single e.2 1 : Token → ℕ) e'.2 else 0 := by
    funext e'
    simp only [Pi.single_apply, Prod.ext_iff]
    split_ifs <;> simp_all
  rw [hsingle, add_eq, count]
  cases h : cache.lookup e.1 with
  | none =>
    have hpart : CountTable.countAt (AList.singleton e.2 one : Part) = Pi.single e.2 1 := by
      rw [← AList.insert_empty, CountTable.countAt_insert]
      funext token
      rw [Function.update_apply, Pi.single_apply, CountTable.countAt_empty]
      rfl
    have := insert_tallied cache e.1 (some_tallied (AList.singleton e.2 one))
    simpa only [countAt_of_none h, Nat.zero_add, Option.map_some, hpart] using this
  | some part =>
    have := insert_tallied cache e.1 (CountTable.addCount_tallied part e.2 one)
    simpa only [countAt_of_lookup h, Pi.add_apply, one] using this

end

/-! ## Merging -/

section

variable {a b c m : Cache} {ngram : Ngram}

theorem mem_mergePart {target target' : Cache} {entry : (_ : Ngram) × Part}
    (h : mergePart target entry = some target') :
    ngram ∈ target' ↔ ngram ∈ target ∨ entry.1 = ngram := by
  rw [mergePart] at h
  cases hl : target.lookup entry.1 with
  | none =>
    rw [hl] at h
    rw [← Option.some.inj h, AList.mem_insert, or_comm, eq_comm]
  | some part =>
    rw [hl] at h
    obtain ⟨part', -, rfl⟩ := Option.map_eq_some_iff.mp h
    rw [AList.mem_insert, or_comm, eq_comm]

theorem mem_merge (h : merge a b = some m) : ngram ∈ m ↔ ngram ∈ a ∨ ngram ∈ b := by
  rw [foldlM_mem (P := fun c : Cache => ngram ∈ c) (Q := fun entry => entry.1 = ngram)
    (fun _ _ _ hstep => mem_mergePart hstep) h, AList.mem_keys (s := b), AList.keys, List.keys,
    List.mem_map]

theorem sum_entries (cache : Cache) :
    (cache.entries.map fun entry (e : Ngram × Token) =>
      if e.1 = entry.1 then CountTable.countAt entry.2 e.2 else 0).sum = countAt cache := by
  induction cache using AList.insertRec with
  | H0 => exact countAt_empty.symm
  | IH g part cache hg ih =>
    have hnone := AList.lookup_eq_none.mpr hg
    rw [AList.entries_insert_of_notMem hg, List.map_cons, List.sum_cons, ih, countAt_insert, add_comm,
      add_eq]
    funext e
    rw [countAt_of_none hnone, Nat.zero_add]

theorem merge_tallied (a b : Cache) :
    Tallied countAt int32Max (merge a b) (countAt a + countAt b) := by
  rw [← sum_entries b]
  exact Tallied.foldlM mergePart_tallied countAt_le b.entries a

theorem merge_comm (a b : Cache) : Option.Rel Same (merge a b) (merge b a) := by
  refine rel_same (merge_tallied a b) (add_comm (countAt b) (countAt a) ▸ merge_tallied b a) ?_
  intro m hm m' hm' ngram
  rw [mem_merge hm, mem_merge hm', or_comm]

theorem merge_assoc (a b c : Cache) :
    Option.Rel Same ((merge a b).bind fun ab => merge ab c) ((merge b c).bind (merge a)) := by
  refine rel_same (f := countAt a + countAt b + countAt c) ?_ ?_ ?_
  · refine (merge_tallied a b).bind (fun ab hab => ?_) fun hall e => ?_
    · rw [← (merge_tallied a b).counts ab hab]
      exact merge_tallied ab c
    · exact (Nat.le_add_right _ _).trans (hall e)
  · refine (merge_tallied b c).bind (fun bc hbc => ?_) fun hall e => ?_
    · rw [add_assoc, ← (merge_tallied b c).counts bc hbc]
      exact merge_tallied a bc
    · rw [add_assoc] at hall
      exact (Nat.le_add_left _ _).trans (hall e)
  · intro m hm m' hm' ngram
    obtain ⟨ab, hab, hm⟩ := Option.bind_eq_some_iff.mp hm
    obtain ⟨bc, hbc, hm'⟩ := Option.bind_eq_some_iff.mp hm'
    rw [mem_merge hm, mem_merge hab, mem_merge hm', mem_merge hbc, or_assoc]

end

/-! ## Updating -/

/-- The n-gram before index `i` and the token at it. -/
def window (inp : List Token) (ngramSize i : ℕ) : Option (Ngram × Token) :=
  (inp[i]?).map fun token => (Ngram.ofTokens ((inp.drop (i - ngramSize)).take ngramSize), token)

/-- What an update counts for one size. -/
def windows (inp : List Token) (nnew ngramSize : ℕ) : List (Ngram × Token) :=
  (List.range' (iStart inp nnew ngramSize) (inp.length - iStart inp nnew ngramSize)).filterMap
    (window inp ngramSize)

def allWindows (ngramMin ngramMax : ℕ) (inp : List Token) (nnew : ℕ) : List (Ngram × Token) :=
  (List.range' ngramMin (ngramMax + 1 - ngramMin)).flatMap (windows inp nnew)

def countAll (cache : Cache) (es : List (Ngram × Token)) : Option Cache :=
  es.foldlM (fun cache e => count cache e.1 e.2) cache

section

variable {cache cache' : Cache} {ngramMin ngramMax nnew ngramSize : ℕ} {inp chunk : List Token}

theorem countAll_append (cache : Cache) (es es' : List (Ngram × Token)) :
    countAll cache (es ++ es') = (countAll cache es).bind fun cache => countAll cache es' :=
  List.foldlM_append

theorem countAtIndex_eq {i : ℕ} (cache : Cache) :
    countAtIndex inp ngramSize cache i =
      (window inp ngramSize i).bind fun e => count cache e.1 e.2 := by
  rw [countAtIndex, window]
  cases inp[i]? <;> rfl

theorem foldlM_countAtIndex (is : List ℕ) (his : ∀ i ∈ is, i < inp.length) (cache : Cache) :
    is.foldlM (countAtIndex inp ngramSize) cache =
      countAll cache (is.filterMap (window inp ngramSize)) := by
  induction is generalizing cache with
  | nil => rfl
  | cons i is ih =>
    have hi := his i List.mem_cons_self
    have hwindow : ∃ e, window inp ngramSize i = some e := by
      rw [window, List.getElem?_eq_getElem hi]
      exact ⟨_, rfl⟩
    obtain ⟨e, he⟩ := hwindow
    rw [List.foldlM_cons, countAtIndex_eq, he, Option.bind_some, List.filterMap_cons_some he,
      countAll, List.foldlM_cons]
    exact Option.bind_congr fun c _ => ih (fun i hi => his i (List.mem_cons_of_mem _ hi)) c

theorem update_eq (cache : Cache) (ngramMin ngramMax : ℕ) (inp : List Token) (nnew : ℕ) :
    update cache ngramMin ngramMax inp nnew =
      countAll cache (allWindows ngramMin ngramMax inp nnew) := by
  rw [update, allWindows]
  generalize List.range' ngramMin (ngramMax + 1 - ngramMin) = sizes
  induction sizes generalizing cache with
  | nil => rfl
  | cons n sizes ih =>
    rw [List.foldlM_cons, List.flatMap_cons, countAll_append, foldlM_countAtIndex]
    · exact Option.bind_congr fun c _ => ih c
    · intro i hi
      have := List.mem_range'_1.mp hi
      omega

theorem windows_append (inp chunk : List Token) (ngramSize : ℕ) :
    windows (inp ++ chunk) (inp ++ chunk).length ngramSize =
      windows inp inp.length ngramSize ++ windows (inp ++ chunk) chunk.length ngramSize := by
  have hold : windows inp inp.length ngramSize =
      (List.range' ngramSize (inp.length - ngramSize)).filterMap
        (window (inp ++ chunk) ngramSize) := by
    rw [windows, iStart, Nat.sub_self, Nat.zero_max]
    refine List.filterMap_congr fun i hi => ?_
    have hlt := List.mem_range'_1.mp hi
    have htake : ((inp ++ chunk).drop (i - ngramSize)).take ngramSize =
        (inp.drop (i - ngramSize)).take ngramSize := by
      rw [List.drop_append_of_le_length (by omega), List.take_append_of_le_length]
      rw [List.length_drop]
      omega
    rw [window, window, List.getElem?_append_left (by omega), htake]
  have hrange : List.range' ngramSize ((inp ++ chunk).length - ngramSize) =
      List.range' ngramSize (inp.length - ngramSize) ++
        List.range' (max inp.length ngramSize) ((inp ++ chunk).length - max inp.length ngramSize) := by
    rw [List.length_append]
    rcases Nat.le_total ngramSize inp.length with hle | hle
    · have hsplit := List.range'_append_1 (s := ngramSize) (m := inp.length - ngramSize) (n := chunk.length)
      rw [Nat.max_eq_left hle, Nat.add_sub_cancel_left]
      rw [Nat.add_sub_cancel' hle] at hsplit
      rw [hsplit]
      congr 1
      omega
    · rw [Nat.max_eq_right hle, Nat.sub_eq_zero_of_le hle, List.range'_zero, List.nil_append]
  rw [hold, windows, windows, iStart, iStart, Nat.sub_self, Nat.zero_max, List.length_append,
    Nat.add_sub_cancel, ← List.length_append, hrange, List.filterMap_append]

theorem allWindows_append (ngramMin ngramMax : ℕ) (inp chunk : List Token) :
    (allWindows ngramMin ngramMax inp inp.length ++
      allWindows ngramMin ngramMax (inp ++ chunk) chunk.length).Perm
        (allWindows ngramMin ngramMax (inp ++ chunk) (inp ++ chunk).length) := by
  have hsizes : allWindows ngramMin ngramMax (inp ++ chunk) (inp ++ chunk).length =
      (List.range' ngramMin (ngramMax + 1 - ngramMin)).flatMap fun n =>
        windows inp inp.length n ++ windows (inp ++ chunk) chunk.length n :=
    List.flatMap_congr fun n _ => windows_append inp chunk n
  rw [hsizes]
  exact List.flatMap_append_perm _ _ _

/-- What the updates after the chunks count, in their order. -/
def chunkWindows (ngramMin ngramMax : ℕ) (inp : List Token) : List (List Token) → List (Ngram × Token)
  | [] => []
  | chunk :: chunks =>
    allWindows ngramMin ngramMax (inp ++ chunk) chunk.length ++
      chunkWindows ngramMin ngramMax (inp ++ chunk) chunks

theorem updateChunks_eq (chunks : List (List Token)) (cache : Cache) (inp : List Token) :
    updateChunks ngramMin ngramMax cache inp chunks =
      countAll cache (chunkWindows ngramMin ngramMax inp chunks) := by
  induction chunks generalizing cache inp with
  | nil => rfl
  | cons chunk chunks ih =>
    rw [updateChunks, chunkWindows, countAll_append, update_eq]
    exact Option.bind_congr fun c _ => ih c (inp ++ chunk)

theorem chunkWindows_perm (ngramMin ngramMax : ℕ) (chunks : List (List Token)) (inp : List Token) :
    (allWindows ngramMin ngramMax inp inp.length ++ chunkWindows ngramMin ngramMax inp chunks).Perm
      (allWindows ngramMin ngramMax (inp ++ chunks.flatten) (inp ++ chunks.flatten).length) := by
  induction chunks generalizing inp with
  | nil => rw [chunkWindows, List.flatten_nil, List.append_nil, List.append_nil]
  | cons chunk chunks ih =>
    rw [chunkWindows, ← List.append_assoc, List.flatten_cons, ← List.append_assoc]
    exact ((allWindows_append ngramMin ngramMax inp chunk).append_right _).trans (ih (inp ++ chunk))

theorem allWindows_nil (ngramMin ngramMax : ℕ) : allWindows ngramMin ngramMax [] 0 = [] := by
  rw [allWindows, List.flatMap_eq_nil_iff]
  intro n _
  rw [windows, List.length_nil, Nat.zero_sub]
  rfl

theorem countAll_tallied (cache : Cache) (es : List (Ngram × Token)) :
    Tallied countAt int32Max (countAll cache es) (fun e => countAt cache e + es.count e) := by
  have hsum : (es.map fun e => (Pi.single e 1 : Ngram × Token → ℕ)).sum = fun e => es.count e := by
    induction es with
    | nil => rfl
    | cons e es ih =>
      rw [List.map_cons, List.sum_cons, ih]
      funext e'
      rw [Pi.add_apply, List.count_cons, Pi.single_apply, Nat.add_comm]
      exact congrArg _ (if_congr (eq_comm.trans beq_iff_eq.symm) rfl rfl)
  have := Tallied.foldlM count_tallied countAt_le es cache
  rwa [hsum] at this

theorem mem_count {ngram : Ngram} {e : Ngram × Token} (h : count cache e.1 e.2 = some cache') :
    ngram ∈ cache' ↔ ngram ∈ cache ∨ e.1 = ngram := by
  rw [count] at h
  cases hl : cache.lookup e.1 with
  | none =>
    rw [hl] at h
    rw [← Option.some.inj h, AList.mem_insert, or_comm, eq_comm]
  | some part =>
    rw [hl] at h
    obtain ⟨part', -, rfl⟩ := Option.map_eq_some_iff.mp h
    rw [AList.mem_insert, or_comm, eq_comm]

theorem countAll_perm {es es' : List (Ngram × Token)} (h : es.Perm es') (cache : Cache) :
    Option.Rel Same (countAll cache es) (countAll cache es') := by
  have hcounts : (fun e => countAt cache e + es.count e) = fun e => countAt cache e + es'.count e :=
    funext fun e => by rw [h.count_eq]
  refine rel_same (countAll_tallied cache es) (hcounts ▸ countAll_tallied cache es') ?_
  intro a ha b hb ngram
  rw [foldlM_mem (P := fun c : Cache => ngram ∈ c) (Q := fun e => e.1 = ngram)
    (fun _ _ _ hstep => mem_count hstep) ha,
    foldlM_mem (P := fun c : Cache => ngram ∈ c) (Q := fun e => e.1 = ngram)
    (fun _ _ _ hstep => mem_count hstep) hb]
  exact or_congr_right (exists_congr fun e => and_congr_left fun _ => h.mem_iff)

theorem updateChunks_same (ngramMin ngramMax : ℕ) (cache : Cache) (chunks : List (List Token)) :
    Option.Rel Same (updateChunks ngramMin ngramMax cache [] chunks)
      (update cache ngramMin ngramMax chunks.flatten chunks.flatten.length) := by
  have hperm := chunkWindows_perm ngramMin ngramMax chunks []
  rw [List.length_nil, allWindows_nil, List.nil_append, List.nil_append] at hperm
  rw [updateChunks_eq, update_eq]
  exact countAll_perm hperm cache

end

/-! ## Occurrences -/

/-- How often `w` stands in `inp`. -/
def occurrences {α : Type*} [DecidableEq α] (w inp : List α) : ℕ :=
  (List.range inp.length).countP fun j => decide ((inp.drop j).take w.length = w)

section

variable {w w' inp : List Token} {token : Token} {n ngramMin ngramMax : ℕ}

theorem ofTokens_inj (hw : w.length ≤ llamaNgramMax) (hw' : w'.length ≤ llamaNgramMax)
    (h : Ngram.ofTokens w = Ngram.ofTokens w') : w = w' := by
  have hget : ∀ i < llamaNgramMax, w[i]? = w'[i]? := by
    intro i hi
    have hi := congrFun (congrArg Ngram.tokens h) ⟨i, hi⟩
    simp only [Ngram.ofTokens] at hi
    cases hx : w[i]? with
    | none =>
      cases hy : w'[i]? with
      | none => rfl
      | some y =>
        rw [hx, hy] at hi
        exact absurd hi.symm y.2
    | some x =>
      cases hy : w'[i]? with
      | none =>
        rw [hx, hy] at hi
        exact absurd hi x.2
      | some y =>
        rw [hx, hy] at hi
        exact congrArg some (Subtype.ext hi)
  refine List.ext_getElem? fun i => ?_
  by_cases hi : i < llamaNgramMax
  · exact hget i hi
  · rw [List.getElem?_eq_none (by omega), List.getElem?_eq_none (by omega)]

theorem window_eq_iff {j : ℕ} (hw : w.length ≤ llamaNgramMax) (hj : j + w.length < inp.length) :
    window inp w.length (j + w.length) = some (Ngram.ofTokens w, token) ↔
      (inp.drop j).take (w ++ [token]).length = w ++ [token] := by
  have htake : (inp.drop j).take (w ++ [token]).length =
      (inp.drop j).take w.length ++ [inp[j + w.length]] := by
    rw [List.length_append, List.length_singleton, List.take_add_one, List.getElem?_drop,
      List.getElem?_eq_getElem hj, Option.toList_some]
  have hlen : ((inp.drop j).take w.length).length = w.length := by
    rw [List.length_take, List.length_drop]
    omega
  rw [htake, window, List.getElem?_eq_getElem hj, Nat.add_sub_cancel, Option.map_some,
    Option.some.injEq, Prod.mk.injEq]
  constructor
  · rintro ⟨hgram, htoken⟩
    rw [ofTokens_inj (by rwa [hlen]) hw hgram, htoken]
  · intro h
    obtain ⟨hgram, htoken⟩ := List.append_inj h hlen
    exact ⟨congrArg _ hgram, List.singleton_inj.mp htoken⟩

theorem count_windows_of_ne (hw : w.length ≤ llamaNgramMax) (hn : n ≤ llamaNgramMax)
    (hne : n ≠ w.length) : (windows inp inp.length n).count (Ngram.ofTokens w, token) = 0 := by
  rw [List.count_eq_zero]
  intro hmem
  obtain ⟨i, hi, he⟩ := List.mem_filterMap.mp hmem
  have hrange := List.mem_range'_1.mp hi
  rw [iStart, Nat.sub_self, Nat.zero_max] at hrange
  rw [window, List.getElem?_eq_getElem (by omega), Option.map_some, Option.some.injEq,
    Prod.mk.injEq] at he
  have hlen : ((inp.drop (i - n)).take n).length = n := by
    rw [List.length_take, List.length_drop]
    omega
  have heq := ofTokens_inj (by rwa [hlen]) hw he.1
  rw [heq] at hlen
  exact hne hlen.symm

theorem count_windows (hw : w.length ≤ llamaNgramMax) :
    (windows inp inp.length w.length).count (Ngram.ofTokens w, token) =
      occurrences (w ++ [token]) inp := by
  have hrange : List.range inp.length = List.range (inp.length - w.length) ++
      (List.range (inp.length - (inp.length - w.length))).map (inp.length - w.length + ·) := by
    rw [← List.range_add, Nat.add_sub_cancel' (Nat.sub_le _ _)]
  have hlate : (List.map (inp.length - w.length + ·)
      (List.range (inp.length - (inp.length - w.length)))).countP
        (fun j => decide ((inp.drop j).take (w ++ [token]).length = w ++ [token])) = 0 := by
    rw [List.countP_eq_zero]
    intro j hj h
    obtain ⟨k, -, rfl⟩ := List.mem_map.mp hj
    have hlen := congrArg List.length (of_decide_eq_true h)
    rw [List.length_take, List.length_drop, List.length_append, List.length_singleton] at hlen
    omega
  rw [occurrences, hrange, List.countP_append, hlate, Nat.add_zero, windows, iStart, Nat.sub_self,
    Nat.zero_max, List.count_filterMap, List.range'_eq_map_range, List.countP_map]
  refine List.countP_congr fun j hj => ?_
  have hj := List.mem_range.mp hj
  rw [Function.comp_apply, beq_iff_eq, decide_eq_true_iff, Nat.add_comm w.length]
  exact window_eq_iff hw (by omega)

theorem count_allWindows (hmax : ngramMax ≤ llamaNgramMax) (hmin : ngramMin ≤ w.length)
    (hw : w.length ≤ ngramMax) :
    (allWindows ngramMin ngramMax inp inp.length).count (Ngram.ofTokens w, token) =
      occurrences (w ++ [token]) inp := by
  have hmem : w.length ∈ List.range' ngramMin (ngramMax + 1 - ngramMin) :=
    List.mem_range'_1.mpr ⟨hmin, by omega⟩
  obtain ⟨before, after, hsplit⟩ := List.append_of_mem hmem
  have hnodup : (before ++ w.length :: after).Nodup := hsplit ▸ List.nodup_range'
  have hother : ∀ n ∈ before ++ after,
      (windows inp inp.length n).count (Ngram.ofTokens w, token) = 0 := by
    intro n hn
    have hin : n ∈ List.range' ngramMin (ngramMax + 1 - ngramMin) := by
      rw [hsplit]
      exact (List.perm_middle.mem_iff).mpr (List.mem_cons_of_mem _ hn)
    have := List.mem_range'_1.mp hin
    refine count_windows_of_ne (hw.trans hmax) (by omega) ?_
    rintro rfl
    exact (List.nodup_middle.mp hnodup).notMem hn
  have hzero : ∀ sizes : List ℕ, (∀ n ∈ sizes, n ∈ before ++ after) →
      (sizes.flatMap (windows inp inp.length)).count (Ngram.ofTokens w, token) = 0 := by
    intro sizes hsizes
    rw [List.count_flatMap, List.sum_eq_zero]
    intro k hk
    obtain ⟨n, hn, rfl⟩ := List.mem_map.mp hk
    exact hother n (hsizes n hn)
  rw [allWindows, hsplit, List.flatMap_append, List.flatMap_cons, List.count_append, List.count_append,
    hzero before fun n hn => List.mem_append_left _ hn,
    hzero after fun n hn => List.mem_append_right _ hn, count_windows (hw.trans hmax), Nat.zero_add,
    Nat.add_zero]

theorem exists_of_mem_allWindows {e : Ngram × Token}
    (h : e ∈ allWindows ngramMin ngramMax inp inp.length) :
    ∃ w token, e = (Ngram.ofTokens w, token) ∧ ngramMin ≤ w.length ∧ w.length ≤ ngramMax := by
  obtain ⟨n, hn, h⟩ := List.mem_flatMap.mp h
  obtain ⟨i, hi, he⟩ := List.mem_filterMap.mp h
  have hsize := List.mem_range'_1.mp hn
  have hrange := List.mem_range'_1.mp hi
  rw [iStart, Nat.sub_self, Nat.zero_max] at hrange
  rw [window, List.getElem?_eq_getElem (by omega), Option.map_some, Option.some.injEq] at he
  have hlen : ((inp.drop (i - n)).take n).length = n := by
    rw [List.length_take, List.length_drop]
    omega
  exact ⟨_, _, he.symm, by omega, by omega⟩

theorem update_empty_tallied (hmax : ngramMax ≤ llamaNgramMax) :
    ((update ∅ ngramMin ngramMax inp inp.length).isSome = true ↔ ∀ (w : List Token) (token : Token),
      ngramMin ≤ w.length → w.length ≤ ngramMax → occurrences (w ++ [token]) inp ≤ int32Max) ∧
    ∀ cache, update ∅ ngramMin ngramMax inp inp.length = some cache →
      ∀ (w : List Token) (token : Token), ngramMin ≤ w.length → w.length ≤ ngramMax →
        countAt cache (Ngram.ofTokens w, token) = occurrences (w ++ [token]) inp := by
  have htallied := countAll_tallied ∅ (allWindows ngramMin ngramMax inp inp.length)
  rw [← update_eq, countAt_empty] at htallied
  have hzero : (fun e => (0 : Ngram × Token → ℕ) e +
      (allWindows ngramMin ngramMax inp inp.length).count e) =
        fun e => (allWindows ngramMin ngramMax inp inp.length).count e :=
    funext fun e => Nat.zero_add _
  rw [hzero] at htallied
  constructor
  · rw [htallied.isSome_iff]
    constructor
    · intro hall w token hmin hw
      rw [← count_allWindows hmax hmin hw]
      exact hall _
    · intro hall e
      by_cases he : e ∈ allWindows ngramMin ngramMax inp inp.length
      · obtain ⟨w, token, rfl, hmin, hw⟩ := exists_of_mem_allWindows he
        rw [count_allWindows hmax hmin hw]
        exact hall w token hmin hw
      · rw [List.count_eq_zero.mpr he]
        exact Nat.zero_le _
  · intro cache hrun w token hmin hw
    rw [htallied.counts cache hrun]
    exact count_allWindows hmax hmin hw

end

/-- Counting in chunks is counting the stream at once, up to the point where a count passes the range
of `int32_t`; it counts the occurrences; and merging adds the counts, in any order. -/
theorem ngramCache_counts :
    (∀ (ngramMin ngramMax : ℕ) (cache : Cache) (chunks : List (List Token)),
      Option.Rel Same (updateChunks ngramMin ngramMax cache [] chunks)
        (update cache ngramMin ngramMax chunks.flatten chunks.flatten.length)) ∧
    (∀ (ngramMin ngramMax : ℕ) (inp : List Token), ngramMax ≤ llamaNgramMax →
      ((update ∅ ngramMin ngramMax inp inp.length).isSome = true ↔
        ∀ (w : List Token) (token : Token), ngramMin ≤ w.length → w.length ≤ ngramMax →
          occurrences (w ++ [token]) inp ≤ int32Max) ∧
      ∀ cache, update ∅ ngramMin ngramMax inp inp.length = some cache →
        ∀ (w : List Token) (token : Token), ngramMin ≤ w.length → w.length ≤ ngramMax →
          countAt cache (Ngram.ofTokens w, token) = occurrences (w ++ [token]) inp) ∧
    (∀ a b : Cache, ((merge a b).isSome = true ↔ ∀ e, countAt a e + countAt b e ≤ int32Max) ∧
      ∀ m, merge a b = some m → ∀ e, countAt m e = countAt a e + countAt b e) ∧
    (∀ a b : Cache, Option.Rel Same (merge a b) (merge b a)) ∧
    ∀ a b c : Cache,
      Option.Rel Same ((merge a b).bind fun ab => merge ab c) ((merge b c).bind (merge a)) := by
  refine ⟨updateChunks_same, fun _ _ _ => update_empty_tallied, ?_, merge_comm, merge_assoc⟩
  intro a b
  exact ⟨(merge_tallied a b).isSome_iff,
    fun m hm e => congrFun ((merge_tallied a b).counts m hm) e⟩

def five : Token := ⟨5, by decide⟩

def six : Token := ⟨6, by decide⟩

/-- `5 6 5 6`: the token 6 follows the 5 twice. -/
theorem ngramCache_counts_twice :
    ∃ cache, update ∅ 1 2 [five, six, five, six] 4 = some cache ∧
      countAt cache (Ngram.ofTokens [five], six) = 2 := by
  obtain ⟨-, hcount⟩ := ngramCache_counts.2.1 1 2 [five, six, five, six] (by decide)
  have hread : (update ∅ 1 2 [five, six, five, six] 4).isSome = true := by decide
  obtain ⟨cache, hcache⟩ := Option.isSome_iff_exists.mp hread
  exact ⟨cache, hcache, (hcount cache hcache [five] six (by decide) (by decide)).trans (by decide)⟩

end NgramCache
end RocmFpx
