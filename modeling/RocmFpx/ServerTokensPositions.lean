import RocmFpx.ServerTokensState

/-!
Positions of a list of tokens (`pos_next`, `size_up_to_pos`): a chunk has its own number of
positions, and the two loops go over text tokens and whole chunks. The second tests its bound only
after a step, so it never stays in front of the first item. Appending a list of tokens pushes its
null tokens one by one, and they are refused.
-/

namespace RocmFpx
namespace ServerTokens

variable {C : Type} (api : Mtmd C) (s : ServerTokens C)

/-- A round of either loop. -/
def advance (idx : ℕ) (pos : ℤ) : ℕ × ℤ :=
  match s.mapIdxToMedia.lookup idx with
  | some chunk => (idx + api.getNTokens chunk, pos + api.getNPos chunk)
  | none => (idx + 1, pos + 1)

def posNextFrom (nTokens : ℕ) : ℕ → ℕ → ℤ → Option ℤ
  | 0, idx, pos => if idx < nTokens then none else some pos
  | fuel + 1, idx, pos =>
    if idx < nTokens then
      posNextFrom nTokens fuel (advance api s idx pos).1 (advance api s idx pos).2
    else some pos

/-- There is no result when the assertion fails or the loop does not end. -/
def posNext (nTokens : ℤ) : Option ℤ :=
  if s.hasMtmd then
    if nTokens < 0 then
      some (s.tokens.length + (s.mapIdxToMedia.map fun m => api.getNPos m.2 - api.getNTokens m.2).sum)
    else if nTokens ≤ s.tokens.length then posNextFrom api s nTokens.toNat nTokens.toNat 0 0
    else none
  else if nTokens < 0 then some s.tokens.length
  else some nTokens

def sizeUpToFrom (maxPos : ℤ) : ℕ → ℕ → ℤ → Option ℕ
  | 0, idx, _ => if idx < s.tokens.length then none else some idx
  | fuel + 1, idx, pos =>
    if idx < s.tokens.length then
      if maxPos ≤ (advance api s idx pos).2 then some (advance api s idx pos).1
      else sizeUpToFrom maxPos fuel (advance api s idx pos).1 (advance api s idx pos).2
    else some idx

/-- `(size_t) max_pos` -/
def toSize (maxPos : ℤ) : ℕ := if maxPos < 0 then (2 ^ 64 + maxPos).toNat else maxPos.toNat

def sizeUpToPos (maxPos : ℤ) : Option ℕ :=
  if s.hasMtmd then sizeUpToFrom api s maxPos s.tokens.length 0 0
  else some (min (toSize maxPos) s.tokens.length)

/-! ## Positions of items -/

variable {api s} {items p q r : List (Item C)}

def Item.nPos (api : Mtmd C) : Item C → ℤ
  | .text _ => 1
  | .media chunk => api.getNPos chunk

def span (api : Mtmd C) (items : List (Item C)) : ℤ := (items.map (Item.nPos api)).sum

@[simp] theorem span_nil : span api [] = 0 := rfl

@[simp] theorem span_cons (item : Item C) (items : List (Item C)) :
    span api (item :: items) = item.nPos api + span api items := by
  rw [span, List.map_cons, List.sum_cons, ← span]

theorem span_append (p r : List (Item C)) : span api (p ++ r) = span api p + span api r := by
  rw [span, List.map_append, List.sum_append, ← span, ← span]

/-- Every item has a position. -/
def Placed (api : Mtmd C) (items : List (Item C)) : Prop := ∀ item ∈ items, 1 ≤ item.nPos api

theorem Placed.left (h : Placed api (p ++ r)) : Placed api p :=
  fun item hm => h item (List.mem_append_left r hm)

theorem Placed.right (h : Placed api (p ++ r)) : Placed api r :=
  fun item hm => h item (List.mem_append_right p hm)

theorem Placed.le_span (h : Placed api items) : (items.length : ℤ) ≤ span api items := by
  induction items with
  | nil => exact le_rfl
  | cons item items ih =>
    obtain ⟨hitem, hitems⟩ := List.forall_mem_cons.mp h
    have hle := ih hitems
    rw [span_cons, List.length_cons]
    push_cast
    omega

theorem Placed.span_pos (h : Placed api items) (hne : items ≠ []) : 0 < span api items := by
  have hlen := List.length_pos_iff.mpr hne
  have hle := h.le_span
  omega

theorem mem_keysFrom (api : Mtmd C) {chunk : C} (h : Item.media chunk ∈ items) (i : ℕ) :
    ∃ k, (k, chunk) ∈ keysFrom api i items := by
  induction items generalizing i with
  | nil => exact absurd h List.not_mem_nil
  | cons item items ih =>
    cases item with
    | text tok =>
      have htail : Item.media chunk ∈ items := (List.mem_cons.mp h).resolve_left nofun
      exact ih htail (i + 1)
    | media c =>
      rcases List.mem_cons.mp h with heq | htail
      · obtain rfl : chunk = c := Item.media.inj heq
        exact ⟨i, List.mem_cons_self⟩
      · obtain ⟨k, hk⟩ := ih htail (i + api.getNTokens c)
        exact ⟨k, List.mem_cons_of_mem _ hk⟩

theorem Tiles.placed (h : Tiles api s items) (hpos : ∀ m ∈ s.mapIdxToMedia, 1 ≤ api.getNPos m.2) :
    Placed api items := by
  intro item hm
  cases item with
  | text tok => exact le_rfl
  | media chunk =>
    obtain ⟨k, hk⟩ := mem_keysFrom api hm 0
    rw [← h.media_eq] at hk
    exact hpos (k, chunk) hk

/-! ## The loops -/

theorem Tiles.advance (h : Tiles api s (p ++ item :: r)) (pos : ℤ) :
    ServerTokens.advance api s (flat api p).length pos =
      ((flat api (p ++ [item])).length, pos + item.nPos api) := by
  have hlookup : (keysFrom api 0 (p ++ item :: r)).lookup (flat api p).length = _ :=
    lookup_keysFrom (Nat.zero_add _) (fun x hx => h.valid x (List.mem_append_left _ hx)) (item :: r)
  rw [← h.media_eq] at hlookup
  rw [ServerTokens.advance, hlookup, flat_append, List.length_append]
  cases item with
  | media chunk =>
    rw [keysFrom, List.lookup_cons_self, flat_media, flat_nil, List.append_nil,
      List.length_replicate, Item.nPos]
  | text tok =>
    have hnone : (keysFrom api (flat api p).length (.text tok :: r)).lookup (flat api p).length =
        none := by
      refine List.lookup_eq_none_iff.mpr fun m hm => ?_
      have hle : (flat api p).length + 1 ≤ m.1 := le_of_mem_keysFrom hm
      simp only [bne_iff_ne]
      omega
    rw [hnone, flat_text, flat_nil, List.length_singleton, Item.nPos]

theorem Tiles.posNextFrom (h : Tiles api s (p ++ (q ++ r))) {n fuel : ℕ}
    (hn : (flat api (p ++ q)).length = n) (hfuel : q.length ≤ fuel) :
    ServerTokens.posNextFrom api s n fuel (flat api p).length (span api p) =
      some (span api (p ++ q)) := by
  induction q generalizing p fuel with
  | nil =>
    rw [List.append_nil] at hn ⊢
    cases fuel <;> rw [ServerTokens.posNextFrom, if_neg (by omega)]
  | cons item q ih =>
    cases fuel with
    | zero => exact absurd hfuel (Nat.not_succ_le_zero _)
    | succ fuel =>
      have hassoc : p ++ item :: q = p ++ [item] ++ q := by rw [List.append_assoc]; rfl
      have hpos : 0 < (flat api (item :: q)).length :=
        flat_length_pos (fun x hx => h.valid x
          (List.mem_append_right p (List.mem_append_left r hx))) (List.cons_ne_nil item q)
      have hlt : (flat api p).length < n := by
        rw [← hn, flat_append, List.length_append]
        omega
      rw [ServerTokens.posNextFrom, if_pos hlt, Tiles.advance h, hassoc]
      have hspan : span api p + item.nPos api = span api (p ++ [item]) := by
        rw [span_append, span_cons, span_nil, Int.add_zero]
      dsimp only
      rw [hspan]
      refine ih ?_ ?_ (Nat.le_of_succ_le_succ hfuel)
      · rwa [List.append_assoc]
      · rwa [← hassoc]

theorem span_singleton (item : Item C) : span api [item] = item.nPos api := Int.add_zero _

/-- The loop stops behind the first item that reaches the bound, or at the end. -/
structure Stops (api : Mtmd C) (maxPos : ℤ) (p q t : List (Item C)) : Prop where
  moved : q ≠ []
  reached : t = [] ∨ maxPos ≤ span api (p ++ q)
  first : ∀ a b, q = a ++ b → a ≠ [] → b ≠ [] → span api (p ++ a) < maxPos

theorem not_split_singleton {item : Item C} {a b : List (Item C)} (h : [item] = a ++ b)
    (ha : a ≠ []) (hb : b ≠ []) : False := by
  have hlen := congrArg List.length h
  have hla := List.length_pos_iff.mpr ha
  have hlb := List.length_pos_iff.mpr hb
  rw [List.length_append, List.length_singleton] at hlen
  omega

theorem Tiles.sizeUpToFrom (h : Tiles api s (p ++ r)) (hne : r ≠ []) (maxPos : ℤ) {fuel : ℕ}
    (hfuel : r.length ≤ fuel) :
    ∃ q t, r = q ++ t ∧ Stops api maxPos p q t ∧
      ServerTokens.sizeUpToFrom api s maxPos fuel (flat api p).length (span api p) =
        some (flat api (p ++ q)).length := by
  induction r generalizing p fuel with
  | nil => exact absurd rfl hne
  | cons item r ih =>
    cases fuel with
    | zero => exact absurd hfuel (Nat.not_succ_le_zero _)
    | succ fuel =>
      have hpos : 0 < (flat api (item :: r)).length :=
        flat_length_pos (fun x hx => h.valid x (List.mem_append_right p hx)) (List.cons_ne_nil item r)
      have hlt : (flat api p).length < s.tokens.length := by
        rw [h.tokens_eq, flat_append, List.length_append]
        omega
      have hspan : span api p + item.nPos api = span api (p ++ [item]) := by
        rw [span_append, span_singleton]
      rw [ServerTokens.sizeUpToFrom, if_pos hlt, Tiles.advance h]
      dsimp only
      rw [hspan]
      by_cases hreach : maxPos ≤ span api (p ++ [item])
      · rw [if_pos hreach]
        refine ⟨[item], r, rfl, ⟨List.cons_ne_nil item [], .inr hreach, ?_⟩, rfl⟩
        exact fun a b hab ha hb => (not_split_singleton hab ha hb).elim
      · rw [if_neg hreach]
        by_cases hlast : r = []
        · subst hlast
          refine ⟨[item], [], rfl, ⟨List.cons_ne_nil item [], .inl rfl, ?_⟩, ?_⟩
          · exact fun a b hab ha hb => (not_split_singleton hab ha hb).elim
          · have hend : ¬ (flat api (p ++ [item])).length < s.tokens.length := by
              rw [h.tokens_eq]
              exact lt_irrefl _
            cases fuel <;> rw [ServerTokens.sizeUpToFrom, if_neg hend]
        · have htiles : Tiles api s (p ++ [item] ++ r) := by
            rw [List.append_assoc]
            exact h
          obtain ⟨q, t, rfl, hstops, hrun⟩ := ih htiles hlast (Nat.le_of_succ_le_succ hfuel)
          have hassoc : p ++ [item] ++ q = p ++ item :: q := by rw [List.append_assoc]; rfl
          refine ⟨item :: q, t, rfl, ⟨List.cons_ne_nil item q, ?_, ?_⟩, hassoc ▸ hrun⟩
          · exact hstops.reached.imp_right fun hle => hassoc ▸ hle
          · intro a b hab ha hb
            cases a with
            | nil => exact absurd rfl ha
            | cons x a =>
              obtain ⟨rfl, rfl⟩ := List.cons.inj hab
              by_cases hnil : a = []
              · subst hnil
                exact lt_of_not_ge hreach
              · have hfirst := hstops.first a b rfl hnil hb
                rwa [List.append_assoc] at hfirst

/-! ## The functions -/

/-- No chunk is cut at the index. -/
def Boundary (api : Mtmd C) (s : ServerTokens C) (n : ℕ) : Prop :=
  n ≤ s.tokens.length ∧ ¬ Inside api s n

theorem Tiles.append_nil (h : Tiles api s items) : Tiles api s (items ++ []) :=
  (List.append_nil items).symm ▸ h

theorem Tiles.boundary (h : Tiles api s (p ++ r)) : Boundary api s (flat api p).length := by
  refine ⟨?_, h.not_inside rfl⟩
  rw [h.tokens_eq, flat_append, List.length_append]
  exact Nat.le_add_right _ _

theorem Tiles.split (h : Tiles api s items) {n : ℕ} (hn : Boundary api s n) :
    ∃ p r, items = p ++ r ∧ (flat api p).length = n := by
  obtain ⟨hle, hin⟩ := hn
  obtain hcut | ⟨p, chunk, r, rfl, hlo, hhi⟩ := cut_cases items (h.tokens_eq ▸ hle)
  · exact hcut
  · exact absurd (h.inside hlo hhi) hin

theorem keysFrom_sum (api : Mtmd C) (i : ℕ) (items : List (Item C)) :
    (flat api items).length +
      ((keysFrom api i items).map fun m => api.getNPos m.2 - api.getNTokens m.2).sum =
        span api items := by
  induction items generalizing i with
  | nil => rfl
  | cons item items ih =>
    cases item with
    | text tok =>
      have htail := ih (i + 1)
      rw [flat_text, keysFrom, span_cons, Item.nPos, List.length_cons]
      push_cast
      omega
    | media chunk =>
      have htail := ih (i + api.getNTokens chunk)
      rw [flat_media, keysFrom, span_cons, Item.nPos, List.length_append, List.length_replicate,
        List.map_cons, List.sum_cons]
      push_cast
      omega

theorem span_texts (h : keysFrom api 0 items = []) : span api items = (flat api items).length := by
  have hsum := keysFrom_sum api 0 items
  rw [h] at hsum
  exact hsum.symm.trans (Int.add_zero _)

theorem Tiles.texts (h : Tiles api s (p ++ r)) (hnil : s.mapIdxToMedia = []) :
    span api p = (flat api p).length := by
  rw [h.media_eq, keysFrom_append] at hnil
  exact span_texts (List.append_eq_nil_iff.mp hnil).1

theorem Tiles.length_le (h : Tiles api s (p ++ r)) : p.length ≤ (flat api p).length := by
  have hvalid : ∀ item ∈ p, item.Valid api := fun item hm => h.valid item (List.mem_append_left _ hm)
  clear h
  induction p with
  | nil => exact le_rfl
  | cons item p ih =>
    obtain ⟨hitem, hp⟩ := List.forall_mem_cons.mp hvalid
    have hle := ih hp
    cases item with
    | text tok => exact Nat.succ_le_succ hle
    | media chunk =>
      have hpos := hitem.2
      rw [flat_media, List.length_append, List.length_replicate, List.length_cons]
      omega

theorem Tiles.posNext (h : Tiles api s (p ++ r)) :
    ServerTokens.posNext api s (flat api p).length = some (span api p) := by
  have hneg : ¬ ((flat api p).length : ℤ) < 0 := Int.not_lt.mpr (Int.natCast_nonneg _)
  have hle : ((flat api p).length : ℤ) ≤ s.tokens.length := Int.ofNat_le.mpr h.boundary.1
  rw [ServerTokens.posNext]
  by_cases hmtmd : s.hasMtmd
  · have hrun := Tiles.posNextFrom (p := []) h rfl h.length_le
    rw [if_pos hmtmd, if_neg hneg, if_pos hle, Int.toNat_natCast]
    exact hrun
  · rw [if_neg hmtmd, if_neg hneg, h.texts (h.admitted.resolve_right hmtmd)]

theorem Tiles.posNext_neg (h : Tiles api s items) {n : ℤ} (hneg : n < 0) :
    ServerTokens.posNext api s n = some (span api items) := by
  have hsum := keysFrom_sum api 0 items
  rw [← h.media_eq, ← h.tokens_eq] at hsum
  rw [ServerTokens.posNext, if_pos hneg, if_pos hneg, hsum]
  split_ifs with hmtmd
  · rfl
  · rw [h.append_nil.texts (h.admitted.resolve_right hmtmd), h.tokens_eq]

theorem Tiles.posNext_last (h : Tiles api s items) :
    ServerTokens.posNext api s (-1) = some (span api items) := h.posNext_neg (by decide)

theorem Tiles.sizeUpToPos (h : Tiles api s items) (hmtmd : s.hasMtmd) (hne : items ≠ [])
    (maxPos : ℤ) :
    ∃ q t, items = q ++ t ∧ Stops api maxPos [] q t ∧
      ServerTokens.sizeUpToPos api s maxPos = some (flat api q).length := by
  have hfuel : items.length ≤ s.tokens.length := by
    rw [h.tokens_eq]
    exact h.append_nil.length_le
  obtain ⟨q, t, hsplit, hstops, hrun⟩ := Tiles.sizeUpToFrom (p := []) h hne maxPos hfuel
  refine ⟨q, t, hsplit, hstops, ?_⟩
  rw [ServerTokens.sizeUpToPos, if_pos hmtmd]
  exact hrun

theorem sizeUpToPos_nil (hnil : s.tokens = []) {x : ℤ} : sizeUpToPos api s x = some 0 := by
  rw [sizeUpToPos, hnil, List.length_nil, Nat.min_zero, sizeUpToFrom, hnil, List.length_nil,
    if_neg (Nat.lt_irrefl 0), ite_self]

theorem sizeUpToPos_plain (hmtmd : ¬ s.hasMtmd) {x : ℤ} (hx : 0 ≤ x) :
    sizeUpToPos api s x = some (min x.toNat s.tokens.length) := by
  rw [sizeUpToPos, if_neg hmtmd, toSize, if_neg (Int.not_lt.mpr hx)]

theorem Tiles.items_ne_nil (h : Tiles api s items) (hne : s.tokens ≠ []) : items ≠ [] := by
  intro hnil
  rw [h.tokens_eq, hnil] at hne
  exact hne rfl

/-- The search does not stay in front of the first item. -/
theorem Tiles.sizeUpToPos_pos (h : Tiles api s items) (hmtmd : s.hasMtmd) (hne : s.tokens ≠ [])
    (x : ℤ) : ∃ k, ServerTokens.sizeUpToPos api s x = some k ∧ 0 < k := by
  obtain ⟨q, t, rfl, hstops, hrun⟩ := h.sizeUpToPos hmtmd (h.items_ne_nil hne) x
  refine ⟨(flat api q).length, hrun, flat_length_pos (fun item hm => ?_) hstops.moved⟩
  exact h.valid item (List.mem_append_left t hm)

theorem Stops.le_of_reaches {maxPos : ℤ} {t : List (Item C)} (h : Stops api maxPos [] q t)
    (hsplit : p ++ r = q ++ t) (hne : p ≠ []) (hreach : maxPos ≤ span api p) : ∃ a, p = q ++ a := by
  rcases List.append_eq_append_iff.mp hsplit with ⟨a, hq, -⟩ | ⟨a, hp, -⟩
  · by_cases hnil : a = []
    · rw [hnil, List.append_nil] at hq
      exact ⟨[], by rw [hq, List.append_nil]⟩
    · exact absurd hreach (not_le_of_gt (h.first p a hq hne hnil))
  · exact ⟨a, hp⟩

theorem Stops.reaches {maxPos : ℤ} {t : List (Item C)} (h : Stops api maxPos [] q t)
    (hreach : maxPos ≤ span api (q ++ t)) : maxPos ≤ span api q := by
  rcases h.reached with rfl | hle
  · rwa [List.append_nil] at hreach
  · exact hle

/-- A bound the search handles: it goes over the first item even to reach 0. -/
def PastStart (s : ServerTokens C) (x : ℤ) : Prop := s.hasMtmd = false ∨ s.tokens = [] ∨ x ≠ 0

theorem Tiles.sizeUpToPos_span (h : Tiles api s (p ++ r)) (hplaced : Placed api (p ++ r)) :
    ServerTokens.sizeUpToPos api s (span api p) = some (flat api p).length ↔
      PastStart s (flat api p).length := by
  have hle := h.boundary.1
  by_cases hmtmd : s.hasMtmd
  swap
  · have hspan := h.texts (h.admitted.resolve_right hmtmd)
    rw [hspan, sizeUpToPos_plain hmtmd (Int.natCast_nonneg _), Int.toNat_natCast, min_eq_left hle]
    exact iff_of_true rfl (.inl (eq_false_of_ne_true hmtmd))
  by_cases hnil : s.tokens = []
  · rw [hnil, List.length_nil] at hle
    rw [sizeUpToPos_nil hnil, Nat.le_zero.mp hle]
    exact iff_of_true rfl (.inr (.inl hnil))
  have hne := h.items_ne_nil hnil
  by_cases hp : p = []
  · subst hp
    obtain ⟨k, hk, hpos⟩ := h.sizeUpToPos_pos hmtmd hnil (span api [])
    rw [hk]
    refine iff_of_false (fun heq => hpos.ne' (Option.some.inj heq)) ?_
    rintro (hfalse | htokens | hzero)
    · exact absurd hmtmd (ne_true_of_eq_false hfalse)
    · exact hnil htokens
    · exact hzero rfl
  · have hpos := flat_length_pos (fun item hm => h.valid item (List.mem_append_left r hm)) hp
    obtain ⟨q, t, hsplit, hstops, hrun⟩ := h.sizeUpToPos hmtmd hne (span api p)
    obtain ⟨a, rfl⟩ := hstops.le_of_reaches hsplit hp le_rfl
    have hreach : span api (q ++ a) ≤ span api q := by
      refine hstops.reaches ?_
      rw [← hsplit, span_append (q ++ a) r]
      have hr := hplaced.right.le_span
      omega
    have ha : a = [] := by
      by_contra hne'
      have hspan := hplaced.left.right.span_pos hne'
      rw [span_append] at hreach
      omega
    subst ha
    rw [List.append_nil] at hrun hpos ⊢
    exact iff_of_true hrun (.inr (.inr (by omega)))

/-- A boundary index whose position is not before `x`. -/
def Reaches (api : Mtmd C) (s : ServerTokens C) (x : ℤ) (n : ℕ) : Prop :=
  Boundary api s n ∧ ∃ y ∈ posNext api s n, x ≤ y

theorem Tiles.reaches_iff (h : Tiles api s (p ++ r)) {x : ℤ} :
    Reaches api s x (flat api p).length ↔ x ≤ span api p := by
  rw [Reaches, h.posNext]
  refine ⟨fun ⟨_, y, hy, hle⟩ => ?_, fun hle => ⟨h.boundary, _, rfl, hle⟩⟩
  rwa [Option.some.inj hy]

theorem Tiles.isLeast_reaches {t : List (Item C)} (h : Tiles api s (q ++ t)) {x : ℤ}
    (hx : 0 < x) (hle : x ≤ span api (q ++ t)) (hstops : Stops api x [] q t) :
    IsLeast (fun n => Reaches api s x n) (flat api q).length := by
  refine ⟨h.reaches_iff.mpr (hstops.reaches hle), fun n hn => ?_⟩
  obtain ⟨p, r, hsplit, rfl⟩ := h.split hn.1
  rw [hsplit] at h
  have hreach := h.reaches_iff.mp hn
  have hp : p ≠ [] := by
    rintro rfl
    exact absurd hx (Int.not_lt.mpr hreach)
  obtain ⟨a, rfl⟩ := hstops.le_of_reaches hsplit.symm hp hreach
  rw [flat_append, List.length_append]
  exact Nat.le_add_right _ _

theorem Tiles.isLeast_texts (h : Tiles api s items) (hnil : s.mapIdxToMedia = []) {x : ℤ}
    (hx : 0 ≤ x) (hle : x ≤ span api items) : IsLeast (fun n => Reaches api s x n) x.toNat := by
  have hsize := h.append_nil.texts hnil
  have hbound : Boundary api s x.toNat := by
    refine ⟨?_, ?_⟩
    · rw [h.tokens_eq]
      omega
    · rintro ⟨m, hm, -⟩
      rw [hnil] at hm
      exact absurd hm List.not_mem_nil
  refine ⟨?_, fun n hn => ?_⟩
  · obtain ⟨p, r, rfl, hlen⟩ := h.split hbound
    rw [← hlen]
    refine h.reaches_iff.mpr ?_
    rw [h.texts hnil, hlen, Int.toNat_of_nonneg hx]
  · obtain ⟨p, r, rfl, rfl⟩ := h.split hn.1
    have hreach := h.reaches_iff.mp hn
    rw [h.texts hnil] at hreach
    exact Int.toNat_le.mpr hreach

theorem Tiles.sizeUpToPos_least (h : Tiles api s items) {x : ℤ} (hx : 0 ≤ x)
    (hle : x ≤ span api items) :
    (∃ k ∈ ServerTokens.sizeUpToPos api s x, IsLeast (fun n => Reaches api s x n) k) ↔
      PastStart s x := by
  by_cases hmtmd : s.hasMtmd
  swap
  · have hnil := h.admitted.resolve_right hmtmd
    have hsize := h.append_nil.texts hnil
    have hmin : min x.toNat s.tokens.length = x.toNat := by
      rw [h.tokens_eq]
      omega
    refine iff_of_true ⟨x.toNat, ?_, h.isLeast_texts hnil hx hle⟩ (.inl (eq_false_of_ne_true hmtmd))
    rw [sizeUpToPos_plain hmtmd hx, hmin]
    rfl
  by_cases htokens : s.tokens = []
  · refine iff_of_true ⟨0, sizeUpToPos_nil htokens, ?_, fun n _ => Nat.zero_le n⟩ (.inr (.inl htokens))
    have hzero : (flat api items).length = 0 := by rw [← h.tokens_eq, htokens, List.length_nil]
    have hreach := h.append_nil.reaches_iff.mpr hle
    rwa [hzero] at hreach
  by_cases hzero : x = 0
  · subst hzero
    obtain ⟨k, hk, hpos⟩ := h.sizeUpToPos_pos hmtmd htokens 0
    refine iff_of_false ?_ ?_
    · rintro ⟨k', hk', -, hleast⟩
      have hstart := Tiles.reaches_iff (p := []) (r := items) h (x := 0)
      have hle0 : k' ≤ 0 := hleast (hstart.mpr le_rfl)
      rw [Option.mem_unique hk' hk] at hle0
      omega
    · rintro (hfalse | hnil | hne)
      · exact absurd hmtmd (ne_true_of_eq_false hfalse)
      · exact htokens hnil
      · exact hne rfl
  · obtain ⟨q, t, rfl, hstops, hrun⟩ := h.sizeUpToPos hmtmd (h.items_ne_nil htokens) x
    refine iff_of_true ⟨_, hrun, ?_⟩ (.inr (.inr hzero))
    exact h.isLeast_reaches (lt_of_le_of_ne hx (Ne.symm hzero)) hle hstops

/-! ## Without media -/

/-- The list with media enabled or not. -/
def withMtmd (s : ServerTokens C) (hasMtmd : Bool) : ServerTokens C := { s with hasMtmd := hasMtmd }

theorem Tiles.withMtmd (h : Tiles api s items) (hnil : s.mapIdxToMedia = []) (b : Bool) :
    Tiles api (s.withMtmd b) items where
  tokens_eq := h.tokens_eq
  media_eq := h.media_eq
  valid := h.valid
  admitted := .inl hnil

theorem boundary_of_texts (hnil : s.mapIdxToMedia = []) {n : ℕ} (hn : n ≤ s.tokens.length) :
    Boundary api s n := by
  refine ⟨hn, ?_⟩
  rintro ⟨m, hm, -⟩
  rw [hnil] at hm
  exact absurd hm List.not_mem_nil

theorem Tiles.posNext_texts (h : Tiles api s items) (hnil : s.mapIdxToMedia = []) {n : ℕ}
    (hn : n ≤ s.tokens.length) : ServerTokens.posNext api s n = some (n : ℤ) := by
  obtain ⟨p, r, rfl, rfl⟩ := h.split (boundary_of_texts hnil hn)
  rw [h.posNext, h.texts hnil]

theorem Tiles.posNext_withMtmd (h : Tiles api s items) (hnil : s.mapIdxToMedia = []) {n : ℤ}
    (hn : n ≤ s.tokens.length) :
    ServerTokens.posNext api (s.withMtmd true) n = ServerTokens.posNext api (s.withMtmd false) n := by
  by_cases hneg : n < 0
  · rw [(h.withMtmd hnil true).posNext_neg hneg, (h.withMtmd hnil false).posNext_neg hneg]
  · obtain ⟨k, rfl⟩ := Int.eq_ofNat_of_zero_le (Int.not_lt.mp hneg)
    have hk : k ≤ s.tokens.length := Int.ofNat_le.mp hn
    rw [(h.withMtmd hnil true).posNext_texts hnil hk, (h.withMtmd hnil false).posNext_texts hnil hk]

theorem Tiles.nPos_text (h : Tiles api s items) (hnil : s.mapIdxToMedia = []) {item : Item C}
    (hm : item ∈ items) : item.nPos api = 1 := by
  cases item with
  | text tok => rfl
  | media chunk =>
    obtain ⟨k, hk⟩ := mem_keysFrom api hm 0
    rw [← h.media_eq, hnil] at hk
    exact absurd hk List.not_mem_nil

theorem Tiles.sizeUpToPos_texts (h : Tiles api s items) (hnil : s.mapIdxToMedia = [])
    (hmtmd : s.hasMtmd) {x : ℤ} (hx : 0 ≤ x) :
    ServerTokens.sizeUpToPos api s x = some (min x.toNat s.tokens.length) ↔
      s.tokens = [] ∨ x ≠ 0 := by
  by_cases htokens : s.tokens = []
  · rw [sizeUpToPos_nil htokens, htokens, List.length_nil, Nat.min_zero]
    exact iff_of_true rfl (.inl rfl)
  by_cases hzero : x = 0
  · subst hzero
    obtain ⟨k, hk, hpos⟩ := h.sizeUpToPos_pos hmtmd htokens 0
    rw [hk, Int.toNat_zero, Nat.zero_min]
    refine iff_of_false (fun heq => hpos.ne' (Option.some.inj heq)) ?_
    exact fun hor => hor.elim htokens fun hne => hne rfl
  · obtain ⟨q, t, rfl, hstops, hrun⟩ := h.sizeUpToPos hmtmd (h.items_ne_nil htokens) x
    have hspan := h.texts hnil
    have hbefore : span api q ≤ x := by
      obtain hq | ⟨a, item, rfl⟩ := List.eq_nil_or_concat' q
      · exact absurd hq hstops.moved
      · have hone : item.nPos api = 1 := h.nPos_text hnil
          (List.mem_append_left t (List.mem_append_right a (List.mem_singleton_self item)))
        rw [span_append, span_singleton, hone]
        by_cases ha : a = []
        · rw [ha, span_nil]
          omega
        · have hfirst := hstops.first a [item] rfl ha (List.cons_ne_nil item [])
          rw [List.nil_append] at hfirst
          omega
    have hsize : s.tokens.length = (flat api q).length + (flat api t).length := by
      rw [h.tokens_eq, flat_append, List.length_append]
    have hk : (flat api q).length = min x.toNat s.tokens.length := by
      rcases hstops.reached with rfl | hle
      · rw [flat_nil, List.length_nil] at hsize
        omega
      · rw [List.nil_append] at hle
        omega
    rw [hrun, hk]
    exact iff_of_true rfl (.inr hzero)

/-- The two functions are inverse at chunk boundaries, but for the start of a list with media
enabled, where the search returns the end of the first item. -/
theorem positions_inverse (hs : WellFormed api s)
    (hpos : ∀ m ∈ s.mapIdxToMedia, 1 ≤ api.getNPos m.2) :
    posNext api s (-1) = posNext api s s.tokens.length ∧
      (∀ n, Boundary api s n →
        ((posNext api s n).bind (sizeUpToPos api s) = some n ↔ PastStart s n)) ∧
      (∀ x, 0 ≤ x → (∃ y ∈ posNext api s (-1), x ≤ y) →
        ((∃ k ∈ sizeUpToPos api s x, IsLeast (fun n => Reaches api s x n) k) ↔ PastStart s x)) ∧
      (s.mapIdxToMedia = [] →
        (∀ n : ℤ, n ≤ s.tokens.length →
          posNext api (s.withMtmd true) n = posNext api (s.withMtmd false) n) ∧
        ∀ x, 0 ≤ x → (sizeUpToPos api (s.withMtmd true) x = sizeUpToPos api (s.withMtmd false) x ↔
          s.tokens = [] ∨ x ≠ 0)) := by
  obtain ⟨items, h⟩ := hs
  have hplaced := h.placed hpos
  refine ⟨?_, fun n hn => ?_, fun x hx hlast => ?_, fun hnil => ⟨fun n hn => ?_, fun x hx => ?_⟩⟩
  · rw [h.posNext_last, h.tokens_eq]
    exact (Tiles.posNext h.append_nil).symm
  · obtain ⟨p, r, rfl, rfl⟩ := h.split hn
    rw [h.posNext]
    exact h.sizeUpToPos_span hplaced
  · obtain ⟨y, hy, hle⟩ := hlast
    rw [h.posNext_last] at hy
    exact h.sizeUpToPos_least hx (Option.some.inj hy ▸ hle)
  · exact h.posNext_withMtmd hnil hn
  · have hplain : sizeUpToPos api (s.withMtmd false) x = _ :=
      sizeUpToPos_plain Bool.false_ne_true hx
    rw [hplain]
    exact (h.withMtmd hnil true).sizeUpToPos_texts hnil rfl hx

/-- A text token and an image of two tokens and one position. -/
def captioned : ServerTokens PlainChunk := ⟨true, [(1, image 2)], [7, llamaTokenNull, llamaTokenNull]⟩

theorem captioned_tiles : Tiles plainMtmd captioned [.text 7, .media (image 2)] where
  tokens_eq := rfl
  media_eq := rfl
  valid := by
    rintro item (_ | ⟨_, _ | ⟨_, h⟩⟩)
    · exact (by decide : (7 : LlamaToken) ≠ llamaTokenNull)
    · exact ⟨by decide, by decide⟩
    · exact nomatch h
  admitted := .inr rfl

theorem positions_inverse_captioned :
    posNext plainMtmd captioned (-1) = some 2 ∧ sizeUpToPos plainMtmd captioned 2 = some 3 := by
  obtain ⟨hlast, hround, -⟩ := positions_inverse ⟨_, captioned_tiles⟩ (by decide)
  have hbound : Boundary plainMtmd captioned 3 := captioned_tiles.append_nil.boundary
  have hend := (hround 3 hbound).mpr (.inr (.inr (by decide)))
  have hpos : posNext plainMtmd captioned (3 : ℕ) = some 2 := by decide
  rw [hpos] at hend
  exact ⟨hlast.trans hpos, hend⟩

/-- The start of the list is not found again. -/
theorem positions_start :
    WellFormed plainMtmd captioned ∧ Boundary plainMtmd captioned 0 ∧
      posNext plainMtmd captioned 0 = some 0 ∧ sizeUpToPos plainMtmd captioned 0 = some 1 := by
  refine ⟨⟨_, captioned_tiles⟩, ?_, by decide, by decide⟩
  exact Tiles.boundary (p := []) captioned_tiles

/-! ## Appending a list of tokens -/

/-- The loop over the media of the other list. Its iterator is nowhere advanced. -/
def copyMedia (api : Mtmd C) (startIdx : ℕ) :
    ℕ → List (ℕ × C) → ServerTokens C → Option (ServerTokens C)
  | _, [], s => some s
  | 0, _ :: _, _ => none
  | fuel + 1, m :: media, s =>
    copyMedia api startIdx fuel (m :: media)
      { s with mapIdxToMedia := setChunk (startIdx + m.1) (api.copy m.2) s.mapIdxToMedia }

/-- `push_back(server_tokens &)`, without a result if its loop does not end. -/
def pushBackTokens (api : Mtmd C) (tokens : ServerTokens C) (fuel : ℕ) (s : ServerTokens C) :
    Option (EStateM.Result ServerTokensError (ServerTokens C) Unit) :=
  match tokens.tokens.forM pushBack s with
  | .error e s' => some (.error e s')
  | .ok () s' =>
    if tokens.hasMtmd then
      if s'.hasMtmd then
        (copyMedia api s.tokens.length fuel tokens.mapIdxToMedia s').map (.ok ())
      else some (.error .assertion s')
    else some (.ok () s')

/-- The second list stands behind the first, its media at the shifted indices. -/
structure Appended (api : Mtmd C) (a b s : ServerTokens C) : Prop where
  tokens_eq : s.tokens = a.tokens ++ b.tokens
  media_eq : s.mapIdxToMedia =
    a.mapIdxToMedia ++ b.mapIdxToMedia.map fun m => (a.tokens.length + m.1, api.copy m.2)
  wellFormed : WellFormed api s
  posNext_eq : ∃ x ∈ posNext api a (-1), ∃ y ∈ posNext api b (-1), posNext api s (-1) = some (x + y)

theorem pushBack_text {tok : LlamaToken} (h : tok ≠ llamaTokenNull) (s : ServerTokens C) :
    pushBack tok s = .ok () { s with tokens := s.tokens ++ [tok] } := if_neg h

theorem forM_pushBack_texts {toks : List LlamaToken} (h : llamaTokenNull ∉ toks) (s : ServerTokens C) :
    toks.forM pushBack s = .ok () { s with tokens := s.tokens ++ toks } := by
  induction toks generalizing s with
  | nil => rw [List.append_nil]; rfl
  | cons tok toks ih =>
    obtain ⟨htok, htoks⟩ := not_or.mp (mt List.mem_cons.mpr h)
    change EStateM.bind (pushBack tok) (fun _ => toks.forM pushBack) s = _
    rw [EStateM.bind, pushBack_text (Ne.symm htok)]
    exact (ih htoks _).trans (by rw [List.append_assoc]; rfl)

theorem forM_pushBack_null {toks : List LlamaToken} (h : llamaTokenNull ∈ toks) (s : ServerTokens C) :
    ∃ s', toks.forM pushBack s = .error .invalidToken s' := by
  induction toks generalizing s with
  | nil => exact absurd h List.not_mem_nil
  | cons tok toks ih =>
    change ∃ s', EStateM.bind (pushBack tok) (fun _ => toks.forM pushBack) s = _
    by_cases htok : tok = llamaTokenNull
    · exact ⟨s, by rw [EStateM.bind, pushBack, if_pos htok]⟩
    · rw [EStateM.bind, pushBack_text htok]
      exact ih ((List.mem_cons.mp h).resolve_left (Ne.symm htok)) _

theorem null_mem_flat {chunk : C} (hvalid : ∀ item ∈ items, item.Valid api)
    (h : Item.media chunk ∈ items) : llamaTokenNull ∈ flat api items := by
  refine List.mem_flatMap.mpr ⟨_, h, List.mem_replicate.mpr ⟨?_, rfl⟩⟩
  exact (hvalid _ h).2.ne'

theorem null_not_mem_flat (hvalid : ∀ item ∈ items, item.Valid api)
    (h : keysFrom api 0 items = []) : llamaTokenNull ∉ flat api items := by
  intro hnull
  obtain ⟨item, hm, htok⟩ := List.mem_flatMap.mp hnull
  cases item with
  | text tok => exact hvalid _ hm (List.mem_singleton.mp htok).symm
  | media chunk =>
    obtain ⟨k, hk⟩ := mem_keysFrom api hm 0
    rw [h] at hk
    exact absurd hk List.not_mem_nil

theorem keysFrom_no_media (h : ∀ chunk, Item.media chunk ∉ items) (i : ℕ) :
    keysFrom api i items = [] := by
  induction items generalizing i with
  | nil => rfl
  | cons item items ih =>
    cases item with
    | text tok => exact ih (fun chunk hm => h chunk (List.mem_cons_of_mem _ hm)) (i + 1)
    | media chunk => exact absurd List.mem_cons_self (h chunk)

variable {a b : ServerTokens C}

theorem pushBackTokens_media (hb : WellFormed api b) (hmedia : b.mapIdxToMedia ≠ []) (fuel : ℕ)
    (a : ServerTokens C) : ∃ s, pushBackTokens api b fuel a = some (.error .invalidToken s) := by
  obtain ⟨items, h⟩ := hb
  have hex : ∃ chunk, Item.media chunk ∈ items := by
    by_contra hnone
    rw [h.media_eq] at hmedia
    exact hmedia (keysFrom_no_media (not_exists.mp hnone) 0)
  obtain ⟨chunk, hm⟩ := hex
  have hnull : llamaTokenNull ∈ b.tokens := h.tokens_eq ▸ null_mem_flat h.valid hm
  obtain ⟨s, hs⟩ := forM_pushBack_null hnull a
  exact ⟨s, by rw [pushBackTokens, hs]⟩

theorem Tiles.appended {xs ys : List (Item C)} (ha : Tiles api a xs) (hb : Tiles api b ys)
    (hmtmd : a.hasMtmd) (hnil : b.mapIdxToMedia = []) :
    Appended api a b { a with tokens := a.tokens ++ b.tokens } := by
  have hkeys : keysFrom api 0 ys = [] := hb.media_eq ▸ hnil
  have htiles : Tiles api { a with tokens := a.tokens ++ b.tokens } (xs ++ ys) := {
    tokens_eq := by
      rw [flat_append, ← ha.tokens_eq, ← hb.tokens_eq]
    media_eq := by
      rw [keysFrom_append, keysFrom_texts hkeys, List.append_nil]
      exact ha.media_eq
    valid := List.forall_mem_append.mpr ⟨ha.valid, hb.valid⟩
    admitted := .inr hmtmd }
  refine ⟨rfl, ?_, ⟨_, htiles⟩, _, ha.posNext_last, _, hb.posNext_last, ?_⟩
  · rw [hnil, List.map_nil, List.append_nil]
  · rw [htiles.posNext_last, span_append]

/-- The other list is appended exactly if it has no media. -/
theorem pushBackTokens_iff (ha : WellFormed api a) (hb : WellFormed api b) (hmtmd : a.hasMtmd) :
    (∃ fuel s, pushBackTokens api b fuel a = some (.ok () s) ∧ Appended api a b s) ↔
      b.mapIdxToMedia = [] := by
  refine ⟨fun ⟨fuel, s, hrun, _⟩ => ?_, fun hnil => ?_⟩
  · by_contra hmedia
    obtain ⟨s', hs'⟩ := pushBackTokens_media hb hmedia fuel a
    rw [hs'] at hrun
    exact nomatch Option.some.inj hrun
  · obtain ⟨xs, ha⟩ := ha
    obtain ⟨ys, hb⟩ := hb
    have hkeys : keysFrom api 0 ys = [] := hb.media_eq ▸ hnil
    have hnull : llamaTokenNull ∉ b.tokens := hb.tokens_eq ▸ null_not_mem_flat hb.valid hkeys
    refine ⟨0, _, ?_, ha.appended hb hmtmd hnil⟩
    rw [pushBackTokens, forM_pushBack_texts hnull]
    dsimp only
    rw [if_pos hmtmd, hnil]
    exact ite_self _

def twoTexts : ServerTokens PlainChunk := { tokens := [3, 4] }

theorem twoTexts_tiles : Tiles plainMtmd twoTexts [.text 3, .text 4] where
  tokens_eq := rfl
  media_eq := rfl
  valid := by
    rintro item (_ | ⟨_, _ | ⟨_, h⟩⟩)
    · exact (by decide : (3 : LlamaToken) ≠ llamaTokenNull)
    · exact (by decide : (4 : LlamaToken) ≠ llamaTokenNull)
    · exact nomatch h
  admitted := .inl rfl

theorem pushBackTokens_iff_captioned :
    ∃ fuel s, pushBackTokens plainMtmd twoTexts fuel captioned = some (.ok () s) ∧
      Appended plainMtmd captioned twoTexts s :=
  (pushBackTokens_iff ⟨_, captioned_tiles⟩ ⟨_, twoTexts_tiles⟩ rfl).mpr rfl

/-- Appending a captioned image stops with an exception in the middle. -/
theorem pushBackTokens_captioned :
    WellFormed plainMtmd captioned ∧ captioned.hasMtmd ∧
      (∀ fuel, pushBackTokens plainMtmd captioned fuel captioned =
        some (.error .invalidToken
          ⟨true, [(1, image 2)], [7, llamaTokenNull, llamaTokenNull, 7]⟩)) ∧
      ¬ ∃ fuel s, pushBackTokens plainMtmd captioned fuel captioned = some (.ok () s) :=
  ⟨⟨_, captioned_tiles⟩, rfl, fun _ => rfl, fun ⟨_, _, h⟩ => nomatch Option.some.inj h⟩

end ServerTokens
end RocmFpx
