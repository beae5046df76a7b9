import Mathlib.Order.Bounds.Basic
import Mathlib.Data.List.Forall2
import RocmFpx.ServerTokens

/-!
The common prefix of two lists of tokens: the walk that jumps over equal chunks counts the items
at the front on which the lists agree.
-/

namespace RocmFpx
namespace ServerTokens

variable {C : Type} (api : Mtmd C)

/-- The loop over two lists without media. -/
def sameTokensFrom (a b : List LlamaToken) : ℕ → ℕ → ℕ
  | 0, i => i
  | left + 1, i => if a[i]? = b[i]? then sameTokensFrom a b left (i + 1) else i

/-- The loop over two lists with media. -/
def walk (a b : ServerTokens C) (maxIdx i : ℕ) : Except ServerTokensError ℕ :=
  if _h : i < maxIdx then
    if a.tokens[i]? = some llamaTokenNull ∧ b.tokens[i]? = some llamaTokenNull then
      match a.findChunk i with
      | .error e => .error e
      | .ok aChunk =>
        match b.findChunk i with
        | .error e => .error e
        | .ok bChunk =>
          if api.getId aChunk = api.getId bChunk ∧
              api.getNTokens aChunk = api.getNTokens bChunk then
            if _hpos : 0 < api.getNTokens aChunk then
              walk a b maxIdx (i + api.getNTokens aChunk)
            else .error .assertion
          else .ok i
    else if a.tokens[i]? = b.tokens[i]? then walk a b maxIdx (i + 1)
    else .ok i
  else .ok maxIdx
termination_by maxIdx - i

def getCommonPrefix (a b : ServerTokens C) : Except ServerTokensError ℕ :=
  let maxIdx := min a.tokens.length b.tokens.length
  if a.hasMtmd then walk api a b maxIdx 0
  else .ok (sameTokensFrom a.tokens b.tokens maxIdx 0)

/-! ## The items on which two lists agree -/

variable {api}

/-- The same text token, or chunks of the same id and length. -/
def Item.Agrees (api : Mtmd C) : Item C → Item C → Prop
  | .text t, .text t' => t = t'
  | .media c, .media c' => api.getId c = api.getId c' ∧ api.getNTokens c = api.getNTokens c'
  | _, _ => False

theorem agrees_text {t t' : LlamaToken} : (Item.text t).Agrees api (.text t') ↔ t = t' := Iff.rfl

theorem agrees_media {c c' : C} : (Item.media c).Agrees api (.media c') ↔
    api.getId c = api.getId c' ∧ api.getNTokens c = api.getNTokens c' := Iff.rfl

instance (x y : Item C) : Decidable (x.Agrees api y) := by
  cases x <;> cases y <;> unfold Item.Agrees <;> infer_instance

theorem Item.Agrees.symm {x y : Item C} (h : x.Agrees api y) : y.Agrees api x := by
  cases x <;> cases y
  · exact Eq.symm h
  · exact h
  · exact h
  · exact ⟨h.1.symm, h.2.symm⟩

theorem Item.Agrees.tokens_eq {x y : Item C} (h : x.Agrees api y) :
    x.tokens api = y.tokens api := by
  cases x <;> cases y
  · exact congrArg (fun t => [t]) h
  · exact h.elim
  · exact h.elim
  · exact congrArg (List.replicate · llamaTokenNull) h.2

/-- The tokens at the front of two lists of items on which they agree. -/
def agreeing (api : Mtmd C) : List (Item C) → List (Item C) → ℕ
  | x :: xs, y :: ys =>
    if x.Agrees api y then (x.tokens api).length + agreeing api xs ys else 0
  | _, _ => 0

theorem agreeing_cons {x y : Item C} (h : x.Agrees api y) (xs ys : List (Item C)) :
    agreeing api (x :: xs) (y :: ys) = (x.tokens api).length + agreeing api xs ys := if_pos h

theorem agreeing_stop {x y : Item C} (h : ¬ x.Agrees api y) (xs ys : List (Item C)) :
    agreeing api (x :: xs) (y :: ys) = 0 := if_neg h

theorem agreeing_comm (xs ys : List (Item C)) : agreeing api xs ys = agreeing api ys xs := by
  induction xs generalizing ys with
  | nil => cases ys <;> rfl
  | cons x xs ih =>
    cases ys with
    | nil => rfl
    | cons y ys =>
      by_cases h : x.Agrees api y
      · rw [agreeing_cons h, agreeing_cons h.symm, ih, h.tokens_eq]
      · rw [agreeing_stop h, agreeing_stop fun h' => h h'.symm]

/-- A common prefix of `n` tokens: both lists start with items that agree one by one. -/
def Common (api : Mtmd C) (xs ys : List (Item C)) (n : ℕ) : Prop :=
  ∃ p q r t, xs = p ++ r ∧ ys = q ++ t ∧ List.Forall₂ (Item.Agrees api) p q ∧
    (flat api p).length = n

theorem flat_eq_of_agrees {p q : List (Item C)} (h : List.Forall₂ (Item.Agrees api) p q) :
    flat api p = flat api q := by
  induction h with
  | nil => rfl
  | cons hxy _ ih => exact congrArg₂ (· ++ ·) hxy.tokens_eq ih

theorem agreeing_common (xs ys : List (Item C)) : Common api xs ys (agreeing api xs ys) := by
  induction xs generalizing ys with
  | nil => exact ⟨[], [], [], ys, rfl, rfl, .nil, by cases ys <;> rfl⟩
  | cons x xs ih =>
    cases ys with
    | nil => exact ⟨[], [], x :: xs, [], rfl, rfl, .nil, rfl⟩
    | cons y ys =>
      by_cases h : x.Agrees api y
      · obtain ⟨p, q, r, t, rfl, rfl, hall, hlen⟩ := ih ys
        refine ⟨x :: p, y :: q, r, t, rfl, rfl, .cons h hall, ?_⟩
        rw [agreeing_cons h, ← hlen]
        exact List.length_append
      · refine ⟨[], [], x :: xs, y :: ys, rfl, rfl, .nil, ?_⟩
        rw [agreeing_stop h]
        rfl

theorem Common.le_agreeing {xs ys : List (Item C)} {n : ℕ} (h : Common api xs ys n) :
    n ≤ agreeing api xs ys := by
  obtain ⟨p, q, r, t, rfl, rfl, hall, rfl⟩ := h
  induction hall with
  | nil => exact Nat.zero_le _
  | cons hxy _ ih =>
    rw [List.cons_append, List.cons_append, agreeing_cons hxy]
    exact List.length_append.trans_le (Nat.add_le_add_left ih _)

/-! ## The walk -/

section
variable {a b : ServerTokens C} {xs ys p q r t : List (Item C)}

theorem Tiles.length_eq (h : Tiles api a (p ++ r)) :
    a.tokens.length = (flat api p).length + (flat api r).length := by
  rw [h.tokens_eq, flat_append, List.length_append]

theorem Tiles.getElem?_eq (h : Tiles api a (p ++ r)) {i : ℕ} (hi : (flat api p).length = i) :
    a.tokens[i]? = (flat api r)[0]? := by
  rw [h.tokens_eq]
  exact getElem?_flat hi r

theorem flat_media_head {chunk : C} (hpos : 0 < api.getNTokens chunk) (r : List (Item C)) :
    (flat api (.media chunk :: r))[0]? = some llamaTokenNull := by
  rw [flat_media, List.getElem?_append_left (by rwa [List.length_replicate]),
    List.getElem?_replicate_of_lt hpos]

theorem flat_length_pos (hvalid : ∀ item ∈ r, item.Valid api) (hne : r ≠ []) :
    0 < (flat api r).length := by
  cases r with
  | nil => exact absurd rfl hne
  | cons item r =>
    cases item with
    | text tok => exact Nat.succ_pos _
    | media chunk =>
      have hpos := (hvalid _ List.mem_cons_self).2
      rw [flat_media, List.length_append, List.length_replicate]
      exact Nat.add_pos_left hpos _

theorem walk_eq (ha : Tiles api a (p ++ r)) (hb : Tiles api b (q ++ t))
    (hpq : List.Forall₂ (Item.Agrees api) p q) {i maxIdx : ℕ} (hi : (flat api p).length = i)
    (hmax : maxIdx = min a.tokens.length b.tokens.length) :
    walk api a b maxIdx i = .ok (i + agreeing api r t) := by
  have hiq : (flat api q).length = i := by rw [← flat_eq_of_agrees hpq, hi]
  have hlena := ha.length_eq
  have hlenb := hb.length_eq
  have hra : ∀ item ∈ r, item.Valid api := fun item hm =>
    ha.valid item (List.mem_append_right _ hm)
  have htb : ∀ item ∈ t, item.Valid api := fun item hm =>
    hb.valid item (List.mem_append_right _ hm)
  induction r generalizing p q t i with
  | nil =>
    rw [flat_nil, List.length_nil] at hlena
    rw [walk, dif_neg (by omega)]
    cases t <;> simp only [agreeing] <;> congr 1 <;> omega
  | cons x r ih =>
    cases t with
    | nil =>
      rw [flat_nil, List.length_nil] at hlenb
      rw [walk, dif_neg (by omega)]
      simp only [agreeing]
      congr 1
      omega
    | cons y t =>
      have hlt : i < maxIdx := by
        have hposa := flat_length_pos hra (List.cons_ne_nil x r)
        have hposb := flat_length_pos htb (List.cons_ne_nil y t)
        omega
      have hhead := ha.getElem?_eq hi
      have hhead' := hb.getElem?_eq hiq
      have hnext (hxy : x.Agrees api y) {j : ℕ} (hj : j = i + (x.tokens api).length) :
          walk api a b maxIdx j = .ok (j + agreeing api r t) := by
        have ha' : Tiles api a ((p ++ [x]) ++ r) := by rwa [List.append_assoc]
        have hb' : Tiles api b ((q ++ [y]) ++ t) := by rwa [List.append_assoc]
        have hlen : (flat api (p ++ [x])).length = j := by
          rw [flat_append, List.length_append, hi, hj]
          exact congrArg (i + ·) (congrArg List.length (List.append_nil _))
        have hpq' := List.rel_append hpq (.cons hxy .nil)
        refine ih ha' hb' hpq' hlen ?_ ha'.length_eq hb'.length_eq
          (fun item hm => hra item (List.mem_cons_of_mem _ hm))
          (fun item hm => htb item (List.mem_cons_of_mem _ hm))
        rw [← flat_eq_of_agrees hpq', hlen]
      have hx := hra x List.mem_cons_self
      have hy := htb y List.mem_cons_self
      rw [walk, dif_pos hlt]
      cases x with
      | text tok =>
        rw [flat_text, List.getElem?_cons_zero] at hhead
        have hne : a.tokens[i]? ≠ some llamaTokenNull := fun h =>
          hx (Option.some.inj (hhead.symm.trans h))
        rw [if_neg fun h => hne h.1, hhead]
        cases y with
        | text tok' =>
          rw [flat_text, List.getElem?_cons_zero] at hhead'
          by_cases heq : tok = tok'
          · rw [hhead', if_pos (congrArg some heq), hnext (agrees_text.2 heq) (j := i + 1) rfl,
              agreeing_cons (agrees_text.2 heq)]
            exact congrArg Except.ok (Nat.add_assoc _ _ _)
          · rw [hhead', if_neg fun h => heq (Option.some.inj h), agreeing_stop (mt agrees_text.1 heq)]
            rfl
        | media chunk =>
          rw [flat_media_head hy.2] at hhead'
          rw [hhead', if_neg fun h => hx (Option.some.inj h), agreeing_stop id]
          rfl
      | media chunk =>
        rw [flat_media_head hx.2] at hhead
        cases y with
        | text tok =>
          rw [flat_text, List.getElem?_cons_zero] at hhead'
          rw [hhead, hhead', if_neg fun h => hy (Option.some.inj h.2),
            if_neg fun h => hy (Option.some.inj h).symm, agreeing_stop id]
          rfl
        | media chunk' =>
          rw [flat_media_head hy.2] at hhead'
          rw [if_pos ⟨hhead, hhead'⟩, ha.findChunk hi, hb.findChunk hiq]
          dsimp only
          by_cases heq : api.getId chunk = api.getId chunk' ∧
              api.getNTokens chunk = api.getNTokens chunk'
          · rw [if_pos heq, dif_pos hx.2, agreeing_cons (agrees_media.2 heq),
              hnext (agrees_media.2 heq) (congrArg (i + ·) (List.length_replicate).symm)]
            refine congrArg Except.ok ?_
            rw [Item.tokens, List.length_replicate, Nat.add_assoc]
          · rw [if_neg heq, agreeing_stop (mt agrees_media.1 heq)]
            rfl

theorem sameTokensFrom_eq (ha : Tiles api a (p ++ r)) (hb : Tiles api b (q ++ t))
    (hpq : List.Forall₂ (Item.Agrees api) p q) {i left : ℕ} (hi : (flat api p).length = i)
    (hmax : i + left = min a.tokens.length b.tokens.length) (hnil : a.mapIdxToMedia = []) :
    sameTokensFrom a.tokens b.tokens left i = i + agreeing api r t := by
  have hiq : (flat api q).length = i := by rw [← flat_eq_of_agrees hpq, hi]
  have hlena := ha.length_eq
  have hlenb := hb.length_eq
  have hra : ∀ item ∈ r, item.Valid api := fun item hm =>
    ha.valid item (List.mem_append_right _ hm)
  have htb : ∀ item ∈ t, item.Valid api := fun item hm =>
    hb.valid item (List.mem_append_right _ hm)
  induction r generalizing p q t i left with
  | nil =>
    rw [flat_nil, List.length_nil] at hlena
    obtain rfl : left = 0 := by omega
    cases t <;> rfl
  | cons x r ih =>
    cases t with
    | nil =>
      rw [flat_nil, List.length_nil] at hlenb
      obtain rfl : left = 0 := by omega
      rfl
    | cons y t =>
      have hhead := ha.getElem?_eq hi
      have hhead' := hb.getElem?_eq hiq
      have hx := hra x List.mem_cons_self
      have hy := htb y List.mem_cons_self
      have hposa := flat_length_pos hra (List.cons_ne_nil x r)
      have hposb := flat_length_pos htb (List.cons_ne_nil y t)
      obtain ⟨left, rfl⟩ : ∃ n, left = n + 1 := ⟨left - 1, by omega⟩
      cases x with
      | media chunk =>
        have hkeys := ha.media_eq
        rw [hnil, keysFrom_append] at hkeys
        exact nomatch (List.append_eq_nil_iff.mp hkeys.symm).2
      | text tok =>
        rw [flat_text, List.getElem?_cons_zero] at hhead
        rw [sameTokensFrom, hhead]
        cases y with
        | media chunk =>
          rw [flat_media_head hy.2] at hhead'
          rw [hhead', if_neg fun h => hx (Option.some.inj h), agreeing_stop id]
          rfl
        | text tok' =>
          rw [flat_text, List.getElem?_cons_zero] at hhead'
          rw [hhead']
          by_cases heq : tok = tok'
          · have ha' : Tiles api a ((p ++ [.text tok]) ++ r) := by rwa [List.append_assoc]
            have hb' : Tiles api b ((q ++ [.text tok']) ++ t) := by rwa [List.append_assoc]
            have hlen : (flat api (p ++ [.text tok])).length = i + 1 := by
              rw [flat_append, List.length_append, hi]
              rfl
            have hpq' := List.rel_append hpq (.cons (agrees_text.2 heq) .nil)
            have hleft : i + 1 + left = min a.tokens.length b.tokens.length := by omega
            have hrest := ih ha' hb' hpq' hlen hleft
              (by rw [← flat_eq_of_agrees hpq', hlen]) ha'.length_eq hb'.length_eq
              (fun item hm => hra item (List.mem_cons_of_mem _ hm))
              (fun item hm => htb item (List.mem_cons_of_mem _ hm))
            rw [if_pos (congrArg some heq), hrest, agreeing_cons (agrees_text.2 heq)]
            exact Nat.add_assoc _ _ _
          · rw [if_neg fun h => heq (Option.some.inj h), agreeing_stop (mt agrees_text.1 heq)]
            rfl

theorem getCommonPrefix_eq (ha : Tiles api a xs) (hb : Tiles api b ys) :
    getCommonPrefix api a b = .ok (agreeing api xs ys) := by
  unfold getCommonPrefix
  by_cases hmtmd : a.hasMtmd
  · rw [if_pos hmtmd, walk_eq (p := []) (q := []) (i := 0) ha hb .nil rfl rfl, Nat.zero_add]
  · rw [if_neg hmtmd, sameTokensFrom_eq (p := []) (q := []) (i := 0) ha hb .nil rfl (Nat.zero_add _)
      (ha.admitted.resolve_right hmtmd), Nat.zero_add]

theorem getCommonPrefix_isGreatest (ha : Tiles api a xs) (hb : Tiles api b ys) :
    ∃ n, getCommonPrefix api a b = .ok n ∧ IsGreatest {m | Common api xs ys m} n :=
  ⟨_, getCommonPrefix_eq ha hb, agreeing_common xs ys, fun _ h => h.le_agreeing⟩

theorem getCommonPrefix_comm (ha : WellFormed api a) (hb : WellFormed api b) :
    getCommonPrefix api a b = getCommonPrefix api b a := by
  obtain ⟨xs, ha⟩ := ha
  obtain ⟨ys, hb⟩ := hb
  rw [getCommonPrefix_eq ha hb, getCommonPrefix_eq hb ha, agreeing_comm]

theorem keepFirst_common (ha : Tiles api a xs) {n : ℕ} (h : Common api xs ys n) :
    keepFirst n a = .ok () (a.cut n) := by
  obtain ⟨p, q, r, t, rfl, rfl, -, hlen⟩ := h
  exact ha.keepFirst hlen

theorem Common.symm {n : ℕ} (h : Common api xs ys n) : Common api ys xs n := by
  obtain ⟨p, q, r, t, hxs, hys, hall, hlen⟩ := h
  refine ⟨q, p, t, r, hys, hxs, ?_, by rw [← flat_eq_of_agrees hall, hlen]⟩
  exact hall.flip.imp fun _ _ h => Item.Agrees.symm h

end
end ServerTokens
end RocmFpx
