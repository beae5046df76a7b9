import Mathlib.Algebra.Order.Ring.Unbundled.Rat
import Mathlib.Data.List.Induction
import Mathlib.Data.Nat.Find
import Mathlib.Tactic.IntervalCases
import RocmFpx.ServerTokens

/-!
Where an activated adapter begins to act (`launch_slot_with_task`): the prompt is scanned backwards
for the last occurrence of the invocation tokens. A token that fails to go on an attempt is not looked
at again, so the occurrence is found only if no attempt behind it takes its last token.
-/

namespace RocmFpx
namespace AloraScan

/-- What is read of an adapter. -/
structure LoraInfo where
  invocationTokens : List LlamaToken
  scale : ℚ

/-- What is read and set of a slot. -/
structure Slot where
  lora : List LoraInfo
  aloraInvocationStart : ℤ := -1

/-- The loop of `lora_all_alora`. -/
def allAloraFrom : Bool → List LoraInfo → Bool
  | foundAlora, [] => foundAlora
  | foundAlora, lora :: loras =>
    if lora.scale ≠ 0 then
      if lora.invocationTokens.length = 0 then false else allAloraFrom true loras
    else allAloraFrom foundAlora loras

def allAlora (loras : List LoraInfo) : Bool := allAloraFrom false loras

/-- `lora_get_enabled_ids` -/
def enabledIds (loras : List LoraInfo) : List ℕ :=
  (List.range loras.length).filter fun i => decide (∃ lora ∈ loras[i]?, 0 < lora.scale)

section

variable (tokens invocationTokens : List LlamaToken)

/-- The scan of the tokens in front of a position, the last of them first. -/
def scanFrom : ℕ → ℕ → ℕ
  | 0, _ => tokens.length
  | i + 1, matchIdx =>
    if tokens[i]? = invocationTokens[matchIdx]? then
      if matchIdx = 0 then i else scanFrom i (matchIdx - 1)
    else scanFrom i (invocationTokens.length - 1)

/-- The value of `alora_invocation_start` after the scan. -/
def invocationStart : ℕ :=
  scanFrom tokens invocationTokens tokens.length (invocationTokens.length - 1)

end

/-- The branch of `launch_slot_with_task` on adapters with invocation tokens. -/
def launchAlora (slot : Slot) (tokens : List LlamaToken) : Except String Slot :=
  if allAlora slot.lora then
    match enabledIds slot.lora with
    | [id] =>
      let invocationTokens := (slot.lora[id]?.map LoraInfo.invocationTokens).getD []
      let start := invocationStart tokens invocationTokens
      if start = tokens.length then
        .ok { slot with lora := slot.lora.modify id fun lora => { lora with scale := 0 } }
      else .ok { slot with aloraInvocationStart := start }
    | _ => .error "Cannot run multiple aLoRAs in a single request"
  else .ok slot

/-! ## Occurrences -/

variable {tokens inv p t : List LlamaToken} {start m i : ℕ} {c : LlamaToken}

def OccursAt (inv tokens : List LlamaToken) (start : ℕ) : Prop := inv <+: tokens.drop start

instance : Decidable (OccursAt inv tokens start) := inferInstanceAs (Decidable (_ <+: _))

/-- The last occurrence begins at `start`. -/
structure LastAt (inv tokens : List LlamaToken) (start : ℕ) : Prop where
  occurs : OccursAt inv tokens start
  last : ∀ s, OccursAt inv tokens s → s ≤ start

/-- The adapter acts from the last occurrence on, or not at all if there is none. -/
inductive Launched (inv tokens : List LlamaToken) (id : ℕ) (slot : Slot) : Except String Slot → Prop
  | found {s : ℕ} (hs : LastAt inv tokens s) :
    Launched inv tokens id slot (.ok { slot with aloraInvocationStart := s })
  | absent (hs : ∀ s, ¬ OccursAt inv tokens s) :
    Launched inv tokens id slot
      (.ok { slot with lora := slot.lora.modify id fun lora => { lora with scale := 0 } })

theorem occursAt_append (p inv t : List LlamaToken) : OccursAt inv (p ++ (inv ++ t)) p.length := by
  rw [OccursAt, List.drop_left]
  exact List.prefix_append inv t

theorem OccursAt.split (hne : inv ≠ []) (h : OccursAt inv tokens start) :
    ∃ p t, tokens = p ++ (inv ++ t) ∧ p.length = start ∧ tokens.drop (start + inv.length) = t := by
  obtain ⟨t, ht⟩ := h
  have hlt : start < tokens.length := by
    by_contra hle
    rw [List.drop_eq_nil_of_le (Nat.not_lt.mp hle)] at ht
    exact hne (List.append_eq_nil_iff.mp ht).1
  refine ⟨tokens.take start, t, ?_, List.length_take_of_le hlt.le, ?_⟩
  · rw [ht, List.take_append_drop]
  · rw [← List.drop_drop, ← ht, List.drop_left]

theorem OccursAt.lt (hne : inv ≠ []) (h : OccursAt inv tokens start) : start < tokens.length := by
  obtain ⟨p, t, rfl, rfl, -⟩ := h.split hne
  rw [List.length_append, List.length_append]
  have := List.length_pos_iff.mpr hne
  omega

/-! ## Attempts -/

/-- Read backwards, the tokens are attempts that fail: each is an end of the invocation tokens, with
a token in front that does not go on with it. -/
inductive Attempts (inv : List LlamaToken) : List LlamaToken → Prop
  | nil : Attempts inv []
  | cons {k : ℕ} {d : LlamaToken} {s : List LlamaToken} (hk : k < inv.length) (hd : inv[k]? ≠ some d)
    (hs : Attempts inv s) : Attempts inv (d :: (inv.drop (k + 1) ++ s))

theorem getElem?_cons (p t : List LlamaToken) (c : LlamaToken) : (p ++ c :: t)[p.length]? = some c := by
  rw [List.getElem?_append_right le_rfl, Nat.sub_self, List.getElem?_cons_zero]

theorem scanFrom_hit (p t : List LlamaToken) (hc : inv[m + 1]? = some c) :
    scanFrom (p ++ c :: t) inv (p.length + 1) (m + 1) = scanFrom (p ++ c :: t) inv p.length m := by
  rw [scanFrom, getElem?_cons, if_pos hc.symm, if_neg (Nat.succ_ne_zero m), Nat.add_sub_cancel]

theorem scanFrom_found (p t : List LlamaToken) (hc : inv[0]? = some c) :
    scanFrom (p ++ c :: t) inv (p.length + 1) 0 = p.length := by
  rw [scanFrom, getElem?_cons, if_pos hc.symm, if_pos rfl]

theorem scanFrom_miss (p t : List LlamaToken) (hc : inv[m]? ≠ some c) :
    scanFrom (p ++ c :: t) inv (p.length + 1) m =
      scanFrom (p ++ c :: t) inv p.length (inv.length - 1) := by
  rw [scanFrom, getElem?_cons, if_neg hc.symm]

theorem scanFrom_run (hm : m < inv.length) (p t : List LlamaToken) :
    scanFrom (p ++ (inv.drop (m + 1) ++ t)) inv (p.length + (inv.length - (m + 1))) (inv.length - 1) =
      scanFrom (p ++ (inv.drop (m + 1) ++ t)) inv p.length m := by
  induction hk : inv.length - (m + 1) generalizing m p with
  | zero =>
    obtain rfl : m = inv.length - 1 := by omega
    rfl
  | succ k ih =>
    have hm' : m + 1 < inv.length := by omega
    have hdrop : inv.drop (m + 1) = inv[m + 1] :: inv.drop (m + 1 + 1) := List.drop_eq_getElem_cons hm'
    have hget : inv[m + 1]? = some inv[m + 1] := List.getElem?_eq_getElem hm'
    have hrun := ih hm' (p ++ [inv[m + 1]]) (by omega)
    have htext : p ++ [inv[m + 1]] ++ (inv.drop (m + 1 + 1) ++ t) = p ++ (inv.drop (m + 1) ++ t) := by
      rw [hdrop, List.append_assoc]
      rfl
    rw [htext, List.length_append, List.length_singleton, Nat.add_right_comm, Nat.add_assoc] at hrun
    rw [hrun, hdrop]
    exact scanFrom_hit p _ hget

theorem Attempts.scan (h : Attempts inv t) (p : List LlamaToken) :
    invocationStart (p ++ t) inv = scanFrom (p ++ t) inv p.length (inv.length - 1) := by
  induction h generalizing p with
  | nil => rw [List.append_nil, invocationStart]
  | @cons m c t hm hc ht ih =>
    have htext : p ++ c :: (inv.drop (m + 1) ++ t) = p ++ [c] ++ (inv.drop (m + 1) ++ t) := by
      rw [List.append_assoc]
      rfl
    have hlen : (inv.drop (m + 1)).length = inv.length - (m + 1) := List.length_drop
    have hfirst := ih (p ++ [c] ++ inv.drop (m + 1))
    rw [List.append_assoc, List.length_append, hlen, scanFrom_run hm, ← htext, List.length_append,
      List.length_singleton] at hfirst
    rw [hfirst]
    exact scanFrom_miss p _ hc

theorem Attempts.found (hne : inv ≠ []) (h : Attempts inv t) (p : List LlamaToken) :
    invocationStart (p ++ (inv ++ t)) inv = p.length := by
  have hpos := List.length_pos_iff.mpr hne
  have hget : inv[0]? = some inv[0] := List.getElem?_eq_getElem hpos
  have hcons : inv = inv[0] :: inv.drop 1 := List.drop_eq_getElem_cons hpos
  have hscan := h.scan (p ++ inv)
  have htext : p ++ inv ++ t = p ++ [inv[0]] ++ (inv.drop (0 + 1) ++ t) := by
    nth_rewrite 1 [hcons]
    simp only [List.append_assoc, List.cons_append, List.nil_append]
  have hlen : (p ++ inv).length = (p ++ [inv[0]]).length + (inv.length - (0 + 1)) := by
    rw [List.length_append, List.length_append, List.length_singleton]
    omega
  rw [hlen, htext, scanFrom_run hpos] at hscan
  rw [← List.append_assoc, htext, hscan, List.length_append, List.length_singleton, List.append_assoc]
  exact scanFrom_found p _ hget

theorem scanFrom_sound (hm : m < inv.length) (ht : Attempts inv t) (p : List LlamaToken)
    (h : scanFrom (p ++ (inv.drop (m + 1) ++ t)) inv p.length m ≠ (p ++ (inv.drop (m + 1) ++ t)).length) :
    ∃ q t', p ++ (inv.drop (m + 1) ++ t) = q ++ (inv ++ t') ∧ Attempts inv t' ∧
      scanFrom (p ++ (inv.drop (m + 1) ++ t)) inv p.length m = q.length := by
  induction p using List.reverseRecOn generalizing m t with
  | nil => exact absurd rfl h
  | append_singleton p c ih =>
    have htext : p ++ [c] ++ (inv.drop (m + 1) ++ t) = p ++ c :: (inv.drop (m + 1) ++ t) := by
      rw [List.append_assoc]
      rfl
    rw [htext, List.length_append, List.length_singleton] at h ⊢
    by_cases hc : inv[m]? = some c
    · have hdrop : c :: inv.drop (m + 1) = inv.drop m := by
        rw [List.drop_eq_getElem_cons hm]
        rw [List.getElem?_eq_getElem hm] at hc
        rw [Option.some.inj hc]
      cases m with
      | zero =>
        refine ⟨p, t, ?_, ht, scanFrom_found p _ hc⟩
        rw [← List.cons_append, hdrop]
        rfl
      | succ m =>
        rw [scanFrom_hit p _ hc, ← List.cons_append, hdrop] at h ⊢
        exact ih (Nat.lt_of_succ_lt hm) ht h
    · have hfresh : inv.drop (inv.length - 1 + 1) = [] := List.drop_eq_nil_of_le (by omega)
      have hstep := ih (m := inv.length - 1) (by omega) (Attempts.cons hm hc ht)
      rw [hfresh] at hstep
      rw [scanFrom_miss p _ hc] at h ⊢
      exact hstep h

theorem invocationStart_sound (hne : inv ≠ []) (h : invocationStart tokens inv ≠ tokens.length) :
    ∃ p t, tokens = p ++ (inv ++ t) ∧ Attempts inv t ∧ invocationStart tokens inv = p.length := by
  have hpos := List.length_pos_iff.mpr hne
  have hfresh : inv.drop (inv.length - 1 + 1) = [] := List.drop_eq_nil_of_le (by omega)
  have hnil : Attempts inv [] := .nil
  have hsound := scanFrom_sound (m := inv.length - 1) (by omega) hnil tokens
  rw [hfresh, List.nil_append, List.append_nil] at hsound
  exact hsound h

/-! ## The launch -/

theorem exists_lastAt (hne : inv ≠ []) (h : OccursAt inv tokens start) :
    ∃ s, LastAt inv tokens s := by
  refine ⟨Nat.findGreatest (OccursAt inv tokens) tokens.length, ?_, fun s hs => ?_⟩
  · exact Nat.findGreatest_spec (h.lt hne).le h
  · exact Nat.le_findGreatest (hs.lt hne).le hs

theorem LastAt.unique {s s' : ℕ} (h : LastAt inv tokens s) (h' : LastAt inv tokens s') : s = s' :=
  le_antisymm (h'.last s h.occurs) (h.last s' h'.occurs)

theorem invocationStart_absent (hne : inv ≠ []) (h : ∀ s, ¬ OccursAt inv tokens s) :
    invocationStart tokens inv = tokens.length := by
  by_contra hstart
  obtain ⟨p, t, rfl, -, -⟩ := invocationStart_sound hne hstart
  exact h p.length (occursAt_append p inv t)

theorem invocationStart_eq_iff {s : ℕ} (hne : inv ≠ []) (h : OccursAt inv tokens s) :
    invocationStart tokens inv = s ↔ Attempts inv (tokens.drop (s + inv.length)) := by
  obtain ⟨p, t, rfl, rfl, htail⟩ := h.split hne
  rw [htail]
  refine ⟨fun hstart => ?_, fun ht => ht.found hne p⟩
  have hlt := h.lt hne
  obtain ⟨q, t', htext, ht', hq⟩ := invocationStart_sound hne (hstart.trans_ne hlt.ne)
  have hlen : p.length = q.length := hstart.symm.trans hq
  obtain ⟨-, hrest⟩ := List.append_inj htext hlen
  rwa [List.append_cancel_left hrest]

section

variable {slot : Slot} {info : LoraInfo} {id : ℕ}

theorem launchAlora_eq (hall : allAlora slot.lora = true) (hid : enabledIds slot.lora = [id])
    (hinfo : slot.lora[id]? = some info) :
    launchAlora slot tokens =
      if invocationStart tokens info.invocationTokens = tokens.length then
        .ok { slot with lora := slot.lora.modify id fun lora => { lora with scale := 0 } }
      else .ok { slot with aloraInvocationStart := invocationStart tokens info.invocationTokens } := by
  rw [launchAlora, if_pos hall, hid]
  simp only [hinfo, Option.map_some, Option.getD_some]

theorem allAloraFrom_tokens {loras : List LoraInfo} {b : Bool} (h : allAloraFrom b loras = true)
    (hmem : info ∈ loras) (hscale : info.scale ≠ 0) : info.invocationTokens ≠ [] := by
  induction loras generalizing b with
  | nil => exact absurd hmem List.not_mem_nil
  | cons lora loras ih =>
    rw [allAloraFrom] at h
    rcases List.mem_cons.mp hmem with rfl | hmem
    · rw [if_pos hscale] at h
      intro hnil
      rw [if_pos (List.length_eq_zero_iff.mpr hnil)] at h
      exact Bool.false_ne_true h
    · split_ifs at h
      · exact ih h hmem
      · exact ih h hmem

theorem scale_ne_zero (hid : enabledIds slot.lora = [id]) (hinfo : slot.lora[id]? = some info) :
    info.scale ≠ 0 := by
  have hmem : id ∈ enabledIds slot.lora := hid ▸ List.mem_singleton_self id
  rw [enabledIds, List.mem_filter, decide_eq_true_iff] at hmem
  obtain ⟨-, lora, hlora, hpos⟩ := hmem
  obtain rfl : info = lora := Option.some.inj (hinfo.symm.trans hlora)
  exact hpos.ne'

theorem invocationTokens_ne_nil (hall : allAlora slot.lora = true)
    (hid : enabledIds slot.lora = [id]) (hinfo : slot.lora[id]? = some info) :
    info.invocationTokens ≠ [] := by
  exact allAloraFrom_tokens hall (List.mem_of_getElem? hinfo) (scale_ne_zero hid hinfo)

theorem modify_ne (hid : enabledIds slot.lora = [id]) (hinfo : slot.lora[id]? = some info) :
    slot.lora.modify id (fun lora => { lora with scale := 0 }) ≠ slot.lora := by
  intro heq
  have hget : slot.lora[id]? = some { info with scale := 0 } := by
    nth_rewrite 1 [← heq]
    rw [List.getElem?_modify_eq, hinfo]
    rfl
  have hscale : info.scale = 0 := congrArg LoraInfo.scale (Option.some.inj (hinfo.symm.trans hget))
  exact scale_ne_zero hid hinfo hscale

/-- The adapter acts from the last occurrence on exactly if what follows it, read backwards, is
failed attempts. -/
theorem launchAlora_iff (hall : allAlora slot.lora = true) (hid : enabledIds slot.lora = [id])
    (hinfo : slot.lora[id]? = some info) (tokens : List LlamaToken) :
    Launched info.invocationTokens tokens id slot (launchAlora slot tokens) ↔
      ∀ s, LastAt info.invocationTokens tokens s →
        Attempts info.invocationTokens (tokens.drop (s + info.invocationTokens.length)) := by
  have hne := invocationTokens_ne_nil hall hid hinfo
  have hlaunch := @launchAlora_eq tokens slot info id hall hid hinfo
  refine ⟨fun h s hs => ?_, fun h => ?_⟩
  · rw [← invocationStart_eq_iff hne hs.occurs]
    generalize launchAlora slot tokens = res at h hlaunch
    cases h with
    | absent habs => exact absurd hs.occurs (habs s)
    | found hs' =>
      obtain rfl := hs.unique hs'
      split_ifs at hlaunch
      · have hlora := congrArg Slot.lora (Except.ok.inj hlaunch)
        exact absurd hlora.symm (modify_ne hid hinfo)
      · have hstart := congrArg Slot.aloraInvocationStart (Except.ok.inj hlaunch)
        exact Int.ofNat_inj.mp hstart.symm
  · rw [hlaunch]
    by_cases hocc : ∃ s, OccursAt info.invocationTokens tokens s
    · obtain ⟨start, hstart⟩ := hocc
      obtain ⟨s, hs⟩ := exists_lastAt hne hstart
      have hfound := (invocationStart_eq_iff hne hs.occurs).mpr (h s hs)
      rw [hfound, if_neg (hs.occurs.lt hne).ne]
      exact .found hs
    · rw [not_exists] at hocc
      rw [if_pos (invocationStart_absent hne hocc)]
      exact .absent hocc

end

def invocationSlot : Slot := { lora := [⟨[1, 2], 1⟩] }

theorem launchAlora_iff_found :
    Launched [1, 2] [1, 2, 3] 0 invocationSlot (launchAlora invocationSlot [1, 2, 3]) := by
  refine (@launchAlora_iff invocationSlot ⟨[1, 2], 1⟩ 0 (by decide +kernel) (by decide +kernel) rfl
    [1, 2, 3]).mpr fun s hs => ?_
  have hlt : s < 3 := hs.occurs.lt (List.cons_ne_nil 1 [2])
  interval_cases s
  · exact .cons (k := 1) (by decide) (by decide) .nil
  · exact absurd hs.occurs (by decide)
  · exact absurd hs.occurs (by decide)

/-- A token that repeats behind the occurrence takes its last token away, and the adapter is off. -/
theorem launchAlora_missed :
    OccursAt [1, 2] [1, 2, 2] 0 ∧
      ¬ Launched [1, 2] [1, 2, 2] 0 invocationSlot (launchAlora invocationSlot [1, 2, 2]) := by
  have hocc : OccursAt [1, 2] [1, 2, 2] 0 := by decide
  have hlaunch : launchAlora invocationSlot [1, 2, 2] = .ok { lora := [⟨[1, 2], 0⟩] } := by rfl
  refine ⟨hocc, fun h => ?_⟩
  generalize launchAlora invocationSlot [1, 2, 2] = res at h hlaunch
  cases h with
  | absent habs => exact habs 0 hocc
  | found hs =>
    have hstart := congrArg Slot.aloraInvocationStart (Except.ok.inj hlaunch)
    exact absurd hstart (by simp only [reduceCtorEq, not_false_eq_true])

end AloraScan
end RocmFpx
