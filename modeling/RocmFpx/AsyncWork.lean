import Mathlib.Data.List.Basic
import Mathlib.Order.MinMax
import Mathlib.Order.Nat

/-!
Work that is dispatched to queues and waited for later, by queue or by event. Items are numbered in
the order of their dispatch; a queue has done its items below some number, and an event covers those
dispatched before it was recorded. An event that was never recorded covers nothing.
-/

namespace RocmFpx.AsyncWork

variable {β ε τ : Type*}

structure Item (β τ : Type*) where
  queue : β
  tag : τ
  serial : ℕ

structure Work (β ε τ : Type*) where
  items : List (Item β τ)
  waited : β → ℕ
  recorded : ε → ℕ

namespace Work

def empty : Work β ε τ := ⟨[], fun _ => 0, fun _ => 0⟩

def dispatch (w : Work β ε τ) (queue : β) (tag : τ) : Work β ε τ :=
  { w with items := w.items ++ [⟨queue, tag, w.items.length⟩] }

/-- Wait for all that was dispatched to the queue. -/
def Done (w : Work β ε τ) (x : Item β τ) : Prop := x.serial < w.waited x.queue

/-- Each item is numbered below the next one, and those with an event are covered by it, or done. -/
structure Sound (event : Item β τ → Option ε) (w : Work β ε τ) : Prop where
  numbered : ∀ x ∈ w.items, x.serial < w.items.length
  covered : ∀ x ∈ w.items, ∀ e, event x = some e → x.serial < w.recorded e ∨ w.Done x

/-- The same items, and what was done stays done. -/
structure Settles (w w' : Work β ε τ) : Prop where
  items : w'.items = w.items
  recorded : w'.recorded = w.recorded
  done : ∀ x ∈ w.items, w.Done x → w'.Done x

variable {w w' w'' : Work β ε τ} {event : Item β τ → Option ε}

theorem Settles.refl (w : Work β ε τ) : w.Settles w := ⟨rfl, rfl, fun _ _ h => h⟩

theorem Settles.trans (h : w.Settles w') (h' : w'.Settles w'') : w.Settles w'' :=
  ⟨h'.items.trans h.items, h'.recorded.trans h.recorded,
    fun x hx hdone => h'.done x (h.items ▸ hx) (h.done x hx hdone)⟩

theorem Settles.sound (h : w.Settles w') (hw : w.Sound event) : w'.Sound event := by
  refine ⟨fun x hx => ?_, fun x hx e he => ?_⟩ <;> rw [h.items] at hx
  · rw [h.items]
    exact hw.numbered x hx
  · rw [h.recorded]
    exact (hw.covered x hx e he).imp_right (h.done x hx)

theorem dispatch_numbered (h : w.Sound event) (queue : β) (tag : τ) :
    ∀ x ∈ (w.dispatch queue tag).items, x.serial < (w.dispatch queue tag).items.length := by
  intro x hx
  rw [dispatch, List.length_append, List.length_singleton]
  rcases List.mem_append.mp hx with hx | hx
  · exact (h.numbered x hx).trans (Nat.lt_succ_self _)
  · rw [List.mem_singleton.mp hx]
    exact Nat.lt_succ_self _

/-! ## Waiting -/

/-- Wait for all that was dispatched to the queue. -/
def synchronize [DecidableEq β] (w : Work β ε τ) (queue : β) : Work β ε τ :=
  { w with waited := Function.update w.waited queue w.items.length }

def record [DecidableEq ε] (w : Work β ε τ) (e : ε) : Work β ε τ :=
  { w with recorded := Function.update w.recorded e w.items.length }

/-- Wait for what the queue was given before the event. -/
def eventSynchronize [DecidableEq β] (w : Work β ε τ) (queue : β) (e : ε) : Work β ε τ :=
  { w with waited := Function.update w.waited queue (max (w.waited queue) (w.recorded e)) }

theorem synchronize_waited [DecidableEq β] (queue : β) :
    (w.synchronize queue).waited = Function.update w.waited queue w.items.length := rfl

theorem eventSynchronize_waited [DecidableEq β] (queue : β) (e : ε) : (w.eventSynchronize queue e).waited =
    Function.update w.waited queue (max (w.waited queue) (w.recorded e)) := rfl

theorem record_recorded [DecidableEq ε] (e : ε) :
    (w.record e).recorded = Function.update w.recorded e w.items.length := rfl

section Waiting

variable [DecidableEq β]

theorem done_synchronize {x : Item β τ} (h : x.serial < w.items.length) {queue : β}
    (hdone : w.Done x ∨ x.queue = queue) : (w.synchronize queue).Done x := by
  by_cases hq : x.queue = queue
  · rw [Done, synchronize_waited, hq, Function.update_self]
    exact h
  · rw [Done, synchronize_waited, Function.update_of_ne hq]
    exact hdone.resolve_right hq

theorem synchronize_settles (h : w.Sound event) (queue : β) : w.Settles (w.synchronize queue) :=
  ⟨rfl, rfl, fun x hx hdone => done_synchronize (h.numbered x hx) (.inl hdone)⟩

theorem eventSynchronize_settles (w : Work β ε τ) (queue : β) (e : ε) :
    w.Settles (w.eventSynchronize queue e) := by
  refine ⟨rfl, rfl, fun x _ hdone => ?_⟩
  by_cases hq : x.queue = queue
  · rw [Done, eventSynchronize_waited, hq, Function.update_self]
    rw [Done, hq] at hdone
    exact lt_max_of_lt_left hdone
  · rw [Done, eventSynchronize_waited, Function.update_of_ne hq]
    exact hdone

theorem done_eventSynchronize {x : Item β τ} {e : ε} (h : x.serial < w.recorded e ∨ w.Done x) :
    (w.eventSynchronize x.queue e).Done x := by
  rw [Done, eventSynchronize_waited, Function.update_self]
  exact h.elim lt_max_of_lt_right lt_max_of_lt_left

theorem dispatch_synchronize_sound (h : w.Sound event) (queue : β) (tag : τ) :
    ((w.dispatch queue tag).synchronize queue).Sound event := by
  have hnumbered := dispatch_numbered h queue tag
  refine ⟨hnumbered, fun x hx e he => ?_⟩
  rcases List.mem_append.mp hx with hold | hnew
  · exact (h.covered x hold e he).imp_right fun hdone =>
      done_synchronize (hnumbered x hx) (.inl hdone)
  · refine .inr (done_synchronize (hnumbered x hx) (.inr ?_))
    rw [List.mem_singleton.mp hnew]

/-- Waiting for one queue after the other, each for its items in `P`. -/
theorem foldl_settles {f : Work β ε τ → β → Work β ε τ} {P : Item β τ → Prop}
    (hstep : ∀ (w : Work β ε τ) (queue : β), w.Sound event → w.Settles (f w queue))
    (hdone : ∀ w : Work β ε τ, w.Sound event → ∀ x ∈ w.items, P x → (f w x.queue).Done x)
    (h : w.Sound event) (queues : List β) :
    w.Settles (queues.foldl f w) ∧
      ∀ x ∈ w.items, P x → x.queue ∈ queues → (queues.foldl f w).Done x := by
  induction queues generalizing w with
  | nil => exact ⟨.refl w, fun _ _ _ hqueue => absurd hqueue List.not_mem_nil⟩
  | cons queue queues ih =>
    have hfirst := hstep w queue h
    obtain ⟨hrest, hlater⟩ := ih (hfirst.sound h)
    refine ⟨hfirst.trans hrest, fun x hx hP hqueue => ?_⟩
    have hx' : x ∈ (f w queue).items := hfirst.items ▸ hx
    rcases List.mem_cons.mp hqueue with hhere | hqueue
    · exact hrest.done x hx' (hhere ▸ hdone w h x hx hP)
    · exact hlater x hx' hP hqueue

end Waiting

theorem record_sound [DecidableEq ε] (h : w.Sound event) (e : ε) : (w.record e).Sound event := by
  refine ⟨h.numbered, fun x hx e' he' => ?_⟩
  by_cases heq : e' = e
  · subst heq
    rw [record_recorded, Function.update_self]
    exact .inl (h.numbered x hx)
  · rw [record_recorded, Function.update_of_ne heq]
    exact h.covered x hx e' he'

theorem dispatch_sound [DecidableEq ε] (h : w.Sound event) (queue : β) (tag : τ)
    (hevent : ∀ e, event ⟨queue, tag, w.items.length⟩ = some e → w' = (w.dispatch queue tag).record e)
    (hnone : event ⟨queue, tag, w.items.length⟩ = none → w' = w.dispatch queue tag) :
    w'.Sound event := by
  have hnumbered := dispatch_numbered h queue tag
  cases hnew : event ⟨queue, tag, w.items.length⟩ with
  | some e =>
    rw [hevent e hnew]
    refine ⟨hnumbered, fun x hx e' he' => ?_⟩
    by_cases heq : e' = e
    · subst heq
      rw [record_recorded, Function.update_self]
      exact .inl (hnumbered x hx)
    · rw [record_recorded, Function.update_of_ne heq]
      rcases List.mem_append.mp hx with hx | hx
      · exact h.covered x hx e' he'
      · rw [List.mem_singleton.mp hx, hnew] at he'
        exact absurd (Option.some.inj he').symm heq
  | none =>
    rw [hnone hnew]
    refine ⟨hnumbered, fun x hx e' he' => ?_⟩
    rcases List.mem_append.mp hx with hx | hx
    · exact h.covered x hx e' he'
    · rw [List.mem_singleton.mp hx, hnew] at he'
      exact nomatch he'

theorem empty_sound : (empty : Work β ε τ).Sound event :=
  ⟨fun _ hx => absurd hx List.not_mem_nil, fun _ hx => absurd hx List.not_mem_nil⟩

end Work
end RocmFpx.AsyncWork
