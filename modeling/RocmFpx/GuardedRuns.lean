import Mathlib.Tactic.Common

/-!
Runs of a machine whose steps may be refused. `step s a = none` stands for an
aborted call; a run is a list of actions. `Along P` says that `P` holds in every
state the run reaches, `Meets C` that every executed step is taken from a state
and with an action related by `C`.
-/

namespace RocmFpx.GuardedRuns

variable {σ α : Type*} (step : σ → α → Option σ)

def run : σ → List α → Option σ
  | s, [] => some s
  | s, a :: as => (step s a).bind fun s' => run s' as

/-- `P` holds in the start state and in every state reached from it. -/
def Along (P : σ → Prop) : σ → List α → Prop
  | s, [] => P s
  | s, a :: as => P s ∧ ∀ s', step s a = some s' → Along P s' as

def Meets (C : σ → α → Prop) : σ → List α → Prop
  | _, [] => True
  | s, a :: as => ∀ s', step s a = some s' → C s a ∧ Meets C s' as

variable {step}

theorem Along.start {P : σ → Prop} {s : σ} {as : List α} (h : Along step P s as) : P s := by
  cases as with
  | nil => exact h
  | cons a as => exact h.1

theorem Along.final {P : σ → Prop} {s s' : σ} {as : List α} (h : Along step P s as)
    (hrun : run step s as = some s') : P s' := by
  induction as generalizing s with
  | nil =>
    cases hrun
    exact h
  | cons a as ih =>
    obtain ⟨t, ht, hrun⟩ := Option.bind_eq_some_iff.mp hrun
    exact ih (h.2 t ht) hrun

theorem Along.mono {P Q : σ → Prop} (imp : ∀ s, P s → Q s) {s : σ} {as : List α}
    (h : Along step P s as) : Along step Q s as := by
  induction as generalizing s with
  | nil => exact imp s h
  | cons a as ih => exact ⟨imp s h.1, fun s' hs' => ih (h.2 s' hs')⟩

/-- A condition on the actions alone. -/
theorem meets_of_forall {C : α → Prop} {as : List α} (h : ∀ a ∈ as, C a) (s : σ) :
    Meets step (fun _ a => C a) s as := by
  induction as generalizing s with
  | nil => trivial
  | cons a as ih =>
    obtain ⟨ha, has⟩ := List.forall_mem_cons.mp h
    exact fun s' _ => ⟨ha, ih has s'⟩

theorem Meets.and {C D : σ → α → Prop} {s : σ} {as : List α} (hC : Meets step C s as)
    (hD : Meets step D s as) : Meets step (fun s a => C s a ∧ D s a) s as := by
  induction as generalizing s with
  | nil => trivial
  | cons a as ih =>
    exact fun s' hs' => ⟨⟨(hC s' hs').1, (hD s' hs').1⟩, ih (hC s' hs').2 (hD s' hs').2⟩

/-- What an invariant makes of a condition. -/
theorem Meets.imp {P : σ → Prop} {C D : σ → α → Prop} (imp : ∀ s a, P s → C s a → D s a) {s : σ}
    {as : List α} (hP : Along step P s as) (hC : Meets step C s as) : Meets step D s as := by
  induction as generalizing s with
  | nil => trivial
  | cons a as ih =>
    exact fun s' hs' => ⟨imp s a hP.1 (hC s' hs').1, ih (hP.2 s' hs') (hC s' hs').2⟩

/-- The invariant rule: what every admissible step keeps, every run of admissible
steps keeps. -/
theorem along_of_meets {P : σ → Prop} {C : σ → α → Prop}
    (keep : ∀ s a s', P s → C s a → step s a = some s' → P s')
    {s : σ} {as : List α} (hs : P s) (h : Meets step C s as) : Along step P s as := by
  induction as generalizing s with
  | nil => exact hs
  | cons a as ih =>
    refine ⟨hs, fun s' hs' => ?_⟩
    obtain ⟨hC, hrest⟩ := h s' hs'
    exact ih (keep s a s' hs hC hs') hrest

/-- What every step keeps, every run keeps. -/
theorem along_of_step {P : σ → Prop} (keep : ∀ s a s', P s → step s a = some s' → P s')
    {s : σ} (as : List α) (hs : P s) : Along step P s as := by
  induction as generalizing s with
  | nil => exact hs
  | cons a as ih => exact ⟨hs, fun s' hs' => ih (keep s a s' hs hs')⟩

theorem meets_of_along {I P : σ → Prop} {C : σ → α → Prop}
    (keep : ∀ s a s', I s → step s a = some s' → I s')
    (allow : ∀ s a s', I s → step s a = some s' → P s' → C s a)
    {s : σ} {as : List α} (hI : I s) (h : Along step P s as) : Meets step C s as := by
  induction as generalizing s with
  | nil => trivial
  | cons a as ih =>
    intro s' hs'
    have hrest := h.2 s' hs'
    exact ⟨allow s a s' hI hs' hrest.start, ih (keep s a s' hI hs') hrest⟩

/-- The exact version for runs of actions in `A`: where a step from a state with the
invariant `I` keeps `P` precisely when `C` admits it, a run stays in `P` precisely when
all its steps are admitted. -/
theorem along_iff_meets_among {A : α → Prop} {I P : σ → Prop} {C : σ → α → Prop}
    (keep : ∀ s a s', A a → I s → step s a = some s' → I s')
    (exact_keep : ∀ s a s', A a → I s → P s → step s a = some s' → (P s' ↔ C s a))
    {s : σ} {as : List α} (hA : ∀ a ∈ as, A a) (hI : I s) (hs : P s) :
    Along step P s as ↔ Meets step C s as := by
  induction as generalizing s with
  | nil => exact iff_of_true hs trivial
  | cons a as ih =>
    obtain ⟨ha, has⟩ := List.forall_mem_cons.mp hA
    refine (and_iff_right hs).trans (forall₂_congr fun s' hs' => ?_)
    have hI' := keep s a s' ha hI hs'
    have hexact := exact_keep s a s' ha hI hs hs'
    constructor
    · exact fun h => ⟨hexact.mp h.start, (ih has hI' h.start).mp h⟩
    · exact fun h => (ih has hI' (hexact.mpr h.1)).mpr h.2

theorem along_iff_meets_within {I P : σ → Prop} {C : σ → α → Prop}
    (keep : ∀ s a s', I s → step s a = some s' → I s')
    (exact_keep : ∀ s a s', I s → P s → step s a = some s' → (P s' ↔ C s a))
    {s : σ} {as : List α} (hI : I s) (hs : P s) : Along step P s as ↔ Meets step C s as :=
  along_iff_meets_among (A := fun _ => True) (fun s a s' _ => keep s a s')
    (fun s a s' _ => exact_keep s a s') (fun _ _ => trivial) hI hs

theorem along_iff_meets {P : σ → Prop} {C : σ → α → Prop}
    (exact_keep : ∀ s a s', P s → step s a = some s' → (P s' ↔ C s a))
    {s : σ} {as : List α} (hs : P s) : Along step P s as ↔ Meets step C s as :=
  along_iff_meets_within (I := fun _ => True) (fun _ _ _ _ _ => trivial)
    (fun s a s' _ => exact_keep s a s') trivial hs

end RocmFpx.GuardedRuns
