import Mathlib.Data.List.Nodup
import Mathlib.Data.List.Perm.Subperm

/-!
Depth-first walks over a successor function. A walk enters a node once, walks through its
successors, and then leaves it; the fuel bounds the depth. As many nodes as there are give fuel
enough, whether the successors have cycles or not.
-/

namespace RocmFpx
namespace DepthFirst

/-- The nodes in the order in which they were entered, and in that in which they were left. -/
structure Walk (α : Type*) where
  entered : List α
  left : List α

variable {α : Type*} (succ : α → List α)

def Reachable : α → α → Prop := Relation.ReflTransGen fun a b => b ∈ succ a

/-- What a walk from some nodes on adds. -/
structure Grows (roots : List α) (w w' : Walk α) (more : List α) : Prop where
  entered : w'.entered = w.entered ++ more
  left : ∃ later, w'.left = w.left ++ later ∧ later.Perm more
  nodup : more.Nodup
  new : ∀ a ∈ more, a ∉ w.entered
  reachable : ∀ a ∈ more, ∃ r ∈ roots, Reachable succ r a
  closed : ∀ a ∈ more, ∀ b ∈ succ a, b ∈ w'.entered
  roots_mem : ∀ r ∈ roots, r ∈ w'.entered

variable {succ} {roots : List α} {w w' w'' : Walk α} {more more' : List α} {a : α} {fuel : ℕ}

theorem Grows.mem (h : Grows succ roots w w' more) (ha : a ∈ w.entered) : a ∈ w'.entered := by
  rw [h.entered]
  exact List.mem_append_left _ ha

theorem Grows.isPrefix (h : Grows succ roots w w' more) : w.entered <+: w'.entered :=
  ⟨more, h.entered.symm⟩

theorem Grows.refl (w : Walk α) (h : ∀ r ∈ roots, r ∈ w.entered) : Grows succ roots w w [] where
  entered := (List.append_nil _).symm
  left := ⟨[], (List.append_nil _).symm, .refl _⟩
  nodup := List.nodup_nil
  new _ ha := (List.not_mem_nil ha).elim
  reachable _ ha := (List.not_mem_nil ha).elim
  closed _ ha := (List.not_mem_nil ha).elim
  roots_mem := h

theorem Grows.trans {roots' : List α} (h : Grows succ roots w w' more)
    (h' : Grows succ roots' w' w'' more') : Grows succ (roots ++ roots') w w'' (more ++ more') where
  entered := by rw [h'.entered, h.entered, List.append_assoc]
  left := by
    obtain ⟨later, hleft, hperm⟩ := h.left
    obtain ⟨later', hleft', hperm'⟩ := h'.left
    exact ⟨later ++ later', by rw [hleft', hleft, List.append_assoc], hperm.append hperm'⟩
  nodup := by
    refine List.nodup_append.mpr ⟨h.nodup, h'.nodup, ?_⟩
    rintro a ha b hb rfl
    refine h'.new a hb ?_
    rw [h.entered]
    exact List.mem_append_right _ ha
  new a ha := by
    rcases List.mem_append.mp ha with ha | ha
    · exact h.new a ha
    · exact fun hold => h'.new a ha (h.mem hold)
  reachable a ha := by
    rcases List.mem_append.mp ha with ha | ha
    · obtain ⟨r, hr, hreach⟩ := h.reachable a ha
      exact ⟨r, List.mem_append_left _ hr, hreach⟩
    · obtain ⟨r, hr, hreach⟩ := h'.reachable a ha
      exact ⟨r, List.mem_append_right _ hr, hreach⟩
  closed a ha b hb := by
    rcases List.mem_append.mp ha with ha | ha
    · exact h'.mem (h.closed a ha b hb)
    · exact h'.closed a ha b hb
  roots_mem r hr := by
    rcases List.mem_append.mp hr with hr | hr
    · exact h'.mem (h.roots_mem r hr)
    · exact h'.roots_mem r hr

theorem Grows.leave (hnew : a ∉ w.entered)
    (h : Grows succ (succ a) ⟨w.entered ++ [a], w.left⟩ w' more) :
    Grows succ [a] w ⟨w'.entered, w'.left ++ [a]⟩ (a :: more) where
  entered := by rw [h.entered, List.append_assoc]; rfl
  left := by
    obtain ⟨later, hleft, hperm⟩ := h.left
    refine ⟨later ++ [a], by rw [hleft, List.append_assoc], ?_⟩
    exact List.perm_append_comm.trans (hperm.cons a)
  nodup := List.nodup_cons.mpr ⟨fun ha => h.new a ha (by simp), h.nodup⟩
  new b hb := by
    rcases List.mem_cons.mp hb with rfl | hb
    · exact hnew
    · exact fun hold => h.new b hb (List.mem_append_left _ hold)
  reachable b hb := by
    refine ⟨a, List.mem_singleton_self a, ?_⟩
    rcases List.mem_cons.mp hb with rfl | hb
    · exact .refl
    · obtain ⟨r, hr, hreach⟩ := h.reachable b hb
      exact .head hr hreach
  closed b hb c hc := by
    rcases List.mem_cons.mp hb with rfl | hb
    · exact h.roots_mem c hc
    · exact h.closed b hb c hc
  roots_mem r hr := by
    rw [List.mem_singleton.mp hr]
    exact h.mem (by simp)

theorem foldlM_grows {f : Walk α → α → Option (Walk α)}
    (hf : ∀ w a w', f w a = some w' → ∃ more, Grows succ [a] w w' more)
    (h : roots.foldlM f w = some w') : ∃ more, Grows succ roots w w' more := by
  induction roots generalizing w with
  | nil =>
    obtain rfl := Option.some.inj h
    exact ⟨[], .refl w fun r hr => (List.not_mem_nil hr).elim⟩
  | cons a roots ih =>
    rw [List.foldlM_cons] at h
    obtain ⟨mid, hmid, hrest⟩ := Option.bind_eq_some_iff.mp h
    obtain ⟨more, hmore⟩ := hf w a mid hmid
    obtain ⟨more', hmore'⟩ := ih hrest
    exact ⟨more ++ more', hmore.trans hmore'⟩

/-! ## The walk -/

section
variable [DecidableEq α]

def visit (succ : α → List α) : ℕ → Walk α → α → Option (Walk α)
  | 0, w, a => if a ∈ w.entered then some w else none
  | fuel + 1, w, a =>
    if a ∈ w.entered then some w
    else do
      let w' ← (succ a).foldlM (visit succ fuel) ⟨w.entered ++ [a], w.left⟩
      some ⟨w'.entered, w'.left ++ [a]⟩

theorem visit_of_mem (h : a ∈ w.entered) : visit succ fuel w a = some w := by
  cases fuel with
  | zero => exact if_pos h
  | succ fuel => exact if_pos h

theorem visit_grows (h : visit succ fuel w a = some w') : ∃ more, Grows succ [a] w w' more := by
  induction fuel generalizing w a w' with
  | zero =>
    rw [visit] at h
    split_ifs at h with ha
    obtain rfl := Option.some.inj h
    exact ⟨[], .refl w fun r hr => List.mem_singleton.mp hr ▸ ha⟩
  | succ fuel ih =>
    rw [visit] at h
    split_ifs at h with ha
    · obtain rfl := Option.some.inj h
      exact ⟨[], .refl w fun r hr => List.mem_singleton.mp hr ▸ ha⟩
    · obtain ⟨mid, hmid, hleave⟩ := Option.bind_eq_some_iff.mp h
      obtain rfl := Option.some.inj hleave
      obtain ⟨more, hmore⟩ := foldlM_grows (fun w a w' => ih) hmid
      exact ⟨a :: more, hmore.leave ha⟩

theorem walk_grows (h : roots.foldlM (visit succ fuel) w = some w') :
    ∃ more, Grows succ roots w w' more := foldlM_grows (fun _ _ _ => visit_grows) h

end

/-! ## Fuel -/

section
variable {nodes : List α} (hclosed : ∀ a ∈ nodes, ∀ b ∈ succ a, b ∈ nodes)

include hclosed

theorem mem_of_reachable {b : α} (ha : a ∈ nodes) (h : Reachable succ a b) : b ∈ nodes := by
  induction h with
  | refl => exact ha
  | tail _ hb ih => exact hclosed _ ih _ hb

/-- The walk stays in a closed list of nodes. -/
structure Within (nodes : List α) (w : Walk α) : Prop where
  nodup : w.entered.Nodup
  subset : ∀ a ∈ w.entered, a ∈ nodes

theorem Within.grows (h : Within nodes w) (hgrows : Grows succ roots w w' more)
    (hroots : ∀ r ∈ roots, r ∈ nodes) : Within nodes w' where
  nodup := by
    rw [hgrows.entered]
    refine List.nodup_append.mpr ⟨h.nodup, hgrows.nodup, ?_⟩
    rintro a ha b hb rfl
    exact hgrows.new a hb ha
  subset a ha := by
    rw [hgrows.entered] at ha
    rcases List.mem_append.mp ha with ha | ha
    · exact h.subset a ha
    · obtain ⟨r, hr, hreach⟩ := hgrows.reachable a ha
      exact mem_of_reachable hclosed (hroots r hr) hreach

omit hclosed in
theorem Within.enter (h : Within nodes w) (ha : a ∈ nodes) (hnew : a ∉ w.entered) :
    Within nodes ⟨w.entered ++ [a], w.left⟩ where
  nodup := by
    refine List.nodup_append.mpr ⟨h.nodup, List.nodup_singleton a, ?_⟩
    rintro b hb c hc rfl
    exact hnew (List.mem_singleton.mp hc ▸ hb)
  subset b hb := by
    rcases List.mem_append.mp hb with hb | hb
    · exact h.subset b hb
    · exact List.mem_singleton.mp hb ▸ ha

theorem foldlM_isSome {f : Walk α → α → Option (Walk α)}
    (hgrows : ∀ w a w', f w a = some w' → ∃ more, Grows succ [a] w w' more)
    (hf : ∀ w a, Within nodes w → nodes.length ≤ fuel + w.entered.length → a ∈ nodes →
      ∃ w', f w a = some w')
    (h : Within nodes w) (hfuel : nodes.length ≤ fuel + w.entered.length)
    (hroots : ∀ r ∈ roots, r ∈ nodes) : ∃ w', roots.foldlM f w = some w' := by
  induction roots generalizing w with
  | nil => exact ⟨w, rfl⟩
  | cons a roots ih =>
    obtain ⟨ha, hroots⟩ := List.forall_mem_cons.mp hroots
    obtain ⟨mid, hmid⟩ := hf w a h hfuel ha
    obtain ⟨more, hmore⟩ := hgrows w a mid hmid
    have hwithin := h.grows hclosed hmore fun r hr => List.mem_singleton.mp hr ▸ ha
    have hlength : nodes.length ≤ fuel + mid.entered.length := by
      rw [hmore.entered, List.length_append]
      omega
    obtain ⟨w', hw'⟩ := ih hwithin hlength hroots
    exact ⟨w', by rw [List.foldlM_cons, hmid]; exact hw'⟩

theorem visit_isSome [DecidableEq α] (h : Within nodes w) (hfuel : nodes.length ≤ fuel + w.entered.length)
    (ha : a ∈ nodes) : ∃ w', visit succ fuel w a = some w' := by
  induction fuel generalizing w a with
  | zero =>
    by_cases hmem : a ∈ w.entered
    · exact ⟨w, visit_of_mem hmem⟩
    · -- one more node than the list has
      have hwithin := h.enter ha hmem
      have hle := (List.subperm_of_subset hwithin.nodup hwithin.subset).length_le
      rw [List.length_append, List.length_singleton] at hle
      omega
  | succ fuel ih =>
    by_cases hmem : a ∈ w.entered
    · exact ⟨w, visit_of_mem hmem⟩
    · have hlength : nodes.length ≤ fuel + (w.entered ++ [a]).length := by
        rw [List.length_append, List.length_singleton]
        omega
      obtain ⟨mid, hmid⟩ := foldlM_isSome hclosed (fun _ _ _ => visit_grows) (fun w a => ih)
        (h.enter ha hmem) hlength (hclosed a ha)
      exact ⟨_, by rw [visit, if_neg hmem, hmid]; rfl⟩

theorem walk_isSome [DecidableEq α] (hfuel : nodes.length ≤ fuel) (hroots : ∀ r ∈ roots, r ∈ nodes) :
    ∃ w more, roots.foldlM (visit succ fuel) ⟨[], []⟩ = some w ∧
      Grows succ roots ⟨[], []⟩ w more := by
  have hempty : Within nodes ⟨[], []⟩ := ⟨List.nodup_nil, fun _ ha => (List.not_mem_nil ha).elim⟩
  obtain ⟨w, hw⟩ := foldlM_isSome hclosed (fun _ _ _ => visit_grows)
    (fun _ _ => visit_isSome hclosed) hempty hfuel hroots
  obtain ⟨more, hmore⟩ := walk_grows hw
  exact ⟨w, more, hw, hmore⟩

end

theorem Grows.mem_iff (h : Grows succ roots ⟨[], []⟩ w more) :
    a ∈ w.entered ↔ ∃ r ∈ roots, Reachable succ r a := by
  have hentered : w.entered = more := by rw [h.entered, List.nil_append]
  constructor
  · intro ha
    exact h.reachable a (hentered ▸ ha)
  · rintro ⟨r, hr, hreach⟩
    induction hreach with
    | refl => exact h.roots_mem r hr
    | tail _ hb ih => exact h.closed _ (hentered ▸ ih) _ hb

end DepthFirst
end RocmFpx
