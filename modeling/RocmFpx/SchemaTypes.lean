import Mathlib.Order.Bounds.Basic
import RocmFpx.SchemaBuild

/-!
The types that a schema node allows. The query walks the references with the names on its path as a
guard; what it finds is the least solution of the type equations, since a derivation never has to
pass through a reference twice.
-/

namespace RocmFpx
namespace JsonSchema

inductive ValueType
  | null
  | boolean
  | number
  | integer
  | string
  | array
  | object
  deriving DecidableEq

/-- `type_set::all` -/
def allTypes : Finset ValueType := {.null, .boolean, .number, .integer, .string, .array, .object}

theorem mem_allTypes (t : ValueType) : t ∈ allTypes := by
  cases t <;> decide

def jsonType : Json → ValueType
  | .null => .null
  | .boolean _ => .boolean
  | .integer _ => .integer
  | .float _ => .number
  | .string _ => .string
  | .array _ => .array
  | .object _ => .object

/-- The kinds that look at no other node. -/
def ownTypes : Schema → Finset ValueType
  | .any => allTypes
  | .null => {.null}
  | .boolean => {.boolean}
  | .number => {.number, .integer}
  | .integer _ _ => {.integer}
  | .string _ _ _ _ => {.string}
  | .array _ _ _ => {.array}
  | .tuple _ => {.array}
  | .object _ _ => {.object}
  | .const value => {jsonType value}
  | .enum values => values.foldl (fun types value => insert (jsonType value) types) ∅
  | _ => ∅

def uniteTypes (types : Schema → Option (Finset ValueType)) (children : List Schema) :
    Option (Finset ValueType) :=
  children.foldlM (fun all child => (types child).map fun own => all ∪ own) ∅

def intersectTypes (types : Schema → Option (Finset ValueType)) (children : List Schema) :
    Option (Finset ValueType) :=
  children.foldlM (fun all child => (types child).map fun own => all ∩ own) allTypes

/-- `value_types_impl`; `none` when it has not ended yet. -/
def valueTypesImpl (doc : Document) : ℕ → List String → Schema → Option (Finset ValueType)
  | 0, _, _ => none
  | fuel + 1, visited, .ref ref =>
    match doc.target ref with
    | none => some ∅
    | some target =>
      if ref ∈ visited then some ∅ else valueTypesImpl doc fuel (ref :: visited) target
  | fuel + 1, visited, .anyOf children => uniteTypes (valueTypesImpl doc fuel visited) children
  | fuel + 1, visited, .allOf children => intersectTypes (valueTypesImpl doc fuel visited) children
  | _ + 1, _, node => some (ownTypes node)

/-! ## The type equations -/

def Schema.Typed : Schema → Prop
  | .ref _ | .anyOf _ | .allOf _ => False
  | _ => True

structure Document.Solves (doc : Document) (σ : Schema → Finset ValueType) : Prop where
  own (node : Schema) : node.Typed → σ node = ownTypes node
  ref (ref : String) : σ (.ref ref) = ((doc.target ref).map σ).getD ∅
  anyOf (children : List Schema) (t : ValueType) :
    t ∈ σ (.anyOf children) ↔ ∃ child ∈ children, t ∈ σ child
  allOf (children : List Schema) (t : ValueType) :
    t ∈ σ (.allOf children) ↔ ∀ child ∈ children, t ∈ σ child

/-- Derivations of a type that do not use the names in `visited`. -/
inductive Document.Allows (doc : Document) (t : ValueType) (visited : List String) : Schema → Prop
  | own {node : Schema} : node.Typed → t ∈ ownTypes node → doc.Allows t visited node
  | ref {ref : String} {target : Schema} : doc.target ref = some target → ref ∉ visited →
    doc.Allows t visited target → doc.Allows t visited (.ref ref)
  | anyOf {children : List Schema} {child : Schema} : child ∈ children →
    doc.Allows t visited child → doc.Allows t visited (.anyOf children)
  | allOf {children : List Schema} : (∀ child ∈ children, doc.Allows t visited child) →
    doc.Allows t visited (.allOf children)

section Derivations

variable {doc : Document} {t : ValueType} {visited : List String}

theorem Document.Allows.of_visited {ref : String} {node : Schema}
    (h : doc.Allows t (ref :: visited) node) : doc.Allows t visited node := by
  induction h with
  | own htyped ht => exact .own htyped ht
  | ref htarget hnot _ ih => exact .ref htarget (fun hin => hnot (List.mem_cons_of_mem _ hin)) ih
  | anyOf hchild _ ih => exact .anyOf hchild ih
  | allOf _ ih => exact .allOf ih

/-- A derivation that passes through a reference holds one for its target that does not. -/
theorem Document.Allows.cut {ref : String} {target node : Schema}
    (htarget : doc.target ref = some target) (h : doc.Allows t visited node) :
    doc.Allows t (ref :: visited) node ∨ doc.Allows t (ref :: visited) target := by
  induction h with
  | own htyped ht => exact .inl (.own htyped ht)
  | @ref r node hnode hnot _ ih =>
    rcases ih with ih | ih
    · by_cases heq : r = ref
      · rw [heq, htarget] at hnode
        obtain rfl := Option.some.inj hnode
        exact .inr ih
      · exact .inl (.ref hnode (List.not_mem_cons_of_ne_of_not_mem heq hnot) ih)
    · exact .inr ih
  | anyOf hchild _ ih => exact ih.imp (.anyOf hchild) id
  | @allOf children _ ih =>
    by_cases hall : ∀ child ∈ children, doc.Allows t (ref :: visited) child
    · exact .inl (.allOf hall)
    · obtain ⟨child, hchild, hnot⟩ := not_forall₂.mp hall
      exact .inr ((ih child hchild).resolve_left hnot)

theorem Document.allows_own {node : Schema} (h : node.Typed) :
    doc.Allows t visited node ↔ t ∈ ownTypes node := by
  refine ⟨fun hall => ?_, .own h⟩
  cases hall with
  | own _ ht => exact ht
  | ref => exact h.elim
  | anyOf => exact h.elim
  | allOf => exact h.elim

theorem Document.allows_anyOf {children : List Schema} :
    doc.Allows t visited (.anyOf children) ↔ ∃ child ∈ children, doc.Allows t visited child := by
  refine ⟨fun h => ?_, fun ⟨child, hchild, h⟩ => .anyOf hchild h⟩
  cases h with
  | own htyped => exact htyped.elim
  | anyOf hchild h => exact ⟨_, hchild, h⟩

theorem Document.allows_allOf {children : List Schema} :
    doc.Allows t visited (.allOf children) ↔ ∀ child ∈ children, doc.Allows t visited child := by
  refine ⟨fun h => ?_, .allOf⟩
  cases h with
  | own htyped => exact htyped.elim
  | allOf h => exact h

theorem Document.not_allows_ref {ref : String} (h : doc.target ref = none ∨ ref ∈ visited) :
    ¬doc.Allows t visited (.ref ref) := by
  intro hall
  cases hall with
  | own htyped => exact htyped.elim
  | ref htarget hnot =>
    rcases h with h | h
    · rw [h] at htarget
      cases htarget
    · exact hnot h

theorem Document.allows_ref {ref : String} {target : Schema}
    (htarget : doc.target ref = some target) (hnot : ref ∉ visited) :
    doc.Allows t visited (.ref ref) ↔ doc.Allows t (ref :: visited) target := by
  refine ⟨fun h => ?_, fun h => .ref htarget hnot h.of_visited⟩
  cases h with
  | own htyped => exact htyped.elim
  | ref hnode _ h =>
    rw [htarget] at hnode
    obtain rfl := Option.some.inj hnode
    exact (h.cut htarget).elim id id

end Derivations

/-! ## The query -/

section Query

variable {doc : Document} {visited : List String}

theorem foldlM_uniteTypes {types : Schema → Option (Finset ValueType)}
    {P : Schema → ValueType → Prop} {children : List Schema} (all : Finset ValueType)
    (h : ∀ child ∈ children, ∃ own, types child = some own ∧ ∀ t, t ∈ own ↔ P child t) :
    ∃ union, children.foldlM (fun all child => (types child).map fun own => all ∪ own) all =
      some union ∧ ∀ t, t ∈ union ↔ t ∈ all ∨ ∃ child ∈ children, P child t := by
  induction children generalizing all with
  | nil => exact ⟨all, rfl, by simp⟩
  | cons child children ih =>
    rw [List.forall_mem_cons] at h
    obtain ⟨⟨own, hown, hmem⟩, hrest⟩ := h
    obtain ⟨union, hunion, hall⟩ := ih (all ∪ own) hrest
    refine ⟨union, by rw [List.foldlM_cons, hown]; exact hunion, fun t => ?_⟩
    rw [hall, Finset.mem_union, hmem, List.exists_mem_cons_iff, or_assoc]

theorem foldlM_intersectTypes {types : Schema → Option (Finset ValueType)}
    {P : Schema → ValueType → Prop} {children : List Schema} (all : Finset ValueType)
    (h : ∀ child ∈ children, ∃ own, types child = some own ∧ ∀ t, t ∈ own ↔ P child t) :
    ∃ inter, children.foldlM (fun all child => (types child).map fun own => all ∩ own) all =
      some inter ∧ ∀ t, t ∈ inter ↔ t ∈ all ∧ ∀ child ∈ children, P child t := by
  induction children generalizing all with
  | nil => exact ⟨all, rfl, by simp⟩
  | cons child children ih =>
    rw [List.forall_mem_cons] at h
    obtain ⟨⟨own, hown, hmem⟩, hrest⟩ := h
    obtain ⟨inter, hinter, hall⟩ := ih (all ∩ own) hrest
    refine ⟨inter, by rw [List.foldlM_cons, hown]; exact hinter, fun t => ?_⟩
    rw [hall, Finset.mem_inter, hmem, List.forall_mem_cons, and_assoc]

/-- With enough fuel the query ends with the types that have a derivation. -/
def Document.Computes (doc : Document) (visited : List String) (node : Schema) : Prop :=
  ∃ enough, ∀ fuel ≥ enough, ∃ types, valueTypesImpl doc fuel visited node = some types ∧
    ∀ t, t ∈ types ↔ doc.Allows t visited node

theorem computes_step {node : Schema} (enough : ℕ)
    (h : ∀ fuel ≥ enough, ∃ types, valueTypesImpl doc (fuel + 1) visited node = some types ∧
      ∀ t, t ∈ types ↔ doc.Allows t visited node) : doc.Computes visited node := by
  refine ⟨enough + 1, fun fuel hfuel => ?_⟩
  obtain ⟨fuel, rfl⟩ := Nat.exists_eq_add_of_le' (Nat.le_of_add_left_le hfuel)
  exact h fuel (by omega)

theorem exists_enough {children : List Schema} {P : ℕ → Schema → Prop}
    (h : ∀ child ∈ children, ∃ enough, ∀ fuel ≥ enough, P fuel child) :
    ∃ enough, ∀ fuel ≥ enough, ∀ child ∈ children, P fuel child := by
  induction children with
  | nil => exact ⟨0, nofun⟩
  | cons child children ih =>
    rw [List.forall_mem_cons] at h
    obtain ⟨first, hfirst⟩ := h.1
    obtain ⟨rest, hrest⟩ := ih h.2
    refine ⟨max first rest, fun fuel hfuel => List.forall_mem_cons.mpr ⟨?_, ?_⟩⟩
    · exact hfirst fuel ((le_max_left _ _).trans hfuel)
    · exact hrest fuel ((le_max_right _ _).trans hfuel)

theorem computes_own {node : Schema} (h : node.Typed) : doc.Computes visited node := by
  refine computes_step 0 fun fuel _ => ⟨ownTypes node, ?_, fun t => (doc.allows_own h).symm⟩
  cases node with
  | ref => exact h.elim
  | anyOf => exact h.elim
  | allOf => exact h.elim
  | _ => rfl

theorem computes_ref {ref : String}
    (h : ∀ target, doc.target ref = some target → ref ∉ visited →
      doc.Computes (ref :: visited) target) : doc.Computes visited (.ref ref) := by
  cases htarget : doc.target ref with
  | none =>
    refine computes_step 0 fun fuel _ => ⟨∅, by rw [valueTypesImpl, htarget], fun t => ?_⟩
    exact iff_of_false (Finset.notMem_empty t) (doc.not_allows_ref (.inl htarget))
  | some target =>
    by_cases hin : ref ∈ visited
    · refine computes_step 0 fun fuel _ => ⟨∅, ?_, fun t => ?_⟩
      · rw [valueTypesImpl, htarget]
        exact if_pos hin
      · exact iff_of_false (Finset.notMem_empty t) (doc.not_allows_ref (.inr hin))
    · obtain ⟨enough, hrun⟩ := h target htarget hin
      refine computes_step enough fun fuel hfuel => ?_
      obtain ⟨types, htypes, hmem⟩ := hrun fuel hfuel
      refine ⟨types, ?_, fun t => (hmem t).trans (doc.allows_ref htarget hin).symm⟩
      rw [valueTypesImpl, htarget]
      exact (if_neg hin).trans htypes

theorem computes_anyOf {children : List Schema}
    (h : ∀ child ∈ children, doc.Computes visited child) :
    doc.Computes visited (.anyOf children) := by
  obtain ⟨enough, hrun⟩ := exists_enough h
  refine computes_step enough fun fuel hfuel => ?_
  obtain ⟨union, hunion, hmem⟩ := foldlM_uniteTypes ∅ (hrun fuel hfuel)
  refine ⟨union, hunion, fun t => ?_⟩
  rw [hmem, doc.allows_anyOf]
  exact or_iff_right (Finset.notMem_empty t)

theorem computes_allOf {children : List Schema}
    (h : ∀ child ∈ children, doc.Computes visited child) :
    doc.Computes visited (.allOf children) := by
  obtain ⟨enough, hrun⟩ := exists_enough h
  refine computes_step enough fun fuel hfuel => ?_
  obtain ⟨inter, hinter, hmem⟩ := foldlM_intersectTypes allTypes (hrun fuel hfuel)
  refine ⟨inter, hinter, fun t => ?_⟩
  rw [hmem, doc.allows_allOf]
  exact and_iff_right (mem_allTypes t)

/-- The names with a node that the query has not entered. -/
def Document.unvisited (doc : Document) (visited : List String) : ℕ :=
  (doc.refs.keys.toFinset.filter fun ref => ref ∉ visited).card

theorem unvisited_cons_lt {ref : String} {target : Schema} (htarget : doc.target ref = some target)
    (hnot : ref ∉ visited) : doc.unvisited (ref :: visited) < doc.unvisited visited := by
  have hkey : ref ∈ doc.refs.keys.toFinset := by
    rw [List.mem_toFinset]
    exact AList.lookup_isSome.mp
      (Option.isSome_of_eq_some (Option.join_eq_some_iff.mp htarget))
  exact card_filter_lt hkey hnot (fun hin => hin List.mem_cons_self)
    fun r hfresh hin => hfresh (List.mem_cons_of_mem _ hin)

/-- Into a target the names run out, into a child the node gets smaller. -/
theorem walk_induction {P : List String → Schema → Prop} (doc : Document)
    (own : ∀ visited node, node.Typed → P visited node)
    (ref : ∀ visited ref, (∀ target, doc.target ref = some target → ref ∉ visited →
      P (ref :: visited) target) → P visited (.ref ref))
    (anyOf : ∀ visited children, (∀ child ∈ children, P visited child) →
      P visited (.anyOf children))
    (allOf : ∀ visited children, (∀ child ∈ children, P visited child) →
      P visited (.allOf children)) (visited : List String) (node : Schema) : P visited node := by
  induction hcount : doc.unvisited visited using Nat.strong_induction_on
    generalizing visited node with
  | _ count ihcount =>
    subst hcount
    induction hsize : sizeOf node using Nat.strong_induction_on generalizing node with
    | _ size ihsize =>
      subst hsize
      cases node with
      | ref r =>
        exact ref _ _ fun target htarget hnot =>
          ihcount _ (unvisited_cons_lt htarget hnot) _ target rfl
      | anyOf children =>
        refine anyOf _ _ fun child hchild => ihsize _ ?_ child rfl
        have hless := List.sizeOf_lt_of_mem hchild
        rw [Schema.anyOf.sizeOf_spec]
        omega
      | allOf children =>
        refine allOf _ _ fun child hchild => ihsize _ ?_ child rfl
        have hless := List.sizeOf_lt_of_mem hchild
        rw [Schema.allOf.sizeOf_spec]
        omega
      | _ => exact own _ _ trivial

theorem computes (doc : Document) : ∀ visited node, doc.Computes visited node :=
  walk_induction doc (fun _ _ => computes_own) (fun _ _ => computes_ref)
    (fun _ _ => computes_anyOf) fun _ _ => computes_allOf

end Query

/-! ## The least solution -/

open Classical in
/-- The types that have a derivation. -/
noncomputable def Document.derived (doc : Document) (node : Schema) : Finset ValueType :=
  allTypes.filter fun t => doc.Allows t [] node

theorem mem_derived {doc : Document} {node : Schema} {t : ValueType} :
    t ∈ doc.derived node ↔ doc.Allows t [] node := by
  classical
  exact Finset.mem_filter.trans (and_iff_right (mem_allTypes t))

theorem derived_solves (doc : Document) : doc.Solves doc.derived where
  own node h := Finset.ext fun t => mem_derived.trans (doc.allows_own h)
  ref ref := by
    refine Finset.ext fun t => mem_derived.trans ?_
    cases htarget : doc.target ref with
    | none => exact iff_of_false (doc.not_allows_ref (.inl htarget)) (Finset.notMem_empty t)
    | some target =>
      refine ⟨fun h => ?_, fun h => .ref htarget List.not_mem_nil (mem_derived.1 h)⟩
      exact mem_derived.2 ((doc.allows_ref htarget List.not_mem_nil).mp h).of_visited
  anyOf children t := by
    simp only [mem_derived, doc.allows_anyOf]
  allOf children t := by
    simp only [mem_derived, doc.allows_allOf]

theorem derived_le {doc : Document} {σ : Schema → Finset ValueType} (h : doc.Solves σ) :
    doc.derived ≤ σ := by
  intro node t ht
  have hall := mem_derived.1 ht
  clear ht
  induction hall with
  | @own node htyped hown => rwa [h.own node htyped]
  | ref htarget _ _ ih =>
    rw [h.ref, htarget]
    exact ih
  | anyOf hchild _ ih => exact (h.anyOf _ t).mpr ⟨_, hchild, ih⟩
  | allOf _ ih => exact (h.allOf _ t).mpr ih

/-- Building ends with every reference node bound to the node of its own target; then the query ends
at every node with its types in the least solution. -/
theorem schema_valueTypes (root : Json) :
    (∃ enough, ∀ fuel ≥ enough, fromJson root fuel ≠ .error .outOfFuel) ∧
    ∀ fuel doc, fromJson root fuel = .ok doc →
      (∀ ref, doc.Names ref → ∃ node, doc.target ref = some node ∧ BuiltFrom root ref node) ∧
      ∃ σ, IsLeast {σ | doc.Solves σ} σ ∧
        ∀ node, ∃ enough, ∀ fuel ≥ enough, valueTypesImpl doc fuel [] node = some (σ node) := by
  refine ⟨⟨_, fun fuel hfuel => fromJson_ne_outOfFuel hfuel⟩, fun fuel doc hdoc => ⟨?_, ?_⟩⟩
  · exact fun ref href => fromJson_bound hdoc href
  · refine ⟨doc.derived, ⟨derived_solves doc, fun σ hσ => derived_le hσ⟩, fun node => ?_⟩
    obtain ⟨enough, hrun⟩ := computes doc [] node
    refine ⟨enough, fun fuel hfuel => ?_⟩
    obtain ⟨types, htypes, hmem⟩ := hrun fuel hfuel
    rw [htypes]
    exact congrArg some (Finset.ext fun t => (hmem t).trans mem_derived.symm)

/-- The second alternative refers to itself. -/
def sampleSchema : Json :=
  .object [("anyOf", .array [.object [("type", .string "null")],
    .object [("$ref", .string "#/anyOf/1")]])]

theorem schema_valueTypes_sample : ∃ doc, fromJson sampleSchema 6 = .ok doc ∧
    doc.refs.keys = ["#/anyOf/1"] ∧
    (∀ ref, doc.Names ref →
      ∃ node, doc.target ref = some node ∧ BuiltFrom sampleSchema ref node) ∧
    ∃ σ, IsLeast {σ | doc.Solves σ} σ ∧
      ∀ node, ∃ enough, ∀ fuel ≥ enough, valueTypesImpl doc fuel [] node = some (σ node) := by
  have hkeys : ((fromJson sampleSchema 6).toOption.map fun doc => doc.refs.keys) =
      some ["#/anyOf/1"] := by
    decide +kernel
  cases hdoc : fromJson sampleSchema 6 with
  | error e =>
    rw [hdoc] at hkeys
    cases hkeys
  | ok doc =>
    rw [hdoc] at hkeys
    exact ⟨doc, rfl, Option.some.inj hkeys, (schema_valueTypes sampleSchema).2 6 doc hdoc⟩

end JsonSchema
end RocmFpx
