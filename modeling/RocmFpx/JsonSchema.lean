import Mathlib.Data.List.AList
import Mathlib.Data.Finset.Card
import Mathlib.Tactic.Ring

/-!
The builder of schema nodes from a JSON schema. A `$ref` is reserved under its name before its
target is built, so every name is built once, and every reference node gets the node of its name.
-/

namespace RocmFpx
namespace JsonSchema

/-- JSON values; the names in an object are distinct. -/
inductive Json
  | null
  | boolean (b : Bool)
  | integer (n : ℤ)
  | float (d : ℚ)
  | string (s : String)
  | array (items : List Json)
  | object (fields : List (String × Json))

abbrev Fields := List (String × Json)

inductive Format
  | none
  | uuid
  | date
  | time
  | dateTime

/-- The nodes. A reference stands for the node that the document holds under its name. -/
inductive Schema
  | any
  | ref (ref : String)
  | anyOf (children : List Schema)
  | allOf (children : List Schema)
  | const (value : Json)
  | enum (values : List Json)
  | null
  | boolean
  | number
  | integer (minimum maximum : ℤ)
  | string (pattern : String) (format : Format) (minLength maxLength : ℤ)
  | array (items : Schema) (minItems maxItems : ℤ)
  | tuple (items : List Schema)
  | object (properties : List (String × Schema × Bool)) (additionalProperties : Option Schema)

inductive Failure
  | message (what : String)
  /-- The builder has not ended yet. -/
  | outOfFuel

/-- `refs_`; a name that is only reserved has no node. -/
abbrev Refs := AList fun _ : String => Option Schema

abbrev Build := StateT Refs (Except Failure)

structure Document where
  root : Schema
  refs : Refs

/-- What the reference nodes of a name are bound to. -/
def Document.target (doc : Document) (ref : String) : Option Schema := (doc.refs.lookup ref).join

/-! ## Keywords -/

def fail {α : Type} (path msg : String) : Except String α :=
  .error ("JSON schema error at " ++ path ++ ": " ++ msg)

def lift {α : Type} (e : Except String α) : Build α := fun s =>
  match e with
  | .ok a => .ok (a, s)
  | .error what => .error (.message what)

/-- The first of the keys that is there, and its value. -/
def firstKey (fields : Fields) (keys : List String) : Option (String × Json) :=
  keys.findSome? fun key => (fields.lookup key).map fun value => (key, value)

/-- `schema[key] = value` -/
def setKey (key : String) (value : Json) : Fields → Fields
  | [] => [(key, value)]
  | (k, v) :: fields => if k = key then (k, value) :: fields else (k, v) :: setKey key value fields

def getCount (fields : Fields) (key path : String) (default : ℤ) : Except String ℤ :=
  match fields.lookup key with
  | none => .ok default
  | some (.integer n) =>
    if n.bmod (2 ^ 32) < 0 then fail path (key ++ " must be a non-negative integer")
    else .ok (n.bmod (2 ^ 32))
  | some _ => fail path (key ++ " must be a non-negative integer")

/-- A value beyond `int64_t` is undefined in the source and rejected here. -/
def toInt64 (n : ℤ) : Except String ℤ :=
  if -2 ^ 63 ≤ n ∧ n < 2 ^ 63 then .ok n else .error "undefined"

/-- A fractional bound is rounded inwards. -/
def getBound (value : Json) (key path : String) (roundUp : Bool) : Except String ℤ :=
  match value with
  | .integer n => .ok (n.bmod (2 ^ 64))
  | .float d => toInt64 (if roundUp then d.ceil else d.floor)
  | _ => fail path (key ++ " must be a number")

def getFormat (fields : Fields) (path : String) : Except String Format :=
  match fields.lookup "format" with
  | none => .ok .none
  | some (.string format) =>
    .ok (if format = "date" then .date
      else if format = "time" then .time
      else if format = "date-time" then .dateTime
      else if format ∈ ["uuid", "uuid1", "uuid2", "uuid3", "uuid4", "uuid5"] then .uuid
      else .none)
  | some _ => fail path "format must be a string"

/-- `std::stoull`; `none` where it throws. -/
def stoull (s : String) : Option ℕ :=
  let signed := s.toList.dropWhile fun c => c = ' ' ∨ 9 ≤ c.toNat ∧ c.toNat ≤ 13
  let unsigned := if signed.head? = some '-' ∨ signed.head? = some '+' then signed.tail else signed
  let digits := unsigned.takeWhile Char.isDigit
  let n := digits.foldl (fun n c => 10 * n + (c.toNat - 48)) 0
  if digits = [] ∨ 2 ^ 64 ≤ n then none
  else some (if signed.head? = some '-' then (2 ^ 64 - n) % 2 ^ 64 else n)

/-- The loop over the tokens of a reference. -/
def resolveTokens (ref path : String) : List String → Json → Except String Json
  | [], target => .ok target
  | sel :: tokens, .object fields =>
    match fields.lookup sel with
    | some target => resolveTokens ref path tokens target
    | none => fail path ("cannot resolve $ref " ++ ref ++ ", " ++ sel ++ " not found")
  | sel :: tokens, .array items =>
    match items[(stoull sel).getD items.length]? with
    | some target => resolveTokens ref path tokens target
    | none => fail path ("cannot resolve $ref " ++ ref ++ ", " ++ sel ++ " is out of range")
  | sel :: _, _ => fail path ("cannot resolve $ref " ++ ref ++ ", " ++ sel ++ " not found")

def resolveRef (root : Json) (ref path : String) : Except String Json :=
  resolveTokens ref path ((ref.toList.tail.splitOn '/').map String.ofList).tail root

def getPattern (fields : Fields) (path : String) : Except String String :=
  match fields.lookup "pattern" with
  | none => .ok ""
  | some (.string pattern) => .ok pattern
  | some _ => fail path "pattern must be a string"

def buildString (fields : Fields) (path : String) : Except String Schema := do
  let pattern ← getPattern fields path
  let format ← getFormat fields path
  let minLength ← getCount fields "minLength" path 0
  let maxLength ← getCount fields "maxLength" path (-1)
  .ok (.string pattern format minLength maxLength)

/-- A lower limit (`roundUp`) or an upper one; an exclusive one is folded in. -/
def getLimit (fields : Fields) (key exclusiveKey path : String) (roundUp : Bool) (default : ℤ) :
    Except String ℤ :=
  match fields.lookup key, fields.lookup exclusiveKey with
  | some value, _ => getBound value key path roundUp
  | none, some value => do
    let bound ← getBound value exclusiveKey path (!roundUp)
    toInt64 (if roundUp then bound + 1 else bound - 1)
  | none, none => .ok default

def buildInteger (fields : Fields) (path : String) : Except String Schema := do
  let minimum ← getLimit fields "minimum" "exclusiveMinimum" path true (-2 ^ 63)
  let maximum ← getLimit fields "maximum" "exclusiveMaximum" path false (2 ^ 63 - 1)
  .ok (.integer minimum maximum)

/-! ## Nodes -/

section Nodes

variable (root : Json) (build : Json → String → Build Schema)

def buildRef (value : Json) (path : String) : Build Schema :=
  match value with
  | .string ref =>
    if ref.toList.take 2 = ['#', '/'] then fun refs =>
      match refs.lookup ref with
      | some _ => .ok (.ref ref, refs)
      | none =>
        -- reserve the key first, so that a cycle back to this $ref stops here
        let built := (do build (← lift (resolveRef root ref path)) ref) (refs.insert ref none)
        built.map fun (node, refs) => (.ref ref, refs.insert ref (some node))
    else
      lift (fail path ("unsupported $ref " ++ ref ++
        ", only references into the same document are supported"))
  | _ => lift (fail path "$ref must be a string")

def buildList (path : String) : ℕ → List Json → Build (List Schema)
  | _, [] => pure []
  | i, item :: items => do
    let node ← build item (path ++ "/" ++ toString i)
    let nodes ← buildList path (i + 1) items
    pure (node :: nodes)

def buildAlternatives (alts : Json) (path : String) : Build (List Schema) :=
  match alts with
  | .array [] => lift (fail path "must not be empty")
  | .array alts => buildList build path 0 alts
  | _ => lift (fail path "must be an array of schemas")

def buildAllOf (alts : Json) (path : String) : Build Schema := do
  let nodes ← buildAlternatives build alts (path ++ "/allOf")
  pure (.allOf nodes)

def requiredNames (fields : Fields) : List String :=
  match fields.lookup "required" with
  | some (.array names) => names.filterMap fun
    | .string name => some name
    | _ => none
  | _ => []

def buildProperties (required : List String) (path : String) :
    Fields → Build (List (String × Schema × Bool))
  | [] => pure []
  | (name, prop) :: properties => do
    let node ← build prop (path ++ "/properties/" ++ name)
    let nodes ← buildProperties required path properties
    pure ((name, node, decide (name ∈ required)) :: nodes)

def buildAdditional (fields : Fields) (path : String) : Build (Option Schema) :=
  match fields.lookup "additionalProperties" with
  | some (.boolean additional) => pure (if additional then some .any else none)
  | some (.object additional) => do
    let node ← build (.object additional) (path ++ "/additionalProperties")
    pure (some node)
  | some _ => lift (fail path "additionalProperties must be a boolean or a schema")
  | none => pure (if (fields.lookup "properties").isNone then some .any else none)

def buildAllProperties (fields : Fields) (path : String) :
    Build (List (String × Schema × Bool)) :=
  match fields.lookup "properties" with
  | none => pure []
  | some (.object properties) => buildProperties build (requiredNames fields) path properties
  | some _ => lift (fail path "properties must be an object")

def buildObject (fields : Fields) (path : String) : Build Schema := do
  let properties ← buildAllProperties build fields path
  let additional ← buildAdditional build fields path
  pure (.object properties additional)

def countedArray (fields : Fields) (path : String) (items : Schema) : Build Schema := do
  let minItems ← lift (getCount fields "minItems" path 0)
  let maxItems ← lift (getCount fields "maxItems" path (-1))
  pure (.array items minItems maxItems)

def buildArray (fields : Fields) (path : String) : Build Schema :=
  match firstKey fields ["items", "prefixItems"] with
  | some (key, .array items) => do
    let nodes ← buildList build (path ++ "/" ++ key) 0 items
    pure (.tuple nodes)
  | some (key, items) => do
    let node ← build items (path ++ "/" ++ key)
    countedArray fields path node
  | none => countedArray fields path .any

/-- One node for each type of a type array. -/
def buildTypes (fields : Fields) (path : String) : ℕ → List Json → Build (List Schema)
  | _, [] => pure []
  | i, t :: types => do
    let node ← build (.object (setKey "type" t fields)) (path ++ "/type/" ++ toString i)
    let nodes ← buildTypes fields path (i + 1) types
    pure (node :: nodes)

def hasProperties (fields : Fields) : Bool :=
  (fields.lookup "properties").isSome ||
    match fields.lookup "additionalProperties" with
    | some (.boolean true) | none => false
    | some _ => true

/-- Without a type the structural keywords decide. -/
def buildUntyped (fields : Fields) (path : String) : Build Schema :=
  if hasProperties fields then buildObject build fields path
  else
    match fields.lookup "allOf" with
    | some alts => buildAllOf build alts path
    | none =>
      if (firstKey fields ["items", "prefixItems"]).isSome then buildArray build fields path
      else if (firstKey fields ["pattern", "minLength", "maxLength"]).isSome then
        lift (buildString fields path)
      else
        lift (do
          match ← getFormat fields path with
          | .none => .ok .any
          | _ => buildString fields path)

def buildNamed (fields : Fields) (name path : String) : Build Schema :=
  match name, fields.lookup "allOf" with
  | "object", some alts =>
    if hasProperties fields then buildObject build fields path else buildAllOf build alts path
  | "object", none => buildObject build fields path
  | "string", some alts => buildAllOf build alts path
  | "string", none => lift (buildString fields path)
  | "array", _ => buildArray build fields path
  | "integer", _ => lift (buildInteger fields path)
  | "number", _ => pure .number
  | "boolean", _ => pure .boolean
  | "null", _ => pure .null
  | _, _ => lift (fail path ("unrecognized type " ++ name))

def buildTyped (fields : Fields) (type : Json) (path : String) : Build Schema :=
  match fields.lookup "const", fields.lookup "enum", type with
  | some value, _, _ => pure (.const value)
  | none, some (.array (value :: values)), _ => pure (.enum (value :: values))
  | none, some _, _ => lift (fail path "enum must be a non-empty array")
  | none, none, .null | none, none, .string "" => buildUntyped build fields path
  | none, none, .string name => buildNamed build fields name path
  | none, none, _ => lift (fail path "type must be a string or an array of strings")

/-- `build_node`, with itself as a parameter. -/
def buildStep (schema : Json) (path : String) : Build Schema :=
  match schema with
  | .object fields =>
    match fields.lookup "$ref" with
    | some value => buildRef root build value path
    | none =>
      match firstKey fields ["oneOf", "anyOf"] with
      | some (key, alts) => do
        let nodes ← buildAlternatives build alts (path ++ "/" ++ key)
        pure (.anyOf nodes)
      | none =>
        match (fields.lookup "type").getD .null with
        | .array [] => lift (fail path "type must not be empty")
        | .array types => do
          let nodes ← buildTypes build fields path 0 types
          pure (.anyOf nodes)
        | type => buildTyped build fields type path
  | _ => lift (fail path "schema must be an object")

end Nodes

def buildNode (root : Json) : ℕ → Json → String → Build Schema
  | 0 => fun _ _ _ => .error .outOfFuel
  | fuel + 1 => buildStep root (buildNode root fuel)

/-- `common_chat_schema_from_json` -/
def fromJson (root : Json) (fuel : ℕ) : Except Failure Document :=
  (buildNode root fuel root "#" ∅).map fun built => ⟨built.1, built.2⟩

/-! ## Parts -/

mutual

/-- The strings inside a value. -/
def Json.strings : Json → List String
  | .string s => [s]
  | .array items => stringsOfItems items
  | .object fields => stringsOfFields fields
  | _ => []

def stringsOfItems : List Json → List String
  | [] => []
  | item :: items => item.strings ++ stringsOfItems items

def stringsOfFields : List (String × Json) → List String
  | [] => []
  | (_, value) :: fields => value.strings ++ stringsOfFields fields

end

/-- A smaller value with no other strings. -/
def Part (a b : Json) : Prop := a.strings ⊆ b.strings ∧ sizeOf a < sizeOf b

theorem Part.trans {a b c : Json} (h : Part a b) (h' : Part b c) : Part a c :=
  ⟨fun _ hs => h'.1 (h.1 hs), h.2.trans h'.2⟩

theorem strings_subset_items {item : Json} {items : List Json} (h : item ∈ items) :
    item.strings ⊆ stringsOfItems items := by
  induction items with
  | nil => cases h
  | cons first items ih =>
    rw [stringsOfItems]
    rcases List.mem_cons.mp h with rfl | h
    · exact List.subset_append_left _ _
    · exact fun s hs => List.mem_append_right _ (ih h hs)

theorem part_array {item : Json} {items : List Json} (h : item ∈ items) :
    Part item (.array items) := by
  refine ⟨?_, ?_⟩
  · rw [Json.strings]
    exact strings_subset_items h
  · have hsize := List.sizeOf_lt_of_mem h
    rw [Json.array.sizeOf_spec]
    omega

theorem part_field {key : String} {value : Json} {fields : Fields} (h : (key, value) ∈ fields) :
    Part value (.object fields) := by
  refine ⟨?_, ?_⟩
  · rw [Json.strings]
    induction fields with
    | nil => cases h
    | cons first fields ih =>
      obtain ⟨k, v⟩ := first
      rw [stringsOfFields]
      rcases List.mem_cons.mp h with heq | h
      · obtain ⟨rfl, rfl⟩ := Prod.mk.inj heq
        exact List.subset_append_left _ _
      · exact fun s hs => List.mem_append_right _ (ih h hs)
  · have hsize := List.sizeOf_lt_of_mem h
    rw [Prod.mk.sizeOf_spec] at hsize
    rw [Json.object.sizeOf_spec]
    omega

theorem mem_of_lookup {key : String} {value : Json} {fields : Fields}
    (h : fields.lookup key = some value) : (key, value) ∈ fields := by
  induction fields with
  | nil => cases h
  | cons first fields ih =>
    obtain ⟨k, v⟩ := first
    rw [List.lookup_cons] at h
    split at h
    · next heq =>
      rw [eq_of_beq heq, Option.some.inj h]
      exact List.mem_cons_self
    · exact List.mem_cons_of_mem _ (ih h)

theorem part_lookup {key : String} {value : Json} {fields : Fields}
    (h : fields.lookup key = some value) : Part value (.object fields) :=
  part_field (mem_of_lookup h)

theorem part_firstKey {keys : List String} {key : String} {value : Json} {fields : Fields}
    (h : firstKey fields keys = some (key, value)) : Part value (.object fields) := by
  obtain ⟨k, -, hk⟩ := List.exists_of_findSome?_eq_some h
  obtain ⟨v, hv, heq⟩ := Option.map_eq_some_iff.mp hk
  obtain ⟨rfl, rfl⟩ := Prod.mk.inj heq
  exact part_lookup hv

/-- An object with a value replaced by a part of it. -/
theorem part_setKey {key : String} {value value' : Json} {fields : Fields}
    (h : fields.lookup key = some value) (hpart : Part value' value) :
    Part (.object (setKey key value' fields)) (.object fields) := by
  unfold Part
  rw [Json.strings, Json.strings, Json.object.sizeOf_spec, Json.object.sizeOf_spec]
  induction fields with
  | nil => cases h
  | cons first fields ih =>
    obtain ⟨k, v⟩ := first
    rw [List.lookup_cons] at h
    rw [setKey]
    by_cases heq : k = key
    · rw [heq, beq_self_eq_true] at h
      obtain rfl := Option.some.inj h
      rw [if_pos heq, stringsOfFields, stringsOfFields]
      refine ⟨List.append_subset.mpr ⟨fun _ hs => List.mem_append_left _ (hpart.1 hs),
        List.subset_append_right _ _⟩, ?_⟩
      have hsize := hpart.2
      simp only [List.cons.sizeOf_spec, Prod.mk.sizeOf_spec]
      omega
    · rw [beq_false_of_ne (Ne.symm heq)] at h
      obtain ⟨hstrings, hsize⟩ := ih h
      rw [if_neg heq, stringsOfFields, stringsOfFields]
      refine ⟨List.append_subset.mpr ⟨List.subset_append_left _ _,
        fun _ hs => List.mem_append_right _ (hstrings hs)⟩, ?_⟩
      simp only [List.cons.sizeOf_spec]
      omega

theorem resolveTokens_part {ref path : String} {tokens : List String} {root target : Json}
    (h : resolveTokens ref path tokens root = .ok target) :
    target.strings ⊆ root.strings ∧ sizeOf target ≤ sizeOf root := by
  induction tokens generalizing root with
  | nil =>
    obtain rfl := Except.ok.inj h
    exact ⟨List.Subset.refl _, le_rfl⟩
  | cons sel tokens ih =>
    have hstep : ∀ next, Part next root → resolveTokens ref path tokens next = .ok target →
        target.strings ⊆ root.strings ∧ sizeOf target ≤ sizeOf root := fun next hpart hnext =>
      ⟨fun _ hs => hpart.1 ((ih hnext).1 hs), (ih hnext).2.trans hpart.2.le⟩
    rw [resolveTokens.eq_def] at h
    split at h
    · cases ‹_ :: _ = []›
    · next fields heq =>
      cases heq
      split at h
      · next next hlookup => exact hstep next (part_lookup hlookup) h
      · cases h
    · next items heq =>
      cases heq
      split at h
      · next next hget => exact hstep next (part_array (List.mem_of_getElem? hget)) h
      · cases h
    · cases h

end JsonSchema
end RocmFpx
