import RocmFpx.Fallible
import RocmFpx.JsonSchema

/-!
Building ends, since every nested reference reserves one more of the strings in the document. A step
of the builder keeps the names it finds, and the names it adds have got the nodes of their targets.
-/

namespace RocmFpx
namespace JsonSchema

variable {α β : Type} {root : Json}

mutual

/-- The names of the reference nodes inside a node. -/
def Schema.refs : Schema → List String
  | .ref ref => [ref]
  | .anyOf children => refsOfList children
  | .allOf children => refsOfList children
  | .array items _ _ => items.refs
  | .tuple items => refsOfList items
  | .object properties additional => refsOfProperties properties ++ refsOfOption additional
  | _ => []

def refsOfList : List Schema → List String
  | [] => []
  | node :: nodes => node.refs ++ refsOfList nodes

def refsOfProperties : List (String × Schema × Bool) → List String
  | [] => []
  | (_, node, _) :: properties => node.refs ++ refsOfProperties properties

def refsOfOption : Option Schema → List String
  | none => []
  | some node => node.refs

end

/-! ## Steps of the builder -/

/-- The node is what building the target of the reference gives. -/
def BuiltFrom (root : Json) (ref : String) (node : Schema) : Prop :=
  ∃ path target fuel s s', resolveRef root ref path = .ok target ∧
    buildNode root fuel target ref s = .ok (node, s')

def Known (s : Refs) (refs : List String) : Prop := ∀ ref ∈ refs, (s.lookup ref).isSome

structure Step (root : Json) (s s' : Refs) : Prop where
  kept : ∀ ref v, s.lookup ref = some v → s'.lookup ref = some v
  built : ∀ ref v, s.lookup ref = none → s'.lookup ref = some v →
    ∃ node, v = some node ∧ BuiltFrom root ref node ∧ Known s' node.refs

theorem Known.step {s s' : Refs} {refs : List String} (h : Known s refs) (hs : Step root s s') :
    Known s' refs := fun ref href => by
  obtain ⟨v, hv⟩ := Option.isSome_iff_exists.mp (h ref href)
  exact Option.isSome_of_eq_some (hs.kept ref v hv)

theorem Step.refl (s : Refs) : Step root s s where
  kept _ _ h := h
  built ref v hnone hsome := by
    rw [hnone] at hsome
    cases hsome

theorem Step.trans {s s' s'' : Refs} (h : Step root s s') (h' : Step root s' s'') :
    Step root s s'' where
  kept ref v hv := h'.kept ref v (h.kept ref v hv)
  built ref v hnone hsome := by
    cases hmid : s'.lookup ref with
    | none => exact h'.built ref v hmid hsome
    | some w =>
      obtain ⟨node, rfl, hbuilt, hknown⟩ := h.built ref w hnone hmid
      refine ⟨node, ?_, hbuilt, hknown.step h'⟩
      exact Option.some.inj (hsome.symm.trans (h'.kept ref _ hmid))

theorem lookup_insert_of_lookup {s : Refs} {ref r : String} {v w : Option Schema}
    (h : s.lookup ref = none) (hr : s.lookup r = some w) : (s.insert ref v).lookup r = some w := by
  rwa [AList.lookup_insert_ne]
  rintro rfl
  rw [h] at hr
  cases hr

/-- A reserved name gets its node. -/
theorem step_insert {s s' : Refs} {ref : String} {node : Schema} (hnone : s.lookup ref = none)
    (hbuilt : BuiltFrom root ref node) (hstep : Step root (s.insert ref none) s')
    (hknown : Known s' node.refs) :
    Step root s (s'.insert ref (some node)) ∧ Known (s'.insert ref (some node)) [ref] := by
  have hold : ∀ {refs}, Known s' refs → Known (s'.insert ref (some node)) refs := by
    intro refs h r hr
    by_cases heq : r = ref
    · rw [heq, AList.lookup_insert]
      rfl
    · rw [AList.lookup_insert_ne heq]
      exact h r hr
  refine ⟨⟨fun r v hr => ?_, fun r v hr hv => ?_⟩, fun r hr => ?_⟩
  · have hne : r ≠ ref := by
      rintro rfl
      rw [hnone] at hr
      cases hr
    rw [AList.lookup_insert_ne hne]
    exact hstep.kept r v (lookup_insert_of_lookup hnone hr)
  · by_cases heq : r = ref
    · subst heq
      rw [AList.lookup_insert] at hv
      exact ⟨node, (Option.some.inj hv).symm, hbuilt, hold hknown⟩
    · rw [AList.lookup_insert_ne heq] at hv
      obtain ⟨node', rfl, hbuilt', hknown'⟩ :=
        hstep.built r v (by rwa [AList.lookup_insert_ne heq]) hv
      exact ⟨node', rfl, hbuilt', hold hknown'⟩
  · rw [List.mem_singleton.mp hr, AList.lookup_insert]
    rfl

/-- The strings of the document that are not reserved yet. -/
def room (root : Json) (s : Refs) : ℕ :=
  (root.strings.toFinset.filter fun ref => (s.lookup ref).isNone).card

theorem Step.room_le {s s' : Refs} (h : Step root s s') : room root s' ≤ room root s := by
  refine Finset.card_le_card fun ref href => ?_
  obtain ⟨hmem, hnone⟩ := Finset.mem_filter.mp href
  refine Finset.mem_filter.mpr ⟨hmem, ?_⟩
  cases hs : s.lookup ref with
  | none => rfl
  | some v =>
    rw [h.kept ref v hs] at hnone
    cases hnone

theorem card_filter_lt {α : Type} {s : Finset α} {P Q : α → Prop} [DecidablePred P]
    [DecidablePred Q] {x : α} (hx : x ∈ s) (hP : P x) (hQ : ¬Q x) (h : ∀ y, Q y → P y) :
    (s.filter Q).card < (s.filter P).card := by
  refine Finset.card_lt_card (Finset.ssubset_iff_of_subset ?_ |>.mpr ⟨x, ?_, ?_⟩)
  · exact Finset.monotone_filter_right s fun y _ => h y
  · exact Finset.mem_filter.mpr ⟨hx, hP⟩
  · exact fun hin => hQ (Finset.mem_filter.mp hin).2

theorem room_insert_lt {s : Refs} {ref : String} (hmem : ref ∈ root.strings)
    (h : s.lookup ref = none) (v : Option Schema) : room root (s.insert ref v) < room root s := by
  refine card_filter_lt (List.mem_toFinset.mpr hmem) (by rw [h]; rfl) ?_ fun r hnone => ?_
  · rw [AList.lookup_insert]
    exact Bool.false_ne_true
  · by_cases heq : r = ref
    · rw [heq, h]
      rfl
    · rwa [AList.lookup_insert_ne heq] at hnone

/-! ## What the builder guarantees -/

/-- A run that returns has made a step and knows the names in what it returns. A run that has fuel to
end does not fail for want of it. -/
def Outcome (root : Json) (ends : Prop) (names : α → List String) (s : Refs) :
    Except Failure (α × Refs) → Prop
  | .ok (a, s') => Step root s s' ∧ Known s' (names a)
  | .error e => ends → e ≠ .outOfFuel

/-- The outcome from every state with so much room that knows some names. -/
def Meets (root : Json) (ends : Prop) (b : ℕ) (known : List String) (names : α → List String)
    (m : Build α) : Prop :=
  ∀ s, room root s ≤ b → Known s known → Outcome root ends names s (m s)

section Rules

variable {ends : Prop} {b : ℕ} {known : List String} {names : α → List String} {names' : β → List String}

theorem meets_pure {a : α} (h : names a ⊆ known) : Meets root ends b known names (pure a : Build α) :=
  fun s _ hknown => ⟨Step.refl s, fun ref href => hknown ref (h href)⟩

theorem meets_lift {e : Except String α} (h : ∀ a, e = .ok a → names a ⊆ known) :
    Meets root ends b known names (lift e) := by
  intro s _ hknown
  cases he : e with
  | error what =>
    intro _ heq
    cases heq
  | ok a => exact ⟨Step.refl s, fun ref href => hknown ref (h a he href)⟩

theorem meets_count {e : Except String ℤ} : Meets root ends b known (fun _ => []) (lift e) :=
  meets_lift fun _ _ => List.nil_subset _

theorem meets_fail {path msg : String} : Meets root ends b known names (lift (fail path msg)) :=
  meets_lift fun _ h => nomatch h

theorem Meets.bind {m : Build α} {g : α → Build β} (h : Meets root ends b known names m)
    (hg : ∀ a, Meets root ends b (known ++ names a) names' (g a)) :
    Meets root ends b known names' (m >>= g) := by
  intro s hroom hknown
  have hm := h s hroom hknown
  change Outcome root ends names' s ((m s).bind fun p => g p.1 p.2)
  cases hrun : m s with
  | error e =>
    rw [hrun] at hm
    exact hm
  | ok p =>
    obtain ⟨a, s'⟩ := p
    rw [hrun] at hm
    obtain ⟨hstep, hnames⟩ := hm
    have hrest := hg a s' (hstep.room_le.trans hroom) fun ref href =>
      (List.mem_append.mp href).elim (hknown.step hstep ref) (hnames ref)
    change Outcome root ends names' s (g a s')
    cases hrun' : g a s' with
    | error e =>
      rw [hrun'] at hrest
      exact hrest
    | ok p' =>
      rw [hrun'] at hrest
      exact ⟨hstep.trans hrest.1, hrest.2⟩

theorem Meets.mono {known' : List String} {m : Build α} (h : Meets root ends b known names m)
    (hsub : known ⊆ known') : Meets root ends b known' names m :=
  fun s hroom hknown => h s hroom fun ref href => hknown ref (hsub href)

end Rules

section Functions

variable {ends : Prop} {b : ℕ} {build : Json → String → Build Schema} {fields : Fields} {path : String}

theorem buildList_meets {items : List Json} {i : ℕ}
    (h : ∀ item ∈ items, ∀ path, Meets root ends b [] Schema.refs (build item path)) :
    Meets root ends b [] refsOfList (buildList build path i items) := by
  induction items generalizing i with
  | nil => exact meets_pure (List.Subset.refl _)
  | cons item items ih =>
    rw [List.forall_mem_cons] at h
    refine (h.1 _).bind fun node => ((ih h.2).mono (List.nil_subset _)).bind fun nodes => ?_
    exact meets_pure (List.Subset.refl _)

theorem buildTypes_meets {types : List Json} {i : ℕ}
    (h : ∀ t ∈ types, ∀ path,
      Meets root ends b [] Schema.refs (build (.object (setKey "type" t fields)) path)) :
    Meets root ends b [] refsOfList (buildTypes build fields path i types) := by
  induction types generalizing i with
  | nil => exact meets_pure (List.Subset.refl _)
  | cons t types ih =>
    rw [List.forall_mem_cons] at h
    refine (h.1 _).bind fun node => ((ih h.2).mono (List.nil_subset _)).bind fun nodes => ?_
    exact meets_pure (List.Subset.refl _)

theorem buildProperties_meets {properties : Fields} {required : List String}
    (h : ∀ entry ∈ properties, ∀ path, Meets root ends b [] Schema.refs (build entry.2 path)) :
    Meets root ends b [] refsOfProperties (buildProperties build required path properties) := by
  induction properties with
  | nil => exact meets_pure (List.Subset.refl _)
  | cons entry properties ih =>
    rw [List.forall_mem_cons] at h
    refine (h.1 _).bind fun node => ((ih h.2).mono (List.nil_subset _)).bind fun nodes => ?_
    exact meets_pure (List.Subset.refl _)

variable (hbuild : ∀ item, Part item (.object fields) → ∀ path,
  Meets root ends b [] Schema.refs (build item path))

include hbuild

theorem buildAlternatives_meets {alts : Json} (h : Part alts (.object fields)) :
    Meets root ends b [] refsOfList (buildAlternatives build alts path) := by
  unfold buildAlternatives
  split
  · exact meets_fail
  · exact buildList_meets fun item hitem => hbuild item ((part_array hitem).trans h)
  · exact meets_fail

theorem buildAllOf_meets {alts : Json} (h : Part alts (.object fields)) :
    Meets root ends b [] Schema.refs (buildAllOf build alts path) :=
  (buildAlternatives_meets hbuild h).bind fun _ => meets_pure (List.Subset.refl _)

theorem buildAdditional_meets :
    Meets root ends b [] refsOfOption (buildAdditional build fields path) := by
  unfold buildAdditional
  split
  · refine meets_pure ?_
    split_ifs
    · exact List.Subset.refl _
    · exact List.Subset.refl _
  · next additional h =>
    exact (hbuild _ (part_lookup h) _).bind fun _ => meets_pure (List.Subset.refl _)
  · exact meets_fail
  · refine meets_pure ?_
    split_ifs
    · exact List.Subset.refl _
    · exact List.Subset.refl _

theorem buildAllProperties_meets :
    Meets root ends b [] refsOfProperties (buildAllProperties build fields path) := by
  unfold buildAllProperties
  split
  · exact meets_pure (List.Subset.refl _)
  · next properties h =>
    exact buildProperties_meets fun entry hentry =>
      hbuild _ ((part_field hentry).trans (part_lookup h))
  · exact meets_fail

theorem buildObject_meets : Meets root ends b [] Schema.refs (buildObject build fields path) := by
  refine (buildAllProperties_meets hbuild).bind fun properties =>
    ((buildAdditional_meets hbuild).mono (List.nil_subset _)).bind fun additional => ?_
  exact meets_pure (List.Subset.refl _)

omit hbuild in
theorem countedArray_meets {items : Schema} {known : List String} (h : items.refs ⊆ known) :
    Meets root ends b known Schema.refs (countedArray fields path items) :=
  meets_count.bind fun _ => meets_count.bind fun _ =>
    meets_pure (by rw [Schema.refs, List.append_nil, List.append_nil]; exact h)

theorem buildArray_meets : Meets root ends b [] Schema.refs (buildArray build fields path) := by
  unfold buildArray
  split
  · next key items h =>
    exact (buildList_meets fun item hitem =>
      hbuild item ((part_array hitem).trans (part_firstKey h))).bind fun _ =>
        meets_pure (List.Subset.refl _)
  · next key items _ h =>
    exact (hbuild items (part_firstKey h) _).bind fun node => countedArray_meets (by simp)
  · exact countedArray_meets (List.Subset.refl _)

omit hbuild in
theorem buildString_refs {node : Schema} (h : buildString fields path = .ok node) :
    node.refs ⊆ [] := by
  simp only [buildString, Fallible.bind_eq_ok] at h
  obtain ⟨pattern, -, format, -, minLength, -, maxLength, -, h⟩ := h
  obtain rfl := Except.ok.inj h
  exact List.Subset.refl _

omit hbuild in
theorem buildString_meets : Meets root ends b [] Schema.refs (lift (buildString fields path)) :=
  meets_lift fun _ h => buildString_refs h

omit hbuild in
theorem buildInteger_meets : Meets root ends b [] Schema.refs (lift (buildInteger fields path)) := by
  refine meets_lift fun node h => ?_
  simp only [buildInteger, Fallible.bind_eq_ok] at h
  obtain ⟨minimum, -, maximum, -, h⟩ := h
  obtain rfl := Except.ok.inj h
  exact List.Subset.refl _

theorem buildUntyped_meets : Meets root ends b [] Schema.refs (buildUntyped build fields path) := by
  unfold buildUntyped
  split
  · exact buildObject_meets hbuild
  · split
    · next alts h => exact buildAllOf_meets hbuild (part_lookup h)
    · split
      · exact buildArray_meets hbuild
      · split
        · exact buildString_meets
        · refine meets_lift fun node h => ?_
          obtain ⟨format, -, h⟩ := Fallible.bind_eq_ok.1 h
          split at h
          · obtain rfl := Except.ok.inj h
            exact List.Subset.refl _
          · exact buildString_refs h

theorem buildNamed_meets (name : String) :
    Meets root ends b [] Schema.refs (buildNamed build fields name path) := by
  unfold buildNamed
  split
  · next alts h =>
    split
    · exact buildObject_meets hbuild
    · exact buildAllOf_meets hbuild (part_lookup h)
  · exact buildObject_meets hbuild
  · next alts h => exact buildAllOf_meets hbuild (part_lookup h)
  · exact buildString_meets
  · exact buildArray_meets hbuild
  · exact buildInteger_meets
  · exact meets_pure (List.Subset.refl _)
  · exact meets_pure (List.Subset.refl _)
  · exact meets_pure (List.Subset.refl _)
  · exact meets_fail

theorem buildTyped_meets (type : Json) :
    Meets root ends b [] Schema.refs (buildTyped build fields type path) := by
  unfold buildTyped
  split
  · exact meets_pure (List.Subset.refl _)
  · exact meets_pure (List.Subset.refl _)
  · exact meets_fail
  · exact buildUntyped_meets hbuild
  · exact buildUntyped_meets hbuild
  · exact buildNamed_meets hbuild _
  · exact meets_fail

end Functions

/-! ## References -/

/-- A new name is reserved first, so its target is built with less room. -/
theorem buildRef_meets {ends : Prop} {b fuel : ℕ} {value : Json} {path : String}
    (hvalue : value.strings ⊆ root.strings)
    (hbuild : ∀ target, target.strings ⊆ root.strings → sizeOf target ≤ sizeOf root →
      ∀ b' < b, ∀ path, Meets root ends b' [] Schema.refs (buildNode root fuel target path)) :
    Meets root ends b [] Schema.refs (buildRef root (buildNode root fuel) value path) := by
  unfold buildRef
  split
  case h_2 => exact meets_fail
  case h_1 ref =>
    split
    case isFalse => exact meets_fail
    case isTrue =>
      intro s hroom _
      dsimp only
      split
      · next v hlookup =>
        refine ⟨Step.refl s, fun r hr => ?_⟩
        rw [List.mem_singleton.mp hr, hlookup]
        rfl
      · next hnone =>
        have hmem : ref ∈ root.strings := hvalue (List.mem_singleton_self ref)
        have hless := room_insert_lt hmem hnone none
        change Outcome root ends Schema.refs s (Except.map _ ((lift (resolveRef root ref path)
          (s.insert ref none)).bind fun p => buildNode root fuel p.1 ref p.2))
        cases hresolve : resolveRef root ref path with
        | error what =>
          intro _ heq
          cases heq
        | ok target =>
          obtain ⟨hstrings, hsize⟩ := resolveTokens_part hresolve
          have hrun := hbuild target hstrings hsize _ (hless.trans_le hroom) ref (s.insert ref none)
            le_rfl nofun
          change Outcome root ends Schema.refs s
            (Except.map _ (buildNode root fuel target ref (s.insert ref none)))
          cases hnode : buildNode root fuel target ref (s.insert ref none) with
          | error e =>
            rw [hnode] at hrun
            exact hrun
          | ok built =>
            obtain ⟨node, s'⟩ := built
            rw [hnode] at hrun
            exact step_insert hnone ⟨path, target, fuel, _, _, hresolve, hnode⟩ hrun.1 hrun.2

theorem buildStep_meets {ends : Prop} {b fuel : ℕ} {schema : Json} {path : String}
    (hschema : schema.strings ⊆ root.strings)
    (hparts : ∀ item, Part item schema → ∀ path,
      Meets root ends b [] Schema.refs (buildNode root fuel item path))
    (htargets : ∀ target, target.strings ⊆ root.strings → sizeOf target ≤ sizeOf root →
      ∀ b' < b, ∀ path, Meets root ends b' [] Schema.refs (buildNode root fuel target path)) :
    Meets root ends b [] Schema.refs (buildStep root (buildNode root fuel) schema path) := by
  unfold buildStep
  split
  case h_2 => exact meets_fail
  case h_1 fields =>
    split
    · next value h =>
      exact buildRef_meets (fun _ hs => hschema ((part_lookup h).1 hs)) htargets
    · split
      · next key alts h =>
        exact (buildAlternatives_meets hparts (part_firstKey h)).bind fun _ =>
          meets_pure (List.Subset.refl _)
      · split
        · exact meets_fail
        · next types _ h =>
          have hlookup : fields.lookup "type" = some (.array types) := by
            cases htype : fields.lookup "type" with
            | none => rw [htype] at h; cases h
            | some type => rw [htype] at h; exact congrArg some h
          exact (buildTypes_meets fun t ht =>
            hparts _ (part_setKey hlookup (part_array ht))).bind fun _ =>
              meets_pure (List.Subset.refl _)
        · exact buildTyped_meets hparts _

/-- So much fuel is enough. -/
theorem buildNode_meets {ends : Prop} {fuel b : ℕ} {schema : Json} {path : String}
    (hschema : schema.strings ⊆ root.strings)
    (hfuel : ends → b * (sizeOf root + 1) + sizeOf schema ≤ fuel) :
    Meets root ends b [] Schema.refs (buildNode root fuel schema path) := by
  induction fuel generalizing b schema path with
  | zero =>
    intro s _ _ hends
    have hpos : 0 < sizeOf schema := by cases schema <;> simp
    have hzero := hfuel hends
    omega
  | succ fuel ih =>
    refine buildStep_meets hschema (fun item hitem path => ih (fun _ hs => hschema (hitem.1 hs)) ?_)
      fun target hstrings hsize b' hb' path => ih hstrings ?_
    · intro hends
      have hsize := hitem.2
      have hroom := hfuel hends
      omega
    · intro hends
      have hroom := hfuel hends
      have hpos : 0 < sizeOf schema := by cases schema <;> simp
      have hmul : (b' + 1) * (sizeOf root + 1) ≤ b * (sizeOf root + 1) :=
        Nat.mul_le_mul_right _ hb'
      rw [Nat.succ_mul] at hmul
      omega

/-! ## The document -/

theorem fromJson_meets {ends : Prop} {fuel : ℕ}
    (h : ends → root.strings.toFinset.card * (sizeOf root + 1) + sizeOf root ≤ fuel) :
    Outcome root ends Schema.refs ∅ (buildNode root fuel root "#" ∅) :=
  buildNode_meets (List.Subset.refl root.strings) h ∅ (Finset.card_filter_le _ _) nofun

theorem fromJson_ne_outOfFuel {fuel : ℕ}
    (h : root.strings.toFinset.card * (sizeOf root + 1) + sizeOf root ≤ fuel) :
    fromJson root fuel ≠ .error .outOfFuel := by
  have hmeets := fromJson_meets fun _ : True => h
  intro hrun
  rw [fromJson] at hrun
  cases hbuilt : buildNode root fuel root "#" ∅ with
  | ok built =>
    rw [hbuilt] at hrun
    cases hrun
  | error e =>
    rw [hbuilt] at hrun hmeets
    exact hmeets trivial (Except.error.inj hrun)

/-- The names of the reference nodes in the document. -/
def Document.Names (doc : Document) (ref : String) : Prop :=
  ref ∈ doc.root.refs ∨ ∃ name node, doc.target name = some node ∧ ref ∈ node.refs

/-- Building starts without reserved names, so all of them are bound in the end. -/
theorem fromJson_bound {fuel : ℕ} {doc : Document} (h : fromJson root fuel = .ok doc) {ref : String}
    (href : doc.Names ref) : ∃ node, doc.target ref = some node ∧ BuiltFrom root ref node := by
  have hmeets : Outcome root False Schema.refs ∅ (buildNode root fuel root "#" ∅) :=
    fromJson_meets False.elim
  rw [fromJson] at h
  cases hbuilt : buildNode root fuel root "#" ∅ with
  | error e =>
    rw [hbuilt] at h
    cases h
  | ok built =>
    rw [hbuilt] at h hmeets
    obtain rfl := Except.ok.inj h
    obtain ⟨hstep, hknown⟩ := hmeets
    have hbound : ∀ r v, built.2.lookup r = some v →
        ∃ node, v = some node ∧ BuiltFrom root r node ∧ Known built.2 node.refs :=
      fun r v => hstep.built r v rfl
    have hsome : (built.2.lookup ref).isSome := by
      rcases href with href | ⟨name, node, hname, href⟩
      · exact hknown ref href
      · obtain ⟨_, heq, -, hnode⟩ := hbound name _ (Option.join_eq_some_iff.mp hname)
        obtain rfl := Option.some.inj heq
        exact hnode ref href
    obtain ⟨v, hv⟩ := Option.isSome_iff_exists.mp hsome
    obtain ⟨node, rfl, hfrom, -⟩ := hbound ref v hv
    exact ⟨node, by rw [Document.target, hv]; rfl, hfrom⟩

end JsonSchema
end RocmFpx
