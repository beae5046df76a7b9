import Mathlib.Data.List.Flatten
import Mathlib.Data.List.Basic

/-!
Loops of the template engine. A statement returns what it prints, and `break` and `continue` are
exceptions, so what a statement has collected is lost when one of them leaves it.
-/

namespace RocmFpx
namespace JinjaFor

abbrev Text := List UInt8

/-- The exceptions that leave a statement. -/
inductive Signal
  | breakSignal
  | continueSignal
  | error (what : String)
  /-- An item that is unpacked has become too short: the read is undefined. -/
  | undefined

/-- The variables of a context. -/
abbrev Scope (Value : Type) := String → Option Value

structure State (Value Heap : Type) where
  scope : Scope Value
  heap : Heap

/-- The variable `loop`. -/
structure LoopObject (Value : Type) where
  index : ℕ
  index0 : ℕ
  revindex : ℕ
  revindex0 : ℕ
  first : Bool
  last : Bool
  length : ℕ
  previtem : Option Value
  nextitem : Option Value

/-- The values that statements work on. Arrays and objects are shared, so what they hold is read off
the heap. -/
structure Values (Value Heap : Type) where
  typeName : Value → String
  asBool : Heap → Value → Except String Bool
  isUndefined : Value → Bool
  asArray : Heap → Value → Option (List Value)
  asOrderedObject : Heap → Value → Option (List (Value × Value))
  mkTuple : Value × Value → Heap → Value × Heap
  mkLoop : LoopObject Value → Heap → Value × Heap
  mkString : Text → Value
  /-- `gather_string_parts_recursive` -/
  gather : Heap → Value → Text
  gather_mkString : ∀ heap text, gather heap (mkString text) = text

/-- The element of a tuple literal: an identifier, or the type of another expression. -/
inductive Target
  | identifier (val : String)
  | other (type : String)

inductive LoopVar
  | identifier (val : String)
  | tupleLiteral (val : List Target)
  | other (type : String)

abbrev Exec (Value Heap α : Type) := State Value Heap → Except Signal α × State Value Heap

/-- Statements; those without statements inside them, expressions and texts are `plain`. -/
inductive Statement (Value Heap : Type)
  | plain (run : Exec Value Heap Value)
  | ifStatement (test : Exec Value Heap Value) (body alternate : List (Statement Value Heap))
  | forStatement (loopvar : LoopVar) (iterable : Exec Value Heap Value)
      (test : Option (Exec Value Heap Value)) (body defaultBlock : List (Statement Value Heap))
  | breakStatement
  | continueStatement

/-- A run of statements: the values pushed before the end, and what ended it early. -/
structure Block (Value Heap : Type) where
  values : List Value
  signal : Option Signal
  state : State Value Heap

/-- An item that the filter keeps, and the value to be shown as the item before or after. -/
structure Kept (Value : Type) where
  item : Value
  current : Value

/-- The iterations of a loop; `noIteration` as long as none has reached its end. -/
structure LoopRun (Value Heap : Type) where
  values : List Value
  noIteration : Bool
  signal : Option Signal
  state : State Value Heap

variable {Value Heap : Type} (V : Values Value Heap)

/-! ## Items -/

def setVal (id : String) (v : Value) (s : State Value Heap) : State Value Heap :=
  { s with scope := fun name => if name = id then some v else s.scope name }

def mkTuples : List (Value × Value) → Heap → List Value × Heap
  | [], heap => ([], heap)
  | pair :: pairs, heap =>
    let (tuple, heap) := V.mkTuple pair heap
    let (tuples, heap) := mkTuples pairs heap
    (tuple :: tuples, heap)

/-- The items to iterate over, and whether they are the pairs of an object. -/
def itemsOf (iterable : Value) (heap : Heap) : Except Signal (Bool × List Value) × Heap :=
  if V.isUndefined iterable then (.ok (false, []), heap)
  else
    match V.asOrderedObject heap iterable, V.asArray heap iterable with
    | some pairs, _ =>
      let (tuples, heap) := mkTuples V pairs heap
      (.ok (true, tuples), heap)
    | none, some items => (.ok (false, items), heap)
    | none, none =>
      (.error (.error ("Expected iterable or object type in for loop: got " ++
        V.typeName iterable)), heap)

/-- `as_array()[0]` of a pair. -/
def keyOf (heap : Heap) (item : Value) : Except Signal Value :=
  match (V.asArray heap item).bind List.head? with
  | some key => .ok key
  | none => .error .undefined

/-- The item as the loop variable takes it, with the checks of the first pass. -/
def currentItem (loopvar : LoopVar) (isObject : Bool) (heap : Heap) (item : Value) :
    Except Signal Value :=
  match loopvar with
  | .identifier _ => if isObject then keyOf V heap item else .ok item
  | .tupleLiteral val =>
    match V.asArray heap item with
    | none => .error (.error ("Cannot unpack non-iterable type: " ++ V.typeName item))
    | some array =>
      if val.length = array.length then .ok item
      else .error (.error ("Too " ++ (if array.length < val.length then "few" else "many") ++
        " items to unpack"))
  | .other type => .error (.error ("Invalid loop variable(s): " ++ type))

def unpack : List Target → List Value → State Value Heap → Except Signal (State Value Heap)
  | [], _, s => .ok s
  | .other type :: _, _, _ => .error (.error ("Cannot unpack non-identifier type: " ++ type))
  | .identifier _ :: _, [], _ => .error .undefined
  | .identifier id :: val, v :: array, s => unpack val array (setVal id v s)

/-- `scope_update_fn` -/
def scopeUpdate (loopvar : LoopVar) (isObject : Bool) (item : Value) (s : State Value Heap) :
    Except Signal (State Value Heap) :=
  match loopvar with
  | .identifier id =>
    if isObject then (keyOf V s.heap item).map fun key => setVal id key s
    else .ok (setVal id item s)
  | .tupleLiteral val =>
    match V.asArray s.heap item with
    | none => .error (.error (V.typeName item ++ " is not an array value"))
    | some array => unpack val array s
  | .other _ => .ok s

/-- The test of the filter, in a copy of the scope. -/
def selects (loopvar : LoopVar) (isObject : Bool) (test : Option (Exec Value Heap Value))
    (item : Value) : Exec Value Heap Bool := fun s =>
  match test with
  | none => (.ok true, s)
  | some test =>
    match scopeUpdate V loopvar isObject item s with
    | .error e => (.error e, s)
    | .ok loopScope =>
      match test loopScope with
      | (.error e, t) => (.error e, { s with heap := t.heap })
      | (.ok v, t) => ((V.asBool t.heap v).mapError .error, { s with heap := t.heap })

def filterItems (loopvar : LoopVar) (isObject : Bool) (test : Option (Exec Value Heap Value)) :
    List Value → Exec Value Heap (List (Kept Value))
  | [], s => (.ok [], s)
  | item :: items, s =>
    match currentItem V loopvar isObject s.heap item with
    | .error e => (.error e, s)
    | .ok current =>
      match selects V loopvar isObject test item s with
      | (.error e, s) => (.error e, s)
      | (.ok false, s) => filterItems loopvar isObject test items s
      | (.ok true, s) =>
        match filterItems loopvar isObject test items s with
        | (.error e, s) => (.error e, s)
        | (.ok kept, s) => (.ok (⟨item, current⟩ :: kept), s)

/-- What `for_statement` does before the first iteration, in the scope of the loop. -/
def prepare (loopvar : LoopVar) (iterable : Exec Value Heap Value)
    (test : Option (Exec Value Heap Value)) : Exec Value Heap (Bool × List (Kept Value)) := fun s =>
  match iterable s with
  | (.error e, s) => (.error e, s)
  | (.ok v, s) =>
    match itemsOf V v s.heap with
    | (.error e, heap) => (.error e, { s with heap })
    | (.ok (isObject, items), heap) =>
      match filterItems V loopvar isObject test items { s with heap } with
      | (.error e, s) => (.error e, s)
      | (.ok kept, s) => (.ok (isObject, kept), s)

/-! ## Iterations -/

def loopObject (kept : List (Kept Value)) (i : ℕ) : LoopObject Value where
  index := i + 1
  index0 := i
  revindex := kept.length - i
  revindex0 := kept.length - i - 1
  first := i = 0
  last := i = kept.length - 1
  length := kept.length
  previtem := if i > 0 then kept[i - 1]?.map Kept.current else none
  nextitem := if i < kept.length - 1 then kept[i + 1]?.map Kept.current else none

/-- The variables of iteration `i`. -/
def startIteration (loopvar : LoopVar) (isObject : Bool) (kept : List (Kept Value)) (i : ℕ)
    (item : Value) (s : State Value Heap) : Except Signal (State Value Heap) :=
  let (object, heap) := V.mkLoop (loopObject kept i) s.heap
  scopeUpdate V loopvar isObject item (setVal "loop" object { s with heap })

section Iterations

variable (loopvar : LoopVar) (isObject : Bool) (body : State Value Heap → Block Value Heap)
  (kept : List (Kept Value))

/-- The loop over the filtered items from index `i` on. -/
def loop : List (Kept Value) → ℕ → State Value Heap → LoopRun Value Heap
  | [], _, s => ⟨[], true, none, s⟩
  | entry :: rest, i, s =>
    match startIteration V loopvar isObject kept i entry.item s with
    | .error e => ⟨[], true, some e, s⟩
    | .ok s =>
      let b := body s
      match b.signal with
      | none =>
        let r := loop rest (i + 1) b.state
        { r with values := b.values ++ r.values, noIteration := false }
      | some .continueSignal =>
        let r := loop rest (i + 1) b.state
        { r with values := b.values ++ r.values }
      | some .breakSignal => ⟨b.values, true, none, b.state⟩
      | some e => ⟨b.values, true, some e, b.state⟩

/-- The states in which the body is started, one for each item up to the one that breaks. -/
def starts : List (Kept Value) → ℕ → State Value Heap → List (State Value Heap)
  | [], _, _ => []
  | entry :: rest, i, s =>
    match startIteration V loopvar isObject kept i entry.item s with
    | .error _ => []
    | .ok s =>
      s :: match (body s).signal with
        | none | some .continueSignal => starts rest (i + 1) (body s).state
        | _ => []

theorem loop_values (rest : List (Kept Value)) (i : ℕ) (s : State Value Heap) :
    (loop V loopvar isObject body kept rest i s).values =
      (starts V loopvar isObject body kept rest i s).flatMap fun t => (body t).values := by
  induction rest generalizing i s with
  | nil => rfl
  | cons entry rest ih =>
    rw [loop, starts]
    cases startIteration V loopvar isObject kept i entry.item s with
    | error e => rfl
    | ok t =>
      dsimp only
      rw [List.flatMap_cons]
      rcases (body t).signal with - | _ | _ | _ | _
      · rw [← ih]
      · exact (List.append_nil _).symm
      · rw [← ih]
      · exact (List.append_nil _).symm
      · exact (List.append_nil _).symm

theorem loop_noIteration_iff (rest : List (Kept Value)) (i : ℕ) (s : State Value Heap) :
    (loop V loopvar isObject body kept rest i s).noIteration = true ↔
      ∀ t ∈ starts V loopvar isObject body kept rest i s, (body t).signal ≠ none := by
  induction rest generalizing i s with
  | nil => simp [loop, starts]
  | cons entry rest ih =>
    rw [loop, starts]
    cases startIteration V loopvar isObject kept i entry.item s with
    | error e => simp
    | ok t =>
      dsimp only
      rw [List.forall_mem_cons]
      cases hsignal : (body t).signal with
      | none => simp
      | some e =>
        rw [and_iff_right (Option.some_ne_none e)]
        cases e with
        | continueSignal => exact ih _ _
        | breakSignal => simp
        | error what => simp
        | undefined => simp

end Iterations

/-! ## Statements -/

/-- The text of the values at the end. -/
def gatherAll (heap : Heap) (values : List Value) : Text := values.flatMap (V.gather heap)

/-- The string that a statement makes of what it has collected, unless it is left. -/
def ofBlock (b : Block Value Heap) : Except Signal Value × State Value Heap :=
  match b.signal with
  | none => (.ok (V.mkString (gatherAll V b.state.heap b.values)), b.state)
  | some e => (.error e, b.state)

mutual

/-- `execute_impl` -/
def execute : Statement Value Heap → Exec Value Heap Value
  | .plain run, s => run s
  | .ifStatement test body alternate, s =>
    match test s with
    | (.error e, s) => (.error e, s)
    | (.ok v, s) =>
      match V.asBool s.heap v with
      | .error what => (.error (.error what), s)
      | .ok true => ofBlock V (executeAll body s)
      | .ok false => ofBlock V (executeAll alternate s)
  | .forStatement loopvar iterable test body defaultBlock, s =>
    match prepare V loopvar iterable test s with
    | (.error e, t) => (.error e, { s with heap := t.heap })
    | (.ok (isObject, kept), t) =>
      let r := loop V loopvar isObject (fun s => executeAll body s) kept kept 0 t
      let s := { s with heap := r.state.heap }
      match r.signal, r.noIteration with
      | some e, _ => (.error e, s)
      | none, true =>
        let b := executeAll defaultBlock s
        ofBlock V { b with values := r.values ++ b.values }
      | none, false => ofBlock V ⟨r.values, none, s⟩
  | .breakStatement, s => (.error .breakSignal, s)
  | .continueStatement, s => (.error .continueSignal, s)

/-- The statements of a body, each value pushed when its statement has returned. -/
def executeAll : List (Statement Value Heap) → State Value Heap → Block Value Heap
  | [], s => ⟨[], none, s⟩
  | stmt :: stmts, s =>
    match execute stmt s with
    | (.error e, s) => ⟨[], some e, s⟩
    | (.ok v, s) =>
      let b := executeAll stmts s
      { b with values := v :: b.values }

end

/-! ## What a body emits -/

mutual

/-- What a statement emits up to its end, where the statements inside run as the engine runs them.
What has been collected counts also when an exception ends the statement. -/
def emit : Statement Value Heap → State Value Heap → List Value
  | .plain run, s =>
    match (run s).1 with
    | .error _ => []
    | .ok v => [v]
  | .ifStatement test body alternate, s =>
    match test s with
    | (.error _, _) => []
    | (.ok v, s) =>
      match V.asBool s.heap v with
      | .error _ => []
      | .ok true => [V.mkString (gatherAll V (executeAll V body s).state.heap (emitAll body s))]
      | .ok false =>
        [V.mkString (gatherAll V (executeAll V alternate s).state.heap (emitAll alternate s))]
  | .forStatement loopvar iterable test body defaultBlock, s =>
    match prepare V loopvar iterable test s with
    | (.error _, _) => []
    | (.ok (isObject, kept), t) =>
      let r := loop V loopvar isObject (executeAll V body) kept kept 0 t
      let s := { s with heap := r.state.heap }
      let iterations := (starts V loopvar isObject (executeAll V body) kept kept 0 t).flatMap
        fun t => emitAll body t
      match r.signal, r.noIteration with
      | none, true =>
        [V.mkString (gatherAll V (executeAll V defaultBlock s).state.heap
          (iterations ++ emitAll defaultBlock s))]
      | _, _ => [V.mkString (gatherAll V s.heap iterations)]
  | .breakStatement, _ => []
  | .continueStatement, _ => []

def emitAll : List (Statement Value Heap) → State Value Heap → List Value
  | [], _ => []
  | stmt :: stmts, s =>
    emit stmt s ++
      match execute V stmt s with
      | (.error _, _) => []
      | (.ok _, s) => emitAll stmts s

end

mutual

/-- No statement inside has emitted text when an exception leaves it. -/
def Keeps : Statement Value Heap → State Value Heap → Prop
  | .ifStatement test body alternate, s =>
    match test s with
    | (.error _, _) => True
    | (.ok v, s) =>
      match V.asBool s.heap v with
      | .error _ => True
      | .ok true => KeepsAll body s
      | .ok false => KeepsAll alternate s
  | .forStatement loopvar iterable test body defaultBlock, s =>
    match prepare V loopvar iterable test s with
    | (.error _, _) => True
    | (.ok (isObject, kept), t) =>
      let r := loop V loopvar isObject (executeAll V body) kept kept 0 t
      (∀ u ∈ starts V loopvar isObject (executeAll V body) kept kept 0 t, KeepsAll body u) ∧
        (r.noIteration = true → KeepsAll defaultBlock { s with heap := r.state.heap })
  | _, _ => True

def KeepsAll : List (Statement Value Heap) → State Value Heap → Prop
  | [], _ => True
  | stmt :: stmts, s =>
    match execute V stmt s with
    | (.error _, t) => gatherAll V t.heap (emit V stmt s) = []
    | (.ok _, t) => Keeps stmt s ∧ KeepsAll stmts t

end

/-! ## What is lost -/

/-- A text is part of the full one, and all of it under a condition. -/
def Agrees (text full : Text) (p : Prop) : Prop := text.Sublist full ∧ (text = full ↔ p)

theorem Agrees.refl (text : Text) : Agrees text text True :=
  ⟨List.Sublist.refl text, iff_of_true rfl trivial⟩

theorem Agrees.append {text full text' full' : Text} {p p' : Prop} (h : Agrees text full p)
    (h' : Agrees text' full' p') : Agrees (text ++ text') (full ++ full') (p ∧ p') := by
  refine ⟨h.1.append h'.1, ?_⟩
  rw [← h.2, ← h'.2]
  constructor
  · intro heq
    have hlength := congrArg List.length heq
    rw [List.length_append, List.length_append] at hlength
    have hle := h.1.length_le
    have hle' := h'.1.length_le
    exact ⟨h.1.eq_of_length (by omega), h'.1.eq_of_length (by omega)⟩
  · rintro ⟨rfl, rfl⟩
    rfl

theorem Agrees.flatMap {α : Type} {f g : α → Text} {p : α → Prop} (l : List α)
    (h : ∀ t ∈ l, Agrees (f t) (g t) (p t)) :
    Agrees (l.flatMap f) (l.flatMap g) (∀ t ∈ l, p t) := by
  induction l with
  | nil => exact ⟨List.Sublist.refl _, iff_of_true rfl (by simp)⟩
  | cons t l ih =>
    rw [List.forall_mem_cons] at h
    rw [List.flatMap_cons, List.flatMap_cons, List.forall_mem_cons]
    exact h.1.append (ih h.2)

theorem Agrees.congr {text full : Text} {p q : Prop} (h : Agrees text full p) (hiff : p ↔ q) :
    Agrees text full q := ⟨h.1, h.2.trans hiff⟩

theorem gatherAll_append (heap : Heap) (values values' : List Value) :
    gatherAll V heap (values ++ values') = gatherAll V heap values ++ gatherAll V heap values' :=
  List.flatMap_append

theorem gatherAll_cons (heap : Heap) (v : Value) (values : List Value) :
    gatherAll V heap (v :: values) = V.gather heap v ++ gatherAll V heap values :=
  List.flatMap_cons

theorem gatherAll_mkString (heap : Heap) (text : Text) :
    gatherAll V heap [V.mkString text] = text := by
  rw [gatherAll, List.flatMap_singleton, V.gather_mkString]

theorem gatherAll_flatMap {α : Type} (heap : Heap) (f : α → List Value) (l : List α) :
    gatherAll V heap (l.flatMap f) = l.flatMap fun t => gatherAll V heap (f t) :=
  List.flatMap_assoc

theorem gather_ofBlock {b : Block Value Heap} {v : Value} {s : State Value Heap}
    (h : ofBlock V b = (.ok v, s)) (heap : Heap) :
    V.gather heap v = gatherAll V s.heap b.values ∧ s = b.state ∧ b.signal = none := by
  rw [ofBlock] at h
  cases hsignal : b.signal with
  | none =>
    rw [hsignal] at h
    cases h
    exact ⟨V.gather_mkString heap _, rfl, rfl⟩
  | some e =>
    rw [hsignal] at h
    cases h

/-- The text of what a statement emits before it is left is fixed: only strings are emitted. -/
theorem gatherAll_emit_of_error {stmt : Statement Value Heap} {s s' : State Value Heap} {e : Signal}
    (h : execute V stmt s = (.error e, s')) (heap heap' : Heap) :
    gatherAll V heap (emit V stmt s) = gatherAll V heap' (emit V stmt s) := by
  cases stmt with
  | plain run =>
    rw [execute] at h
    rw [emit, h]
    rfl
  | ifStatement test body alternate =>
    rw [emit]
    split
    · rfl
    · split
      · rfl
      · rw [gatherAll_mkString, gatherAll_mkString]
      · rw [gatherAll_mkString, gatherAll_mkString]
  | forStatement loopvar iterable test body defaultBlock =>
    rw [emit]
    split
    · rfl
    · dsimp only
      split
      · rw [gatherAll_mkString, gatherAll_mkString]
      · rw [gatherAll_mkString, gatherAll_mkString]
  | breakStatement => rw [emit]; rfl
  | continueStatement => rw [emit]; rfl

theorem loop_agrees (loopvar : LoopVar) (isObject : Bool)
    {body : State Value Heap → Block Value Heap} {full : State Value Heap → List Value}
    {p : State Value Heap → Prop} (kept : List (Kept Value)) (t : State Value Heap) (heap : Heap)
    (h : ∀ t, Agrees (gatherAll V heap (body t).values) (gatherAll V heap (full t)) (p t)) :
    Agrees (gatherAll V heap (loop V loopvar isObject body kept kept 0 t).values)
      (gatherAll V heap ((starts V loopvar isObject body kept kept 0 t).flatMap full))
      (∀ u ∈ starts V loopvar isObject body kept kept 0 t, p u) := by
  rw [loop_values, gatherAll_flatMap, gatherAll_flatMap]
  exact Agrees.flatMap _ fun u _ => h u

mutual

theorem execute_agrees : ∀ (stmt : Statement Value Heap) (s s' : State Value Heap) (v : Value)
    (heap : Heap), execute V stmt s = (.ok v, s') →
      Agrees (V.gather heap v) (gatherAll V heap (emit V stmt s)) (Keeps V stmt s)
  | .plain run, s, s', v, heap, h => by
    rw [execute] at h
    rw [emit, h, Keeps]
    · rw [gatherAll, List.flatMap_singleton]
      exact Agrees.refl _
    · simp
    · simp
  | .ifStatement test body alternate, s, s', v, heap, h => by
    rw [execute] at h
    rw [emit, Keeps]
    cases htest : test s with
    | mk result t =>
      rw [htest] at h
      cases result with
      | error e => cases h
      | ok condition =>
        dsimp only at h ⊢
        cases hbool : V.asBool t.heap condition with
        | error what => rw [hbool] at h; cases h
        | ok b =>
          rw [hbool] at h
          cases b with
          | true =>
            obtain ⟨hv, rfl, -⟩ := gather_ofBlock V h heap
            dsimp only
            rw [hv, gatherAll_mkString]
            exact executeAll_agrees body t _
          | false =>
            obtain ⟨hv, rfl, -⟩ := gather_ofBlock V h heap
            dsimp only
            rw [hv, gatherAll_mkString]
            exact executeAll_agrees alternate t _
  | .forStatement loopvar iterable test body defaultBlock, s, s', v, heap, h => by
    rw [execute] at h
    rw [emit, Keeps]
    cases hprepare : prepare V loopvar iterable test s with
    | mk result t =>
      rw [hprepare] at h
      cases result with
      | error e => cases h
      | ok items =>
        obtain ⟨isObject, kept⟩ := items
        dsimp only at h ⊢
        have hloop := fun heap => loop_agrees V loopvar isObject kept t heap
          fun u => executeAll_agrees body u heap
        cases hsignal : (loop V loopvar isObject (executeAll V body) kept kept 0 t).signal with
        | some e => rw [hsignal] at h; cases h
        | none =>
          rw [hsignal] at h
          cases hno : (loop V loopvar isObject (executeAll V body) kept kept 0 t).noIteration with
          | true =>
            rw [hno] at h
            obtain ⟨hv, rfl, -⟩ := gather_ofBlock V h heap
            dsimp only
            rw [hv, gatherAll_mkString, gatherAll_append, gatherAll_append]
            exact ((hloop _).append (executeAll_agrees defaultBlock _ _)).congr (by simp)
          | false =>
            rw [hno] at h
            obtain ⟨hv, rfl, -⟩ := gather_ofBlock V h heap
            dsimp only
            rw [hv, gatherAll_mkString]
            exact (hloop _).congr (by simp)
  | .breakStatement, s, s', v, heap, h => by rw [execute] at h; cases h
  | .continueStatement, s, s', v, heap, h => by rw [execute] at h; cases h

theorem executeAll_agrees : ∀ (stmts : List (Statement Value Heap)) (s : State Value Heap)
    (heap : Heap), Agrees (gatherAll V heap (executeAll V stmts s).values)
      (gatherAll V heap (emitAll V stmts s)) (KeepsAll V stmts s)
  | [], s, heap => by
    rw [executeAll, emitAll, KeepsAll]
    exact Agrees.refl _
  | stmt :: stmts, s, heap => by
    rw [executeAll, emitAll, KeepsAll]
    cases hrun : execute V stmt s with
    | mk result t =>
      cases result with
      | error e =>
        dsimp only
        rw [List.append_nil, gatherAll_emit_of_error V hrun t.heap heap]
        exact ⟨List.nil_sublist _, eq_comm⟩
      | ok v =>
        dsimp only
        rw [gatherAll_cons, gatherAll_append]
        exact (execute_agrees stmt s t v heap hrun).append (executeAll_agrees stmts t heap)

end

/-! ## The loop -/

section Loop

variable (loopvar : LoopVar) (isObject : Bool) (body defaultBlock : List (Statement Value Heap))
  (kept : List (Kept Value)) (s t : State Value Heap)

/-- The iterations over the filtered items. -/
def iterations : LoopRun Value Heap := loop V loopvar isObject (executeAll V body) kept kept 0 t

def iterationStarts : List (State Value Heap) :=
  starts V loopvar isObject (executeAll V body) kept kept 0 t

/-- The state in which the else block would be executed. -/
def defaultStart : State Value Heap :=
  { s with heap := (iterations V loopvar isObject body kept t).state.heap }

/-- The output of the loop is what its bodies emit, one after the other, or else what the else block
emits, which is executed just when there is no item. -/
structure EmitsBodies (output : Text) (heap : Heap) : Prop where
  output : output = gatherAll V heap
    ((iterationStarts V loopvar isObject body kept t).flatMap (emitAll V body) ++
      if kept.isEmpty then emitAll V defaultBlock (defaultStart V loopvar isObject body kept s t)
      else [])
  default : (iterations V loopvar isObject body kept t).noIteration = true ↔ kept = []

/-- No statement of a body or of the else block has emitted text when `break` or `continue` leaves
it, and some iteration reaches its end unless there is no item. -/
structure LosesNothing : Prop where
  bodies : ∀ u ∈ iterationStarts V loopvar isObject body kept t, KeepsAll V body u
  default : kept = [] → KeepsAll V defaultBlock (defaultStart V loopvar isObject body kept s t)
  ends : kept = [] ∨
    ∃ u ∈ iterationStarts V loopvar isObject body kept t, (executeAll V body u).signal = none

theorem noIteration_iff : (iterations V loopvar isObject body kept t).noIteration = true ↔
    ∀ u ∈ iterationStarts V loopvar isObject body kept t, (executeAll V body u).signal ≠ none :=
  loop_noIteration_iff V loopvar isObject (executeAll V body) kept kept 0 t

theorem iterationStarts_nil : iterationStarts V loopvar isObject body [] t = [] := rfl

/-- The else block is executed just when there is no item or no iteration reaches its end. -/
theorem default_iff : ((iterations V loopvar isObject body kept t).noIteration = true ↔ kept = []) ↔
    kept = [] ∨
      ∃ u ∈ iterationStarts V loopvar isObject body kept t, (executeAll V body u).signal = none := by
  rw [noIteration_iff]
  by_cases hkept : kept = []
  · subst hkept
    simp [iterationStarts_nil]
  · rw [or_iff_right hkept, iff_false_right hkept]
    push Not
    rfl

theorem iterations_agrees (heap : Heap) :
    Agrees (gatherAll V heap (iterations V loopvar isObject body kept t).values)
      (gatherAll V heap
        ((iterationStarts V loopvar isObject body kept t).flatMap (emitAll V body)))
      (∀ u ∈ iterationStarts V loopvar isObject body kept t, KeepsAll V body u) :=
  loop_agrees V loopvar isObject kept t heap fun u => executeAll_agrees V body u heap

/-- A loop outputs what its bodies emit, and executes the else block just when there is no item,
exactly when nothing has been emitted where `break` and `continue` leave a statement and some
iteration, if there is any item, reaches its end. -/
theorem forStatement_emits_iff (iterable : Exec Value Heap Value)
    (test : Option (Exec Value Heap Value)) {s' : State Value Heap} {v : Value}
    (hprepare : prepare V loopvar iterable test s = (.ok (isObject, kept), t))
    (hrun : execute V (.forStatement loopvar iterable test body defaultBlock) s = (.ok v, s')) :
    EmitsBodies V loopvar isObject body defaultBlock kept s t (V.gather s'.heap v) s'.heap ↔
      LosesNothing V loopvar isObject body defaultBlock kept s t := by
  have hdefault := default_iff V loopvar isObject body kept t
  have hloop := iterations_agrees V loopvar isObject body kept t s'.heap
  have hrest := executeAll_agrees V defaultBlock (defaultStart V loopvar isObject body kept s t)
    s'.heap
  -- the two conditions are the same on the else block, so only the texts are left
  suffices htext : ((iterations V loopvar isObject body kept t).noIteration = true ↔ kept = []) →
      (V.gather s'.heap v = gatherAll V s'.heap
        ((iterationStarts V loopvar isObject body kept t).flatMap (emitAll V body) ++
          if kept.isEmpty then emitAll V defaultBlock (defaultStart V loopvar isObject body kept s t)
          else []) ↔
        (∀ u ∈ iterationStarts V loopvar isObject body kept t, KeepsAll V body u) ∧
          (kept = [] →
            KeepsAll V defaultBlock (defaultStart V loopvar isObject body kept s t))) from
    ⟨fun h => ⟨((htext h.default).mp h.output).1, ((htext h.default).mp h.output).2,
        hdefault.mp h.default⟩,
      fun h => ⟨(htext (hdefault.mpr h.ends)).mpr ⟨h.bodies, h.default⟩, hdefault.mpr h.ends⟩⟩
  intro hends
  rw [execute, hprepare] at hrun
  dsimp only at hrun
  rw [gatherAll_append]
  cases hsignal : (loop V loopvar isObject (executeAll V body) kept kept 0 t).signal with
  | some e => rw [hsignal] at hrun; cases hrun
  | none =>
    rw [hsignal] at hrun
    cases hno : (loop V loopvar isObject (executeAll V body) kept kept 0 t).noIteration with
    | true =>
      obtain rfl := hends.mp hno
      rw [hno] at hrun
      obtain ⟨hv, hs, -⟩ := gather_ofBlock V hrun s'.heap
      rw [hv, gatherAll_append, if_pos (by rfl)]
      exact ((hloop.append hrest).congr (by simp)).2
    | false =>
      have hkept : kept ≠ [] := fun h => by
        have htrue := hends.mpr h
        rw [iterations, hno] at htrue
        cases htrue
      rw [hno] at hrun
      obtain ⟨hv, hs, -⟩ := gather_ofBlock V hrun s'.heap
      rw [hv, if_neg (by simpa using hkept), and_iff_left fun h => absurd h hkept]
      rw [show gatherAll V s'.heap ([] : List Value) = [] from rfl, List.append_nil]
      exact hloop.2

end Loop

/-! ## An example -/

inductive Sample
  | text (text : Text)
  | items (items : List Text)

/-- Texts and lists of texts, without a heap. -/
def sampleValues : Values Sample Unit where
  typeName
    | .text _ => "String"
    | .items _ => "Array"
  asBool
    | _, .text text => .ok (!text.isEmpty)
    | _, .items items => .ok (!items.isEmpty)
  isUndefined _ := false
  asArray
    | _, .text _ => none
    | _, .items items => some (items.map .text)
  asOrderedObject _ _ := none
  mkTuple _ heap := (.items [], heap)
  mkLoop _ heap := (.items [], heap)
  mkString := .text
  gather
    | _, .text text => text
    | _, .items items => items.flatten
  gather_mkString _ _ := rfl

def literal (v : Sample) : Exec Sample Unit Sample := fun s => (.ok v, s)

def emptyState : State Sample Unit := ⟨fun _ => none, ()⟩

/-- `x` for the only item, in an `if` that a `continue` leaves, or before the end of the body. -/
def sampleBody (skips : Bool) : List (Statement Sample Unit) :=
  [.ifStatement (literal (.text [0x31]))
    (if skips then [.plain (literal (.text [0x78])), .continueStatement]
      else [.plain (literal (.text [0x78]))]) []]

def sampleItems : Exec Sample Unit Sample := literal (.items [[0x61]])

theorem forStatement_emits_sample :
    EmitsBodies sampleValues (.identifier "m") false (sampleBody false) []
        [⟨.text [0x61], .text [0x61]⟩] emptyState emptyState [0x78] () ↔
      LosesNothing sampleValues (.identifier "m") false (sampleBody false) []
        [⟨.text [0x61], .text [0x61]⟩] emptyState emptyState :=
  forStatement_emits_iff sampleValues (.identifier "m") false (sampleBody false) []
    [⟨.text [0x61], .text [0x61]⟩] emptyState emptyState sampleItems none (v := .text [0x78]) rfl rfl

theorem continue_loses_text :
    prepare sampleValues (.identifier "m") sampleItems none emptyState =
        (.ok (false, [⟨.text [0x61], .text [0x61]⟩]), emptyState) ∧
      execute sampleValues (.forStatement (.identifier "m") sampleItems none (sampleBody true) [])
        emptyState = (.ok (.text []), emptyState) ∧
      ¬ EmitsBodies sampleValues (.identifier "m") false (sampleBody true) []
        [⟨.text [0x61], .text [0x61]⟩] emptyState emptyState [] () := by
  refine ⟨rfl, rfl, fun h => ?_⟩
  have houtput : ([] : Text) = [0x78] := h.output
  cases houtput

end JinjaFor
end RocmFpx
