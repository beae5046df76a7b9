import RocmFpx.Worklist

/-!
GBNF grammars as `llama_grammar_init_impl` copies them: each rule an array of elements, its
alternatives one behind the other, and a parse as a set of stacks of pointers into these arrays.
A function that returns `none` has not returned with the fuel given, or was aborted.
-/

namespace RocmFpx

/-- `llama_gretype`. -/
inductive Gretype where
  | endRule
  | alt
  | ruleRef
  | char
  | charNot
  | charRngUpper
  | charAlt
  | charAny
  | token
  | tokenNot
  deriving DecidableEq

/-- `llama_grammar_element`. -/
structure GrammarElement where
  type : Gretype
  value : ℕ
  deriving DecidableEq

namespace GrammarElement

def endRule : GrammarElement := ⟨.endRule, 0⟩

def isEndOfSequence (e : GrammarElement) : Bool := e.type = .endRule || e.type = .alt

def isChar (e : GrammarElement) : Bool :=
  e.type = .char || e.type = .charNot || e.type = .charAny

def isToken (e : GrammarElement) : Bool := e.type = .token || e.type = .tokenNot

/-- A range's upper end or a further character of a class stands behind what it modifies. -/
def mayFollow (e next : GrammarElement) : Bool :=
  match next.type with
  | .charRngUpper => e.type = .char || e.type = .charNot || e.type = .charAlt
  | .charAlt =>
    e.type = .char || e.type = .charNot || e.type = .charAlt || e.type = .charRngUpper
  | _ => true

/-- An array of elements whose modifiers all stand behind what they modify. -/
def Formed (es : List GrammarElement) : Prop := (⟨.alt, 0⟩ :: es).IsChain fun a b => mayFollow a b

instance (es : List GrammarElement) : Decidable (Formed es) :=
  inferInstanceAs (Decidable (List.IsChain _ _))

/-- A rule is copied up to its end. -/
def copyRule (es : List GrammarElement) : List GrammarElement :=
  es.takeWhile (fun e => e.type ≠ .endRule) ++ [endRule]

end GrammarElement

/-- `const llama_grammar_element *`, into the rules of a grammar. -/
structure ElementPtr where
  rule : ℕ
  at_ : ℕ
  deriving DecidableEq

instance lawfulBEq_pointers : LawfulBEq (List ElementPtr) := inferInstance

namespace ElementPtr

def add (p : ElementPtr) (n : ℕ) : ElementPtr := ⟨p.rule, p.at_ + n⟩

end ElementPtr

/-- The last element of `llama_grammar_stack` is the head of the list. -/
abbrev GrammarStack := List ElementPtr

abbrev GrammarRules := List (List GrammarElement)

namespace GrammarRules

open GrammarElement

variable (rules : GrammarRules)

/-- The elements of the rule from a pointer on. -/
def behind (p : ElementPtr) : List GrammarElement := ((rules[p.rule]?).getD []).drop p.at_

def elem (p : ElementPtr) : GrammarElement := (behind rules p).headD endRule

def push (p : ElementPtr) (stack : GrammarStack) : GrammarStack :=
  if (elem rules p).isEndOfSequence then stack else p :: stack

/-- Where the alternatives of a rule start, except the first. -/
def laterStarts : List GrammarElement → ℕ → List ℕ
  | [], _ => []
  | e :: es, i =>
    if e.type = .endRule then []
    else if e.type = .alt then (i + 1) :: laterStarts es (i + 1)
    else laterStarts es (i + 1)

def alternates (rule : ℕ) : List ElementPtr :=
  (0 :: laterStarts ((rules[rule]?).getD []) 0).map (ElementPtr.mk rule)

/-! ## Matching a character -/

/-- Whether a character is what an element of a class stands for, given the element behind. -/
def inRange (chr : ℕ) (e next : GrammarElement) : Bool :=
  if next.type = .charRngUpper then e.value ≤ chr && chr ≤ next.value
  else e.type = .charAny || e.value = chr

/-- How many elements of the array an element of a class takes up. -/
def rangeSize (next : GrammarElement) : ℕ := if next.type = .charRngUpper then 2 else 1

/-- The loop of `llama_grammar_match_char`; `fuel` bounds its iterations. -/
def matchLoop (chr : ℕ) : ℕ → ElementPtr → Bool → Bool × ElementPtr
  | 0, pos, found => (found, pos)
  | fuel + 1, pos, found =>
    let found := found || inRange chr (elem rules pos) (elem rules (pos.add 1))
    let pos := pos.add (rangeSize (elem rules (pos.add 1)))
    if (elem rules pos).type = .charAlt then matchLoop chr fuel pos found else (found, pos)

/-- `llama_grammar_match_char`. -/
def matchChar (pos : ElementPtr) (chr : ℕ) : Option (Bool × ElementPtr) :=
  if (elem rules pos).isChar then
    let m := matchLoop rules chr (behind rules pos).length pos false
    some (m.1 == decide ((elem rules pos).type ≠ .charNot), m.2)
  else none

/-- `llama_grammar_match_token`. -/
def matchToken (pos : ElementPtr) (token : ℕ) : Bool :=
  match (elem rules pos).type with
  | .token => (elem rules pos).value = token
  | .tokenNot => (elem rules pos).value ≠ token
  | _ => false

/-! ## Advancing the stacks -/

def visit : GrammarStack → Visit GrammarStack
  | [] => .keep
  | pos :: base =>
    if (elem rules pos).type = .ruleRef then
      .expand (((alternates rules (elem rules pos).value).map fun subpos =>
        push rules subpos (push rules (pos.add 1) base)).reverse)
    else if (elem rules pos).isChar || (elem rules pos).isToken then .keep
    else .stuck

/-- `llama_grammar_advance_stack`, with the stacks to add to. -/
def advanceStack (fuel : ℕ) (stack : GrammarStack) (newStacks : List GrammarStack) :
    Option (List GrammarStack) :=
  Worklist.search (visit rules) fuel [stack] [] newStacks

/-- `llama_grammar_accept_chr`. -/
def acceptChr (fuel : ℕ) (stack : GrammarStack) (chr : ℕ) (newStacks : List GrammarStack) :
    Option (List GrammarStack) :=
  match stack with
  | [] => some newStacks
  | pos :: base =>
    if (elem rules pos).isToken then some newStacks
    else do
      let m ← matchChar rules pos chr
      if m.1 then advanceStack rules fuel (push rules m.2 base) newStacks else some newStacks

/-- `llama_grammar_accept`. -/
def accept (fuel : ℕ) (stackList : List GrammarStack) (chr : ℕ) : Option (List GrammarStack) :=
  stackList.foldlM (fun stacksNew stack => acceptChr rules fuel stack chr stacksNew) []

/-- The stacks a grammar starts with. -/
def initialStacks (fuel startRule : ℕ) : Option (List GrammarStack) :=
  (alternates rules startRule).foldlM
    (fun newStacks pos => advanceStack rules fuel (push rules pos []) newStacks) []

/-- The stacks after a string of characters, one `llama_grammar_accept` for each. -/
def acceptAll (fuel startRule : ℕ) (chrs : List ℕ) : Option (List GrammarStack) := do
  chrs.foldlM (accept rules fuel) (← initialStacks rules fuel startRule)

end GrammarRules
end RocmFpx
