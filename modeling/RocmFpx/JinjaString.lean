import Mathlib.Data.List.DropRight

/-!
Strings of the template engine: a list of parts, each marked as input or not. The operations work on
the parts; what they do to the text that the parts are cut from is the question here.
-/

namespace RocmFpx
namespace Jinja

/-! ## Characters, in the C locale -/

def toUpper (c : UInt8) : UInt8 := if 97 ≤ c.toNat ∧ c.toNat ≤ 122 then c - 32 else c

def toLower (c : UInt8) : UInt8 := if 65 ≤ c.toNat ∧ c.toNat ≤ 90 then c + 32 else c

def isSpace (c : UInt8) : Bool := c.toNat = 32 ∨ 9 ≤ c.toNat ∧ c.toNat ≤ 13

def isLetter (c : UInt8) : Bool := 97 ≤ c.toNat ∧ c.toNat ≤ 122 ∨ 65 ≤ c.toNat ∧ c.toNat ≤ 90

theorem toUpper_eq_toLower_iff (c : UInt8) : toUpper c = toLower c ↔ isLetter c = false := by
  have h32 : (32 : UInt8).toNat = 32 := rfl
  have hlt := c.toNat_lt
  rw [← UInt8.toNat_inj, toUpper, toLower, isLetter, decide_eq_false_iff_not]
  split_ifs with hupper hlower hlower
  · omega
  · rw [UInt8.toNat_sub_of_le c 32 (UInt8.le_iff_toNat_le.mpr (by omega))]
    omega
  · rw [UInt8.toNat_add]
    omega
  · exact iff_of_true rfl (by omega)

theorem isSpace_same {c : UInt8} (h : isSpace c = true) : toUpper c = c ∧ toLower c = c := by
  rw [isSpace, decide_eq_true_iff] at h
  exact ⟨if_neg (by omega), if_neg (by omega)⟩

/-! ## Parts -/

structure StringPart where
  isInput : Bool
  val : List UInt8

def str (parts : List StringPart) : List UInt8 := parts.flatMap StringPart.val

def append (parts other : List StringPart) : List StringPart := parts ++ other

def applyTransform (fn : List UInt8 → List UInt8) (parts : List StringPart) : List StringPart :=
  parts.map fun part => { part with val := fn part.val }

def uppercaseText (s : List UInt8) : List UInt8 := s.map toUpper

def lowercaseText (s : List UInt8) : List UInt8 := s.map toLower

def capitalizeText : List UInt8 → List UInt8
  | [] => []
  | c :: s => toUpper c :: s.map toLower

/-- The loop of `titlecase`, with `capitalize_next`. -/
def titlecaseFrom : Bool → List UInt8 → List UInt8
  | _, [] => []
  | capitalizeNext, c :: s =>
    if isSpace c then c :: titlecaseFrom true s
    else if capitalizeNext then toUpper c :: titlecaseFrom false s
    else toLower c :: titlecaseFrom false s

def titlecaseText (s : List UInt8) : List UInt8 := titlecaseFrom true s

def uppercase : List StringPart → List StringPart := applyTransform uppercaseText

def lowercase : List StringPart → List StringPart := applyTransform lowercaseText

def capitalize : List StringPart → List StringPart := applyTransform capitalizeText

def titlecase : List StringPart → List StringPart := applyTransform titlecaseText

def matchChar (chars : Option (List UInt8)) (c : UInt8) : Bool :=
  match chars with
  | some chars => chars.contains c
  | none => isSpace c

/-- `strip_part`. -/
def stripPart (left right : Bool) (chars : Option (List UInt8)) (s : List UInt8) : List UInt8 :=
  let s := if left then s.dropWhile (matchChar chars) else s
  if right then s.rdropWhile (matchChar chars) else s

/-- The loop over the parts from one end; a part that becomes empty is removed. -/
def stripParts (fn : List UInt8 → List UInt8) : List StringPart → List StringPart
  | [] => []
  | part :: parts =>
    if fn part.val = [] then stripParts fn parts else { part with val := fn part.val } :: parts

def strip (left right : Bool) (chars : Option (List UInt8)) (parts : List StringPart) :
    List StringPart :=
  let parts := if left then stripParts (stripPart true false chars) parts else parts
  if right then (stripParts (stripPart false true chars) parts.reverse).reverse else parts

@[simp] theorem str_cons (part : StringPart) (parts : List StringPart) :
    str (part :: parts) = part.val ++ str parts := rfl

theorem str_append (parts other : List StringPart) :
    str (append parts other) = str parts ++ str other := List.flatMap_append

theorem str_applyTransform_map (f : UInt8 → UInt8) (parts : List StringPart) :
    str (applyTransform (List.map f) parts) = (str parts).map f := by
  induction parts with
  | nil => rfl
  | cons part parts ih =>
    rw [str_cons, List.map_append, ← ih]
    rfl

/-! ## Stripping -/

theorem dropWhile_append_eq (p : UInt8 → Bool) (s t : List UInt8) :
    (s ++ t).dropWhile p = if s.dropWhile p = [] then t.dropWhile p else s.dropWhile p ++ t := by
  rw [List.dropWhile_append]
  simp only [List.isEmpty_iff]

theorem rdropWhile_append_eq (p : UInt8 → Bool) (s t : List UInt8) :
    (s ++ t).rdropWhile p =
      if t.rdropWhile p = [] then s.rdropWhile p else s ++ t.rdropWhile p := by
  simp only [List.rdropWhile, List.reverse_append, dropWhile_append_eq, List.reverse_eq_nil_iff]
  split_ifs
  · rfl
  · rw [List.reverse_append, List.reverse_reverse]

theorem str_stripParts_left (chars : Option (List UInt8)) (parts : List StringPart) :
    str (stripParts (stripPart true false chars) parts) =
      (str parts).dropWhile (matchChar chars) := by
  induction parts with
  | nil => rfl
  | cons part parts ih =>
    rw [str_cons, dropWhile_append_eq, ← ih, stripParts]
    change str (if part.val.dropWhile (matchChar chars) = [] then _ else _) = _
    split_ifs <;> rfl

theorem str_reverse_cons (part : StringPart) (parts : List StringPart) :
    str (part :: parts).reverse = str parts.reverse ++ part.val := by
  rw [List.reverse_cons, ← append, str_append]
  exact congrArg (_ ++ ·) (List.append_nil part.val)

theorem str_stripParts_right (chars : Option (List UInt8)) (parts : List StringPart) :
    str (stripParts (stripPart false true chars) parts).reverse =
      (str parts.reverse).rdropWhile (matchChar chars) := by
  induction parts with
  | nil => rfl
  | cons part parts ih =>
    rw [str_reverse_cons, rdropWhile_append_eq, ← ih, stripParts]
    change str (List.reverse (if part.val.rdropWhile (matchChar chars) = [] then _ else _)) = _
    split_ifs
    · rfl
    · exact str_reverse_cons _ _

theorem str_strip (left right : Bool) (chars : Option (List UInt8)) (parts : List StringPart) :
    str (strip left right chars parts) = stripPart left right chars (str parts) := by
  have hright : ∀ parts, str (stripParts (stripPart false true chars) parts.reverse).reverse =
      (str parts).rdropWhile (matchChar chars) := fun parts => by
    rw [str_stripParts_right, List.reverse_reverse]
  cases left <;> cases right
  · rfl
  · exact hright parts
  · exact str_stripParts_left chars parts
  · exact (hright _).trans (congrArg _ (str_stripParts_left chars parts))

/-! ## Capitals -/

/-- A text read with one bit, whether the next letter becomes a capital; the bit after a character
does not depend on the bit before. -/
def capitals (next : UInt8 → Bool) : Bool → List UInt8 → List UInt8
  | _, [] => []
  | capital, c :: s => (if capital then toUpper c else toLower c) :: capitals next (next c) s

/-- The bit behind a text. -/
def capitalAfter (next : UInt8 → Bool) (capital : Bool) (s : List UInt8) : Bool :=
  s.foldl (fun _ c => next c) capital

/-- Every part that the bit reaches unset begins with no letter. -/
def StartsPlain (next : UInt8 → Bool) : Bool → List StringPart → Prop
  | _, [] => True
  | capital, part :: parts =>
    (capital = false → ∀ c ∈ part.val.head?, isLetter c = false) ∧
      StartsPlain next (capitalAfter next capital part.val) parts

section
variable (next : UInt8 → Bool) (capital : Bool)

theorem capitals_append (s t : List UInt8) : capitals next capital (s ++ t) =
    capitals next capital s ++ capitals next (capitalAfter next capital s) t := by
  induction s generalizing capital with
  | nil => rfl
  | cons c s ih => exact congrArg (_ :: ·) (ih (next c))

theorem length_capitals (s : List UInt8) : (capitals next capital s).length = s.length := by
  induction s generalizing capital with
  | nil => rfl
  | cons c s ih => exact congrArg (· + 1) (ih (next c))

theorem capitals_true_iff (s : List UInt8) : capitals next true s = capitals next capital s ↔
    (capital = false → ∀ c ∈ s.head?, isLetter c = false) := by
  cases capital with
  | true => exact iff_of_true rfl fun h => absurd h Bool.true_eq_false.mp
  | false =>
    cases s with
    | nil => exact iff_of_true rfl fun _ c hc => by cases hc
    | cons c s =>
      simp [capitals, ← toUpper_eq_toLower_iff]

theorem str_capitals_iff (parts : List StringPart) :
    str (applyTransform (capitals next true) parts) = capitals next capital (str parts) ↔
      StartsPlain next capital parts := by
  induction parts generalizing capital with
  | nil => exact iff_of_true rfl trivial
  | cons part parts ih =>
    rw [str_cons, capitals_append, StartsPlain, ← ih, ← capitals_true_iff next]
    have hlength : (capitals next true part.val).length = (capitals next capital part.val).length :=
      by rw [length_capitals, length_capitals]
    exact ⟨fun heq => List.append_inj heq hlength, fun ⟨hpart, hrest⟩ =>
      congrArg₂ (· ++ ·) hpart hrest⟩

end

theorem capitalizeText_eq (s : List UInt8) :
    capitalizeText s = capitals (fun _ => false) true s := by
  have hrest : ∀ s : List UInt8, s.map toLower = capitals (fun _ => false) false s := by
    intro s
    induction s with
    | nil => rfl
    | cons c s ih => exact congrArg (toLower c :: ·) ih
  cases s with
  | nil => rfl
  | cons c s => exact congrArg (toUpper c :: ·) (hrest s)

theorem titlecaseFrom_eq (capital : Bool) (s : List UInt8) :
    titlecaseFrom capital s = capitals isSpace capital s := by
  induction s generalizing capital with
  | nil => rfl
  | cons c s ih =>
    rw [titlecaseFrom, capitals]
    by_cases hspace : isSpace c = true
    · obtain ⟨hupper, hlower⟩ := isSpace_same hspace
      rw [if_pos hspace, hupper, hlower, ite_self, hspace, ih]
    · rw [if_neg hspace, Bool.eq_false_iff.mpr hspace, ih]
      split_ifs <;> rfl

/-- Two strings of one text have one result, that of the text. -/
def SameResult (op : List StringPart → List StringPart) (whole : List UInt8 → List UInt8)
    (parts other : List StringPart) : Prop :=
  str (op parts) = str (op other) ∧ str (op parts) = whole (str parts)

theorem sameResult_iff {op : List StringPart → List StringPart}
    {whole : List UInt8 → List UInt8} {parts other : List StringPart}
    (h : str parts = str other) : SameResult op whole parts other ↔
      str (op parts) = whole (str parts) ∧ str (op other) = whole (str other) := by
  rw [SameResult, ← h]
  exact ⟨fun ⟨hsame, heq⟩ => ⟨heq, hsame ▸ heq⟩, fun ⟨heq, hother⟩ => ⟨heq.trans hother.symm, heq⟩⟩

/-- Changing the case of single characters and stripping never see the parts. A part that begins
with a letter is what capitals go wrong on, when text comes before it, or a word. -/
theorem operations_iff (parts other : List StringPart) (h : str parts = str other) :
    SameResult uppercase uppercaseText parts other ∧
    SameResult lowercase lowercaseText parts other ∧
    (∀ left right chars,
      SameResult (strip left right chars) (stripPart left right chars) parts other) ∧
    (SameResult capitalize capitalizeText parts other ↔
      StartsPlain (fun _ => false) true parts ∧ StartsPlain (fun _ => false) true other) ∧
    (SameResult titlecase titlecaseText parts other ↔
      StartsPlain isSpace true parts ∧ StartsPlain isSpace true other) := by
  refine ⟨(sameResult_iff h).mpr ⟨str_applyTransform_map _ _, str_applyTransform_map _ _⟩,
    (sameResult_iff h).mpr ⟨str_applyTransform_map _ _, str_applyTransform_map _ _⟩,
    fun left right chars => (sameResult_iff h).mpr ⟨str_strip .., str_strip ..⟩, ?_, ?_⟩
  · rw [sameResult_iff h, ← str_capitals_iff, ← str_capitals_iff, ← funext capitalizeText_eq]
    rfl
  · rw [sameResult_iff h, ← str_capitals_iff, ← str_capitals_iff,
      ← funext (titlecaseFrom_eq true)]
    rfl

/-! ## One text in one part and in two -/

def hello : List StringPart := [⟨false, [104, 105]⟩]

def helloCut : List StringPart := [⟨false, [104]⟩, ⟨true, [105]⟩]

theorem operations_hello : SameResult capitalize capitalizeText hello helloCut ↔
    StartsPlain (fun _ => false) true hello ∧ StartsPlain (fun _ => false) true helloCut :=
  (operations_iff hello helloCut rfl).2.2.2.1

/-- The second part gets a capital of its own. -/
theorem capitalize_helloCut : ¬ ∀ parts other, str parts = str other →
    SameResult capitalize capitalizeText parts other ∧
      SameResult titlecase titlecaseText parts other := fun h =>
  absurd (h hello helloCut rfl).1.1 (by decide)

end Jinja
end RocmFpx
