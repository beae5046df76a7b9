import RocmFpx.TokenRoundTrip
import Mathlib.Data.List.DropRight

/-!
`tokenizer_st_partition`: special tokens are cut out of a text by editing a list of fragments while
an iterator goes over it. A fragment of raw text is a range of the one text all of them share. What
the loop comes to is stated of the texts alone: the occurrences of one token after the other are
replaced, the leftmost first, in what raw text is left.
-/

namespace RocmFpx
namespace SpecialPartition

open MergeTokenizer

/-! ## The list and its iterator -/

/-- `fragment_buffer_variant`; all raw texts are ranges of one string. -/
inductive FragmentVariant where
  | token (token : ℕ)
  | rawText (offset length : ℕ)
  deriving DecidableEq

/-- The list, and the position of the element the iterator is on. -/
structure Cursor where
  buffer : List FragmentVariant
  it : ℕ

/-- `buffer.emplace_after(it, ..); it++;` -/
def Cursor.emplaceAfter (c : Cursor) (fragment : FragmentVariant) : Cursor :=
  ⟨c.buffer.insertIdx (c.it + 1) fragment, c.it + 1⟩

/-- A range of the text is put in unless it is empty. The constructor asserts that it ends inside of
the text. -/
def Cursor.emplaceText (c : Cursor) (rawText : List UInt8) (offset length : ℕ) : Option Cursor :=
  if length = 0 then some c
  else if offset + length ≤ rawText.length then some (c.emplaceAfter (.rawText offset length))
  else none

/-- The element at a position before the iterator is erased. -/
def Cursor.eraseBefore (c : Cursor) (source : ℕ) : Cursor :=
  ⟨c.buffer.eraseIdx source, c.it - 1⟩

/-- The iterator is on the last element of the first list. -/
def cursorAfter (done rest : List FragmentVariant) : Cursor := ⟨done ++ rest, done.length - 1⟩

theorem emplaceAfter_cursorAfter {done : List FragmentVariant} (h : done ≠ [])
    (rest : List FragmentVariant) (fragment : FragmentVariant) :
    (cursorAfter done rest).emplaceAfter fragment = cursorAfter (done ++ [fragment]) rest := by
  have hlen : done.length - 1 + 1 = done.length := Nat.sub_add_cancel (List.length_pos_iff.mpr h)
  have hinsert : ∀ l : List FragmentVariant,
      (l ++ rest).insertIdx l.length fragment = l ++ fragment :: rest := by
    intro l
    induction l with
    | nil => rfl
    | cons a l ih => exact congrArg (a :: ·) ih
  rw [Cursor.emplaceAfter, cursorAfter, cursorAfter]
  dsimp only
  rw [hlen, hinsert, List.append_assoc, List.length_append]
  rfl

theorem eraseBefore_cursorAfter (done more rest : List FragmentVariant) (f : FragmentVariant) :
    (cursorAfter (done ++ f :: more) rest).eraseBefore done.length =
      cursorAfter (done ++ more) rest := by
  have herase : ∀ l : List FragmentVariant,
      (done ++ f :: l).eraseIdx done.length = done ++ l := by
    intro l
    rw [List.eraseIdx_append_of_length_le le_rfl, Nat.sub_self, List.eraseIdx_cons_zero]
  rw [Cursor.eraseBefore, cursorAfter, cursorAfter, Cursor.mk.injEq]
  constructor
  · rw [List.append_assoc, List.cons_append, herase, ← List.append_assoc]
  · simp only [List.length_append, List.length_cons]
    omega

/-! ## The rounds -/

/-- `LLAMA_TOKEN_ATTR_LSTRIP`: what is left of the length. -/
def lstripLength (rawText : List UInt8) (offset : ℕ) : ℕ → ℕ
  | 0 => 0
  | n + 1 =>
    if isSpace (rawText.getD (offset + n) 0) then lstripLength rawText offset n else n + 1

/-- `LLAMA_TOKEN_ATTR_RSTRIP`: what is left of the range. -/
def rstripRange (rawText : List UInt8) : ℕ → ℕ → ℕ × ℕ
  | offset, 0 => (offset, 0)
  | offset, n + 1 =>
    if isSpace (rawText.getD offset 0) then rstripRange rawText (offset + 1) n
    else (offset, n + 1)

section
variable {S : Type} (rawText : List UInt8) (id : ℕ) (data : MergeTokenizer.TokenData S)

def leftRange (offset pos : ℕ) : ℕ × ℕ :=
  (offset, if data.attr.lstrip then lstripLength rawText offset (pos - offset) else pos - offset)

/-- The text to the left of a match. -/
def emplaceLeft (offset pos : ℕ) (c : Cursor) : Option Cursor :=
  let left := leftRange rawText data offset pos
  if offset < pos then c.emplaceText rawText left.1 left.2 else some c

def rightRange (offset length pos : ℕ) : ℕ × ℕ :=
  let rightOffset := pos + data.text.length
  let rightLength := length - ((pos - offset) + data.text.length)
  if data.attr.rstrip then rstripRange rawText rightOffset rightLength
  else (rightOffset, rightLength)

/-- The loop over the text of one fragment, which the iterator is on. -/
def splitText : ℕ → ℕ → ℕ → Cursor → Option Cursor
  | 0, _, _, _ => none
  | n + 1, offset, length, c =>
    match findFrom (rawText.take (offset + length)) data.text offset with
    | none => some c
    | some pos => do
      let source := c.it
      let c ← emplaceLeft rawText data offset pos c
      let c := c.emplaceAfter (.token id)
      if pos + data.text.length < offset + length then
        let right := rightRange rawText data offset length pos
        let c ← c.emplaceText rawText right.1 right.2
        splitText n right.1 right.2 (c.eraseBefore source)
      else some (c.eraseBefore source)

/-- The loop over the fragments for one special token. -/
def splitFragments : ℕ → Cursor → Option (List FragmentVariant)
  | 0, _ => none
  | n + 1, c =>
    match c.buffer[c.it]? with
    | none => some c.buffer
    | some (.token _) => splitFragments n ⟨c.buffer, c.it + 1⟩
    | some (.rawText offset length) => do
      let c ← splitText rawText id data (rawText.length + 1) offset length c
      splitFragments n ⟨c.buffer, c.it + 1⟩

end

/-- Control and unknown tokens are ignored unless special tokens are parsed. -/
def ignored {S : Type} (parseSpecial : Bool) (data : MergeTokenizer.TokenData S) : Bool :=
  !parseSpecial && (data.attr.control || data.attr.unknown)

/-- `tokenizer_st_partition`. -/
def stPartition {S : Type} (idToToken : List (MergeTokenizer.TokenData S)) (parseSpecial : Bool)
    (rawText : List UInt8) : List ℕ → List FragmentVariant → Option (List FragmentVariant)
  | [], buffer => some buffer
  | id :: cache, buffer => do
    let data ← idToToken[id]?
    if ignored parseSpecial data then stPartition idToToken parseSpecial rawText cache buffer
    else
      let buffer ← splitFragments rawText id data (buffer.length + 1) ⟨buffer, 0⟩
      stPartition idToToken parseSpecial rawText cache buffer

/-- The list `tokenize` begins with. -/
def textBuffer (rawText : List UInt8) : List FragmentVariant :=
  if rawText.isEmpty then [] else [.rawText 0 rawText.length]

/-! ## What the fragments stand for -/

def substr (rawText : List UInt8) (offset length : ℕ) : List UInt8 :=
  (rawText.drop offset).take length

def FragmentVariant.fragment (rawText : List UInt8) : FragmentVariant → Fragment
  | .token id => .token id
  | .rawText offset length => .rawText (substr rawText offset length)

/-- What the constructor asserts. -/
def FragmentVariant.Valid (rawText : List UInt8) : FragmentVariant → Prop
  | .token _ => True
  | .rawText offset length => 0 < length ∧ offset + length ≤ rawText.length

theorem length_substr {rawText : List UInt8} {offset length : ℕ}
    (h : offset + length ≤ rawText.length) : (substr rawText offset length).length = length := by
  rw [substr, List.length_take, List.length_drop]
  omega

theorem drop_take_eq_substr (rawText : List UInt8) (offset length : ℕ) :
    (rawText.take (offset + length)).drop offset = substr rawText offset length := by
  rw [substr, List.drop_take, Nat.add_sub_cancel_left]

theorem substr_add (rawText : List UInt8) (offset m n : ℕ) :
    substr rawText offset (m + n) = substr rawText offset m ++ substr rawText (offset + m) n := by
  rw [substr, List.take_add, List.drop_drop]
  rfl

theorem substr_one {rawText : List UInt8} {offset : ℕ} (h : offset < rawText.length) :
    substr rawText offset 1 = [rawText.getD offset 0] := by
  rw [substr, List.drop_eq_getElem_cons h, List.take_succ_cons, List.take_zero,
    List.getD_eq_getElem _ _ h]

theorem substr_eq_append {rawText : List UInt8} {offset length : ℕ} {left right : List UInt8}
    (hend : offset + length ≤ rawText.length) (h : substr rawText offset length = left ++ right) :
    length = left.length + right.length ∧ substr rawText offset left.length = left ∧
      substr rawText (offset + left.length) right.length = right := by
  have hlength : length = left.length + right.length := by
    rw [← length_substr hend, h, List.length_append]
  rw [hlength, substr_add] at h
  have hleft : (substr rawText offset left.length).length = left.length :=
    length_substr (by omega)
  obtain ⟨hl, hr⟩ := List.append_inj h hleft
  exact ⟨hlength, hl, hr⟩

theorem lstripLength_spec {rawText : List UInt8} {offset : ℕ} (n : ℕ)
    (h : offset + n ≤ rawText.length) :
    lstripLength rawText offset n ≤ n ∧
      substr rawText offset (lstripLength rawText offset n) =
        (substr rawText offset n).rdropWhile isSpace := by
  induction n with
  | zero => exact ⟨le_rfl, rfl⟩
  | succ n ih =>
    obtain ⟨hle, hsub⟩ := ih (by omega)
    rw [substr_add, substr_one (show offset + n < rawText.length by omega), lstripLength]
    split_ifs with hspace
    · rw [List.rdropWhile_concat_pos _ _ _ hspace]
      exact ⟨hle.trans (Nat.le_succ n), hsub⟩
    · rw [List.rdropWhile_concat_neg _ _ _ hspace, ← substr_one (by omega), ← substr_add]
      exact ⟨le_rfl, rfl⟩

theorem rstripRange_spec {rawText : List UInt8} (n : ℕ) {offset : ℕ}
    (h : offset + n ≤ rawText.length) :
    (rstripRange rawText offset n).1 + (rstripRange rawText offset n).2 = offset + n ∧
      (rstripRange rawText offset n).2 ≤ n ∧
      substr rawText (rstripRange rawText offset n).1 (rstripRange rawText offset n).2 =
        (substr rawText offset n).dropWhile isSpace := by
  induction n generalizing offset with
  | zero => exact ⟨rfl, le_rfl, rfl⟩
  | succ n ih =>
    obtain ⟨hsum, hle, hsub⟩ := ih (show offset + 1 + n ≤ rawText.length by omega)
    rw [Nat.add_comm n 1, substr_add, substr_one (show offset < rawText.length by omega),
      Nat.add_comm 1 n, rstripRange, List.singleton_append, List.dropWhile_cons]
    split_ifs with hspace
    · exact ⟨by omega, by omega, hsub⟩
    · refine ⟨rfl, le_rfl, ?_⟩
      rw [Nat.add_comm n 1, substr_add, substr_one (by omega)]
      rfl

/-! ## Replacing occurrences -/

section
variable {S : Type} (id : ℕ) (data : MergeTokenizer.TokenData S)

def lstripped (text : List UInt8) : List UInt8 :=
  if data.attr.lstrip then text.rdropWhile isSpace else text

def rstripped (text : List UInt8) : List UInt8 :=
  if data.attr.rstrip then text.dropWhile isSpace else text

/-- What becomes of a raw text when the occurrences of the text of a token are replaced from left
to right. -/
inductive Replaced : List UInt8 → List Fragment → Prop
  | none {text : List UInt8} (h : ¬ data.text <:+: text) : Replaced text (rawFragment text)
  | first {left right : List UInt8} {fragments : List Fragment}
      (hfirst : Leftmost data.text left right)
      (h : Replaced (rstripped data right) fragments) :
      Replaced (left ++ (data.text ++ right))
        (rawFragment (lstripped data left) ++ .token id :: fragments)

/-- The same for a list of fragments. -/
inductive ReplacedAll : List Fragment → List Fragment → Prop
  | nil : ReplacedAll [] []
  | token (other : ℕ) {fs gs : List Fragment} (h : ReplacedAll fs gs) :
      ReplacedAll (.token other :: fs) (.token other :: gs)
  | rawText {text : List UInt8} {pieces fs gs : List Fragment} (ht : Replaced id data text pieces)
      (h : ReplacedAll fs gs) : ReplacedAll (.rawText text :: fs) (pieces ++ gs)

end

/-- The same for one token after the other. -/
inductive Partitioned {S : Type} (idToToken : List (MergeTokenizer.TokenData S)) :
    List ℕ → List Fragment → List Fragment → Prop
  | nil (fs : List Fragment) : Partitioned idToToken [] fs fs
  | cons {id : ℕ} {data : MergeTokenizer.TokenData S} {ids : List ℕ} {fs gs hs : List Fragment}
      (ht : idToToken[id]? = some data) (h : ReplacedAll id data fs gs)
      (hrest : Partitioned idToToken ids gs hs) : Partitioned idToToken (id :: ids) fs hs

theorem rawFragment_nil : rawFragment [] = [] := rfl

theorem rawFragment_of_ne {text : List UInt8} (h : text ≠ []) :
    rawFragment text = [.rawText text] :=
  if_neg fun he => h (List.isEmpty_iff.mp he)

theorem mem_rawFragment {text piece : List UInt8} :
    Fragment.rawText piece ∈ rawFragment text ↔ piece = text ∧ text ≠ [] := by
  by_cases h : text = []
  · simp [h, rawFragment_nil]
  · simp [h, rawFragment_of_ne h]

theorem token_notMem_rawFragment (text : List UInt8) (id : ℕ) :
    Fragment.token id ∉ rawFragment text := by
  by_cases h : text = []
  · simp [h, rawFragment_nil]
  · simp [rawFragment_of_ne h]

/-! ## The rounds replace -/

section
variable {S : Type} {rawText : List UInt8} {id : ℕ} {data : MergeTokenizer.TokenData S}

theorem findFrom_range {offset length : ℕ} (hend : offset + length ≤ rawText.length)
    (search : List UInt8) : findFrom (rawText.take (offset + length)) search offset =
      (findText search (substr rawText offset length)).map (offset + ·) := by
  rw [findFrom, if_pos (by rw [List.length_take]; omega), drop_take_eq_substr]

/-- What `emplaceText` puts in. -/
def rangeFragment (offset length : ℕ) : List FragmentVariant :=
  if length = 0 then [] else [.rawText offset length]

theorem emplaceText_cursorAfter {done : List FragmentVariant} (h : done ≠ [])
    (rest : List FragmentVariant) {offset length : ℕ} (hend : offset + length ≤ rawText.length) :
    (cursorAfter done rest).emplaceText rawText offset length =
      some (cursorAfter (done ++ rangeFragment offset length) rest) := by
  rw [Cursor.emplaceText, rangeFragment]
  split_ifs
  · rw [List.append_nil]
  · rw [emplaceAfter_cursorAfter h]

theorem rangeFragment_valid {offset length : ℕ} (hend : offset + length ≤ rawText.length) :
    ∀ f ∈ rangeFragment offset length, f.Valid rawText := by
  rw [rangeFragment]
  split_ifs with hzero
  · simp
  · simp only [List.mem_singleton, forall_eq]
    exact ⟨Nat.pos_of_ne_zero hzero, hend⟩

theorem rangeFragment_fragment {offset length : ℕ} (hend : offset + length ≤ rawText.length) :
    (rangeFragment offset length).map (·.fragment rawText) =
      rawFragment (substr rawText offset length) := by
  have hlength := length_substr hend
  rw [rangeFragment]
  split_ifs with hzero
  · rw [List.length_eq_zero_iff.mp (hlength.trans hzero)]
    rfl
  · rw [rawFragment_of_ne fun he => hzero (hlength.symm.trans (by rw [he]; rfl))]
    rfl

theorem leftRange_spec (data : MergeTokenizer.TokenData S) {offset : ℕ} {left : List UInt8}
    (hend : offset + left.length ≤ rawText.length)
    (hleft : substr rawText offset left.length = left) :
    let range := leftRange rawText data offset (offset + left.length)
    range.1 + range.2 ≤ rawText.length ∧
      substr rawText range.1 range.2 = lstripped data left := by
  obtain ⟨hle, hsub⟩ := lstripLength_spec left.length hend
  dsimp only
  rw [leftRange, lstripped, Nat.add_sub_cancel_left]
  split_ifs
  · exact ⟨by dsimp only; omega, hsub.trans (congrArg _ hleft)⟩
  · exact ⟨hend, hleft⟩

theorem rightRange_spec (data : MergeTokenizer.TokenData S) {offset k : ℕ} {right : List UInt8}
    (hend : offset + k + data.text.length + right.length ≤ rawText.length)
    (hright : substr rawText (offset + k + data.text.length) right.length = right) :
    let range := rightRange rawText data offset (k + (data.text.length + right.length)) (offset + k)
    range.1 + range.2 ≤ rawText.length ∧ range.2 ≤ right.length ∧
      substr rawText range.1 range.2 = rstripped data right := by
  obtain ⟨hsum, hle, hsub⟩ := rstripRange_spec right.length hend
  have hlength : k + (data.text.length + right.length) - (offset + k - offset + data.text.length) =
      right.length := by omega
  dsimp only
  rw [rightRange, rstripped, hlength]
  split_ifs
  · exact ⟨hsum.le.trans hend, hle, hsub.trans (congrArg _ hright)⟩
  · exact ⟨hend, le_rfl, hright⟩

theorem emplaceLeft_cursorAfter {done : List FragmentVariant} (h : done ≠ [])
    (rest : List FragmentVariant) {offset : ℕ} {left : List UInt8}
    (hend : offset + left.length ≤ rawText.length)
    (hleft : substr rawText offset left.length = left) :
    let range := leftRange rawText data offset (offset + left.length)
    emplaceLeft rawText data offset (offset + left.length) (cursorAfter done rest) =
      some (cursorAfter (done ++ rangeFragment range.1 range.2) rest) := by
  obtain ⟨hrange, -⟩ := leftRange_spec data hend hleft
  dsimp only
  rw [emplaceLeft]
  split_ifs with hlt
  · exact emplaceText_cursorAfter h rest hrange
  · have hzero : offset + left.length - offset = 0 := by omega
    have hrange : rangeFragment (leftRange rawText data offset (offset + left.length)).1
        (leftRange rawText data offset (offset + left.length)).2 = [] := by
      rw [leftRange, hzero, lstripLength, ite_self]
      rfl
    rw [hrange, List.append_nil]

theorem splitText_round (id n : ℕ) {offset length : ℕ} {left right : List UInt8}
    (hend : offset + length ≤ rawText.length)
    (hslice : substr rawText offset length = left ++ (data.text ++ right))
    (hfind : findText data.text (substr rawText offset length) = some left.length)
    (done rest : List FragmentVariant) :
    let l := leftRange rawText data offset (offset + left.length)
    let r := rightRange rawText data offset length (offset + left.length)
    let pieces := rangeFragment l.1 l.2 ++ [.token id]
    splitText rawText id data (n + 1) offset length
        (cursorAfter (done ++ [.rawText offset length]) rest) =
      if right = [] then some (cursorAfter (done ++ pieces) rest)
      else splitText rawText id data n r.1 r.2
        (cursorAfter (done ++ (pieces ++ rangeFragment r.1 r.2)) rest) := by
  obtain ⟨hlength, hleft, hmid⟩ := substr_eq_append hend hslice
  rw [List.length_append] at hlength
  obtain ⟨-, -, hright⟩ := substr_eq_append (by rw [List.length_append]; omega) hmid
  have hrange : (rightRange rawText data offset length (offset + left.length)).1 +
      (rightRange rawText data offset length (offset + left.length)).2 ≤ rawText.length :=
    hlength ▸ (rightRange_spec data (by omega) hright).1
  have hsource : (cursorAfter (done ++ [.rawText offset length]) rest).it = done.length := by
    rw [cursorAfter, List.length_append]
    rfl
  have hne : ∀ l : List FragmentVariant, done ++ [.rawText offset length] ++ l ≠ [] := by
    intro l he
    simp at he
  have hassoc : ∀ l : List FragmentVariant,
      done ++ [.rawText offset length] ++ l = done ++ .rawText offset length :: l := by
    intro l
    rw [List.append_assoc]
    rfl
  dsimp only
  rw [splitText, findFrom_range hend, hfind, Option.map_some]
  dsimp only
  rw [emplaceLeft_cursorAfter (by simp) rest (by omega) hleft, hsource]
  simp only [Option.bind_eq_bind, Option.bind_some]
  rw [emplaceAfter_cursorAfter (hne _)]
  by_cases hlast : right = []
  · rw [if_pos hlast, if_neg (by rw [hlength, hlast, List.length_nil]; omega), List.append_assoc,
      hassoc, eraseBefore_cursorAfter]
  · have hpos := List.length_pos_iff.mpr hlast
    rw [if_neg hlast, if_pos (by omega), List.append_assoc (done ++ _),
      emplaceText_cursorAfter (hne _) rest hrange, Option.bind_some, List.append_assoc (done ++ _),
      hassoc, eraseBefore_cursorAfter]

theorem splitText_zero (hne : data.text ≠ []) (id n : ℕ) {offset : ℕ}
    (hend : offset ≤ rawText.length) (c : Cursor) :
    splitText rawText id data (n + 1) offset 0 c = some c := by
  have hnone : findText data.text [] = none :=
    findText_none fun hocc => hne (List.infix_nil.mp hocc)
  have hnil : substr rawText offset 0 = [] := rfl
  rw [splitText, findFrom_range hend, hnil, hnone]
  rfl

theorem splitText_spec (id : ℕ) (hne : data.text ≠ []) (n : ℕ) {offset length : ℕ} (hpos : 0 < length)
    (hend : offset + length ≤ rawText.length) (hn : length < n)
    (done rest : List FragmentVariant) : ∃ fragments, fragments ≠ [] ∧
      splitText rawText id data n offset length
          (cursorAfter (done ++ [.rawText offset length]) rest) =
        some (cursorAfter (done ++ fragments) rest) ∧
      (∀ f ∈ fragments, f.Valid rawText) ∧
      Replaced id data (substr rawText offset length) (fragments.map (·.fragment rawText)) := by
  have hempty : Replaced id data [] [] := .none fun hocc => hne (List.infix_nil.mp hocc)
  induction n generalizing offset length done with
  | zero => exact absurd hn (Nat.not_lt_zero _)
  | succ n ih =>
    cases hfind : findText data.text (substr rawText offset length) with
    | none =>
      refine ⟨[.rawText offset length], List.cons_ne_nil _ _, ?_, ?_, ?_⟩
      · rw [splitText, findFrom_range hend, hfind]
        rfl
      · simp only [List.mem_singleton, forall_eq]
        exact ⟨hpos, hend⟩
      · have hslice : substr rawText offset length ≠ [] := fun he =>
          hpos.ne' ((length_substr hend).symm.trans (congrArg List.length he))
        have hnone : Replaced id data _ _ := .none (findText_eq_none hfind)
        rwa [rawFragment_of_ne hslice] at hnone
    | some pos =>
      obtain ⟨left, right, hslice, rfl, hfirst⟩ := findText_eq_some hfind
      obtain ⟨hlength, hleft, hmid⟩ := substr_eq_append hend hslice
      rw [List.length_append] at hlength
      obtain ⟨-, -, hright⟩ := substr_eq_append (by rw [List.length_append]; omega) hmid
      have htext := List.length_pos_iff.mpr hne
      have hround := splitText_round id n hend hslice hfind done rest
      obtain ⟨hlend, hlsub⟩ := leftRange_spec data (by omega) hleft
      have hrspec := rightRange_spec data (by omega) hright
      rw [← hlength] at hrspec
      obtain ⟨hrend, hrle, hrsub⟩ := hrspec
      generalize leftRange rawText data offset (offset + left.length) = l at *
      generalize rightRange rawText data offset length (offset + left.length) = r at *
      dsimp only at hround
      -- what the rounds over the text to the right leave
      obtain ⟨more, hmore, hvalid, hrep⟩ : ∃ more,
          splitText rawText id data (n + 1) offset length
              (cursorAfter (done ++ [.rawText offset length]) rest) =
            some (cursorAfter (done ++ (rangeFragment l.1 l.2 ++ [.token id] ++ more)) rest) ∧
          (∀ f ∈ more, f.Valid rawText) ∧
          Replaced id data (rstripped data right) (more.map (·.fragment rawText)) := by
        by_cases hlast : right = []
        · refine ⟨[], ?_, by simp, ?_⟩
          · rw [hround, if_pos hlast, List.append_nil]
          · rw [hlast, rstripped, List.dropWhile_nil, ite_self]
            exact hempty
        · rw [if_neg hlast] at hround
          rcases Nat.eq_zero_or_pos r.2 with hzero | hrpos
          · obtain ⟨m, rfl⟩ : ∃ m, n = m + 1 := ⟨n - 1, by omega⟩
            refine ⟨[], ?_, by simp, ?_⟩
            · rw [hround, hzero, splitText_zero hne id m (by omega)]
              rfl
            · rw [← hrsub, hzero]
              exact hempty
          · obtain ⟨more, -, hmore, hvalid, hrep⟩ :=
              ih hrpos hrend (by omega) (done ++ (rangeFragment l.1 l.2 ++ [.token id]))
            have hrange : rangeFragment r.1 r.2 = [.rawText r.1 r.2] := if_neg hrpos.ne'
            refine ⟨more, ?_, hvalid, hrsub ▸ hrep⟩
            rw [hround, hrange, ← List.append_assoc, hmore, List.append_assoc]
      refine ⟨rangeFragment l.1 l.2 ++ [.token id] ++ more, by simp, hmore, ?_, ?_⟩
      · intro f hf
        rcases List.mem_append.mp hf with hf | hf
        · rcases List.mem_append.mp hf with hf | hf
          · exact rangeFragment_valid hlend f hf
          · obtain rfl := List.mem_singleton.mp hf
            trivial
        · exact hvalid f hf
      · rw [hslice, List.map_append, List.map_append, rangeFragment_fragment hlend, hlsub,
          List.append_assoc]
        exact .first hfirst hrep

theorem splitFragments_spec (id : ℕ) (hne : data.text ≠ []) (rest : List FragmentVariant)
    (hvalid : ∀ f ∈ rest, f.Valid rawText) (n : ℕ) (hn : rest.length < n)
    (done : List FragmentVariant) : ∃ fragments,
      splitFragments rawText id data n ⟨done ++ rest, done.length⟩ = some (done ++ fragments) ∧
      (∀ f ∈ fragments, f.Valid rawText) ∧
      ReplacedAll id data (rest.map (·.fragment rawText)) (fragments.map (·.fragment rawText)) := by
  induction rest generalizing n done with
  | nil =>
    obtain ⟨n, rfl⟩ : ∃ m, n = m + 1 := ⟨n - 1, by omega⟩
    refine ⟨[], ?_, hvalid, .nil⟩
    rw [splitFragments, List.append_nil, List.getElem?_eq_none le_rfl]
  | cons f rest ih =>
    obtain ⟨n, rfl⟩ : ∃ m, n = m + 1 := ⟨n - 1, by omega⟩
    obtain ⟨hf, hrest⟩ := List.forall_mem_cons.mp hvalid
    have hn' : rest.length < n := Nat.lt_of_succ_lt_succ hn
    have hget : (done ++ f :: rest)[done.length]? = some f := by
      rw [List.getElem?_append_right le_rfl, Nat.sub_self]
      rfl
    cases f with
    | token other =>
      obtain ⟨fragments, hrun, hall, hrep⟩ := ih hrest n hn' (done ++ [.token other])
      refine ⟨.token other :: fragments, ?_, List.forall_mem_cons.mpr ⟨trivial, hall⟩,
        .token other hrep⟩
      rw [splitFragments, hget]
      rw [List.length_append, List.append_assoc, List.append_assoc] at hrun
      exact hrun
    | rawText offset length =>
      obtain ⟨hpos, hend⟩ := hf
      obtain ⟨pieces, hpieces, hsplit, hpvalid, hprep⟩ :=
        splitText_spec id hne (rawText.length + 1) hpos hend (by omega) done rest
      obtain ⟨fragments, hrun, hall, hrep⟩ := ih hrest n hn' (done ++ pieces)
      have hstart : (⟨done ++ .rawText offset length :: rest, done.length⟩ : Cursor) =
          cursorAfter (done ++ [.rawText offset length]) rest := by
        rw [cursorAfter, List.append_assoc, List.length_append]
        rfl
      have hnext : (cursorAfter (done ++ pieces) rest).it + 1 = (done ++ pieces).length := by
        have := List.length_pos_iff.mpr hpieces
        rw [cursorAfter, List.length_append]
        dsimp only
        omega
      refine ⟨pieces ++ fragments, ?_, List.forall_mem_append.mpr ⟨hpvalid, hall⟩, ?_⟩
      · rw [splitFragments, hget]
        dsimp only
        rw [hstart, hsplit]
        dsimp only [Option.bind_eq_bind, Option.bind_some]
        rw [hnext, ← List.append_assoc]
        exact hrun
      · rw [List.map_append]
        exact .rawText hprep hrep

end

/-! ## What replacing keeps -/

/-- The text with the fragments in its place: only white space beside a token that strips there may
be left out. -/
inductive Spelled {S : Type} (idToToken : List (MergeTokenizer.TokenData S)) :
    List UInt8 → List Fragment → Prop
  | nil : Spelled idToToken [] []
  | rawText (piece : List UInt8) {text : List UInt8} {fs : List Fragment}
      (h : Spelled idToToken text fs) : Spelled idToToken (piece ++ text) (.rawText piece :: fs)
  | token {id : ℕ} {data : MergeTokenizer.TokenData S} {before after text : List UInt8} {fs : List Fragment}
      (ht : idToToken[id]? = some data)
      (hbefore : before ≠ [] → data.attr.lstrip = true ∧ ∀ c ∈ before, isSpace c = true)
      (hafter : after ≠ [] → data.attr.rstrip = true ∧ ∀ c ∈ after, isSpace c = true)
      (h : Spelled idToToken text fs) :
      Spelled idToToken (before ++ (data.text ++ (after ++ text))) (.token id :: fs)

def spelling {S : Type} (idToToken : List (MergeTokenizer.TokenData S)) : Fragment → List UInt8
  | .token id => (idToToken[id]?).elim [] MergeTokenizer.TokenData.text
  | .rawText text => text

section
variable {S : Type} {idToToken : List (MergeTokenizer.TokenData S)}

theorem Spelled.append {s t : List UInt8} {fs gs : List Fragment} (hf : Spelled idToToken s fs)
    (hg : Spelled idToToken t gs) : Spelled idToToken (s ++ t) (fs ++ gs) := by
  induction hf with
  | nil => exact hg
  | rawText piece _ ih =>
    rw [List.append_assoc]
    exact .rawText piece ih
  | token ht hbefore hafter _ ih =>
    simp only [List.append_assoc]
    exact .token ht hbefore hafter ih

theorem spelled_rawFragment (text : List UInt8) : Spelled idToToken text (rawFragment text) := by
  by_cases h : text = []
  · rw [h]
    exact .nil
  · have hspelled : Spelled idToToken (text ++ []) [.rawText text] := .rawText text .nil
    rwa [List.append_nil, ← rawFragment_of_ne h] at hspelled

theorem Spelled.flatMap_spelling {text : List UInt8} {fs : List Fragment}
    (h : Spelled idToToken text fs)
    (hplain : ∀ id, .token id ∈ fs → ∀ data, idToToken[id]? = some data →
      data.attr.lstrip = false ∧ data.attr.rstrip = false) :
    fs.flatMap (spelling idToToken) = text := by
  induction h with
  | nil => rfl
  | rawText piece _ ih =>
    rw [List.flatMap_cons, ih fun id hid => hplain id (List.mem_cons_of_mem _ hid)]
    rfl
  | @token id data before after text fs ht hbefore hafter _ ih =>
    obtain ⟨hl, hr⟩ := hplain _ List.mem_cons_self _ ht
    obtain rfl : before = [] := by
      by_contra hne
      exact Bool.noConfusion (hl.symm.trans (hbefore hne).1)
    obtain rfl : after = [] := by
      by_contra hne
      exact Bool.noConfusion (hr.symm.trans (hafter hne).1)
    rw [List.flatMap_cons, ih fun id hid => hplain id (List.mem_cons_of_mem _ hid), spelling, ht]
    rfl

variable {id : ℕ} {data : MergeTokenizer.TokenData S}

theorem lstripped_isPrefix (data : MergeTokenizer.TokenData S) (text : List UInt8) :
    lstripped data text <+: text := by
  rw [lstripped]
  split_ifs
  · exact List.rdropWhile_prefix _ _
  · exact List.prefix_rfl

theorem rstripped_suffix (data : MergeTokenizer.TokenData S) (text : List UInt8) : rstripped data text <:+ text := by
  rw [rstripped]
  split_ifs
  · exact List.dropWhile_suffix _
  · exact List.suffix_rfl

theorem lstripped_append (data : MergeTokenizer.TokenData S) (text : List UInt8) :
    ∃ before, text = lstripped data text ++ before ∧
    (before ≠ [] → data.attr.lstrip = true ∧ ∀ c ∈ before, isSpace c = true) := by
  rw [lstripped]
  split_ifs with h
  · exact ⟨text.rtakeWhile isSpace, (List.rdropWhile_append_rtakeWhile).symm,
      fun _ => ⟨h, fun c hc => List.mem_rtakeWhile_imp hc⟩⟩
  · exact ⟨[], (List.append_nil _).symm, fun he => absurd rfl he⟩

theorem append_rstripped (data : MergeTokenizer.TokenData S) (text : List UInt8) : ∃ after, text = after ++ rstripped data text ∧
    (after ≠ [] → data.attr.rstrip = true ∧ ∀ c ∈ after, isSpace c = true) := by
  rw [rstripped]
  split_ifs with h
  · exact ⟨text.takeWhile isSpace, List.takeWhile_append_dropWhile.symm,
      fun _ => ⟨h, fun c hc => List.mem_takeWhile_imp hc⟩⟩
  · exact ⟨[], rfl, fun he => absurd rfl he⟩

theorem Replaced.piece (hne : data.text ≠ []) {text piece : List UInt8} {fs : List Fragment}
    (h : Replaced id data text fs) (hp : .rawText piece ∈ fs) :
    piece ≠ [] ∧ piece <:+: text ∧ ¬ data.text <:+: piece := by
  induction h with
  | none hno =>
    obtain ⟨rfl, hpiece⟩ := mem_rawFragment.1 hp
    exact ⟨hpiece, List.infix_rfl, hno⟩
  | @first left right fs hfirst _ ih =>
    rcases List.mem_append.mp hp with hp | hp
    · obtain ⟨rfl, hpiece⟩ := mem_rawFragment.1 hp
      have hleft : lstripped data left <:+: left := (lstripped_isPrefix data left).isInfix
      exact ⟨hpiece, hleft.trans (List.prefix_append _ _).isInfix,
        fun hocc => hfirst.not_infix hne (hocc.trans hleft)⟩
    · obtain ⟨hpiece, hin, hno⟩ := ih ((List.mem_cons.mp hp).resolve_left Fragment.noConfusion)
      have hright : rstripped data right <:+: left ++ (data.text ++ right) := by
        rw [← List.append_assoc]
        exact ((rstripped_suffix data right).trans (List.suffix_append _ _)).isInfix
      exact ⟨hpiece, hin.trans hright, hno⟩

theorem Replaced.token {text : List UInt8} {fs : List Fragment} (h : Replaced id data text fs)
    {other : ℕ} (ho : .token other ∈ fs) : other = id := by
  induction h with
  | none => exact absurd ho (token_notMem_rawFragment _ _)
  | first _ _ ih =>
    rcases List.mem_append.mp ho with ho | ho
    · exact absurd ho (token_notMem_rawFragment _ _)
    · exact (List.mem_cons.mp ho).elim Fragment.token.inj ih

theorem Replaced.spelled (ht : idToToken[id]? = some data) {text : List UInt8}
    {fs : List Fragment} (h : Replaced id data text fs) : Spelled idToToken text fs := by
  induction h with
  | none => exact spelled_rawFragment _
  | @first left right fs _ _ ih =>
    obtain ⟨before, hleft, hbefore⟩ := lstripped_append data left
    obtain ⟨after, hright, hafter⟩ := append_rstripped data right
    have htoken := (spelled_rawFragment (lstripped data left)).append
      (.token ht hbefore hafter ih)
    rwa [← List.append_assoc, ← hleft, ← hright] at htoken

theorem ReplacedAll.piece (hne : data.text ≠ []) {fs gs : List Fragment}
    (h : ReplacedAll id data fs gs) {piece : List UInt8} (hp : .rawText piece ∈ gs) :
    piece ≠ [] ∧ (∃ text, .rawText text ∈ fs ∧ piece <:+: text) ∧ ¬ data.text <:+: piece := by
  induction h with
  | nil => cases hp
  | token _ _ ih =>
    obtain ⟨hpiece, ⟨text, htext, hin⟩, hno⟩ :=
      ih ((List.mem_cons.mp hp).resolve_left Fragment.noConfusion)
    exact ⟨hpiece, ⟨text, List.mem_cons_of_mem _ htext, hin⟩, hno⟩
  | rawText ht _ ih =>
    rcases List.mem_append.mp hp with hp | hp
    · obtain ⟨hpiece, hin, hno⟩ := ht.piece hne hp
      exact ⟨hpiece, ⟨_, List.mem_cons_self, hin⟩, hno⟩
    · obtain ⟨hpiece, ⟨text, htext, hin⟩, hno⟩ := ih hp
      exact ⟨hpiece, ⟨text, List.mem_cons_of_mem _ htext, hin⟩, hno⟩

theorem ReplacedAll.mem_token {fs gs : List Fragment} (h : ReplacedAll id data fs gs) {other : ℕ}
    (ho : .token other ∈ gs) : other = id ∨ .token other ∈ fs := by
  induction h with
  | nil => cases ho
  | token _ _ ih =>
    rcases List.mem_cons.mp ho with he | ho
    · exact .inr (List.mem_cons.mpr (.inl he))
    · exact (ih ho).imp_right (List.mem_cons_of_mem _)
  | rawText ht _ ih =>
    rcases List.mem_append.mp ho with ho | ho
    · exact .inl (ht.token ho)
    · exact (ih ho).imp_right (List.mem_cons_of_mem _)

theorem ReplacedAll.spelled (ht : idToToken[id]? = some data) {fs gs : List Fragment}
    (h : ReplacedAll id data fs gs) {text : List UInt8} (hs : Spelled idToToken text fs) :
    Spelled idToToken text gs := by
  induction h generalizing text with
  | nil => exact hs
  | token other _ ih =>
    obtain - | - | ⟨hother, hbefore, hafter, hs⟩ := hs
    exact .token hother hbefore hafter (ih hs)
  | rawText hrep _ ih =>
    obtain - | ⟨_, hs⟩ := hs
    exact (hrep.spelled ht).append (ih hs)

variable {ids : List ℕ} {fs gs : List Fragment}

theorem Partitioned.piece (h : Partitioned idToToken ids fs gs)
    (hne : ∀ id ∈ ids, ∀ data, idToToken[id]? = some data → data.text ≠ []) {piece : List UInt8}
    (hp : .rawText piece ∈ gs) : (∃ text, .rawText text ∈ fs ∧ piece <:+: text) ∧
      ∀ id ∈ ids, ∀ data, idToToken[id]? = some data → ¬ data.text <:+: piece := by
  induction h with
  | nil => exact ⟨⟨piece, hp, List.infix_rfl⟩, fun id hid => absurd hid List.not_mem_nil⟩
  | @cons id data ids fs gs hs ht hrep _ ih =>
    obtain ⟨hhead, hne⟩ := List.forall_mem_cons.mp hne
    obtain ⟨⟨text, htext, hin⟩, hclean⟩ := ih hne hp
    obtain ⟨-, ⟨whole, hwhole, htin⟩, hno⟩ := hrep.piece (hhead data ht) htext
    refine ⟨⟨whole, hwhole, hin.trans htin⟩, List.forall_mem_cons.mpr ⟨fun data' ht' => ?_, hclean⟩⟩
    obtain rfl := Option.some.inj (ht.symm.trans ht')
    exact fun hocc => hno (hocc.trans hin)

theorem Partitioned.nonempty (h : Partitioned idToToken ids fs gs)
    (hne : ∀ id ∈ ids, ∀ data, idToToken[id]? = some data → data.text ≠ [])
    (hfs : ∀ piece, .rawText piece ∈ fs → piece ≠ []) : ∀ piece, .rawText piece ∈ gs → piece ≠ [] := by
  induction h with
  | nil => exact hfs
  | @cons id data ids fs gs hs ht hrep _ ih =>
    obtain ⟨hhead, hne⟩ := List.forall_mem_cons.mp hne
    exact ih hne fun piece hp => (hrep.piece (hhead data ht) hp).1

theorem Partitioned.mem_token (h : Partitioned idToToken ids fs gs) {id : ℕ}
    (hid : .token id ∈ gs) : id ∈ ids ∨ .token id ∈ fs := by
  induction h with
  | nil => exact .inr hid
  | cons _ hrep _ ih =>
    rcases ih hid with hmem | hmem
    · exact .inl (List.mem_cons_of_mem _ hmem)
    · exact (hrep.mem_token hmem).imp_left fun he => List.mem_cons.mpr (.inl he)

theorem Partitioned.spelled (h : Partitioned idToToken ids fs gs) {text : List UInt8}
    (hs : Spelled idToToken text fs) : Spelled idToToken text gs := by
  induction h with
  | nil => exact hs
  | cons ht hrep _ ih => exact ih (hrep.spelled ht hs)

end

/-! ## The tokens of the cache -/

/-- The tokens of the cache that are cut out. -/
def enabled {S : Type} (idToToken : List (MergeTokenizer.TokenData S)) (parseSpecial : Bool) (id : ℕ) : Bool :=
  (idToToken[id]?).all fun data => !ignored parseSpecial data

section
variable {S : Type} {idToToken : List (MergeTokenizer.TokenData S)} {parseSpecial : Bool}
  {rawText : List UInt8}

theorem stPartition_partitioned (parseSpecial : Bool) {cache : List ℕ}
    (hcache : ∀ id ∈ cache, ∃ data, idToToken[id]? = some data ∧ data.text ≠ [])
    {buffer : List FragmentVariant} (hvalid : ∀ f ∈ buffer, f.Valid rawText) :
    ∃ fragments, stPartition idToToken parseSpecial rawText cache buffer = some fragments ∧
      (∀ f ∈ fragments, f.Valid rawText) ∧
      Partitioned idToToken (cache.filter (enabled idToToken parseSpecial))
        (buffer.map (·.fragment rawText)) (fragments.map (·.fragment rawText)) := by
  induction cache generalizing buffer with
  | nil => exact ⟨buffer, rfl, hvalid, .nil _⟩
  | cons id cache ih =>
    obtain ⟨⟨data, hdata, hne⟩, hcache⟩ := List.forall_mem_cons.mp hcache
    have henabled : enabled idToToken parseSpecial id = !ignored parseSpecial data := by
      rw [enabled, hdata]
      rfl
    rw [stPartition, hdata, List.filter_cons, henabled]
    dsimp only [Option.bind_eq_bind, Option.bind_some]
    cases ignored parseSpecial data with
    | true => exact ih hcache hvalid
    | false =>
      obtain ⟨middle, hsplit, hmiddle, hrep⟩ :=
        splitFragments_spec id hne buffer hvalid (buffer.length + 1) (Nat.lt_succ_self _) []
      obtain ⟨fragments, hrun, hall, hpart⟩ := ih hcache hmiddle
      refine ⟨fragments, ?_, hall, .cons hdata hrep hpart⟩
      rw [List.nil_append] at hsplit
      dsimp only [List.length_nil] at hsplit
      rw [if_neg (by decide), hsplit, List.nil_append]
      exact hrun

theorem textBuffer_valid (rawText : List UInt8) : ∀ f ∈ textBuffer rawText, f.Valid rawText := by
  rw [textBuffer]
  split_ifs with hempty
  · simp
  · have hpos := List.length_pos_iff.mpr fun he => hempty (List.isEmpty_iff.mpr he)
    simp only [List.mem_singleton, forall_eq]
    exact ⟨hpos, (Nat.zero_add _).le⟩

theorem textBuffer_fragment (rawText : List UInt8) :
    (textBuffer rawText).map (·.fragment rawText) = rawFragment rawText := by
  rw [textBuffer, rawFragment]
  split_ifs
  · rfl
  · rw [List.map_singleton, FragmentVariant.fragment, substr, List.drop_zero, List.take_length]

/-- What a text is partitioned into. -/
structure IsPartition (idToToken : List (MergeTokenizer.TokenData S)) (parseSpecial : Bool) (cache : List ℕ)
    (text : List UInt8) (fragments : List Fragment) : Prop where
  replaced : Partitioned idToToken (cache.filter (enabled idToToken parseSpecial))
    (rawFragment text) fragments
  nonempty : ∀ piece, .rawText piece ∈ fragments → piece ≠ []
  clean : ∀ piece, .rawText piece ∈ fragments → ∀ id ∈ cache, ∀ data, idToToken[id]? = some data →
    ignored parseSpecial data = false → ¬ data.text <:+: piece
  tokens : ∀ id, .token id ∈ fragments → id ∈ cache ∧ ∀ data, idToToken[id]? = some data →
    parseSpecial = false → data.attr.control = false ∧ data.attr.unknown = false
  spelled : Spelled idToToken text fragments
  concat : (∀ id ∈ cache, ∀ data, idToToken[id]? = some data →
    data.attr.lstrip = false ∧ data.attr.rstrip = false) →
      fragments.flatMap (spelling idToToken) = text

theorem enabled_iff {id : ℕ} {data : MergeTokenizer.TokenData S} (h : idToToken[id]? = some data) :
    enabled idToToken parseSpecial id = true ↔ ignored parseSpecial data = false := by
  rw [enabled, h, Option.all_some, Bool.not_eq_true']

theorem Partitioned.isPartition {cache : List ℕ} {text : List UInt8} {fragments : List Fragment}
    (hcache : ∀ id ∈ cache, ∃ data, idToToken[id]? = some data ∧ data.text ≠ [])
    (h : Partitioned idToToken (cache.filter (enabled idToToken parseSpecial)) (rawFragment text)
      fragments) : IsPartition idToToken parseSpecial cache text fragments := by
  have hne : ∀ id ∈ cache.filter (enabled idToToken parseSpecial), ∀ data,
      idToToken[id]? = some data → data.text ≠ [] := by
    intro id hid data hdata
    obtain ⟨data', hdata', htext⟩ := hcache id (List.mem_of_mem_filter hid)
    obtain rfl := Option.some.inj (hdata.symm.trans hdata')
    exact htext
  have htoken : ∀ id, .token id ∈ fragments → id ∈ cache.filter (enabled idToToken parseSpecial) :=
    fun id hid => (h.mem_token hid).resolve_right (token_notMem_rawFragment _ _)
  have hspelled : Spelled idToToken text fragments := h.spelled (spelled_rawFragment text)
  constructor
  case replaced => exact h
  case nonempty =>
    refine h.nonempty hne fun piece hp => ?_
    obtain ⟨rfl, hpiece⟩ := mem_rawFragment.1 hp
    exact hpiece
  case clean =>
    intro piece hp id hid data hdata hon
    exact (h.piece hne hp).2 id (List.mem_filter.mpr ⟨hid, (enabled_iff hdata).mpr hon⟩) data hdata
  case tokens =>
    intro id hid
    obtain ⟨hmem, hon⟩ := List.mem_filter.mp (htoken id hid)
    refine ⟨hmem, fun data hdata hparse => ?_⟩
    have hoff := (enabled_iff hdata).mp hon
    rw [ignored, hparse, Bool.not_false, Bool.true_and, Bool.or_eq_false_iff] at hoff
    exact hoff
  case spelled => exact hspelled
  case concat =>
    intro hplain
    exact hspelled.flatMap_spelling fun id hid =>
      hplain id (List.mem_of_mem_filter (htoken id hid))

/-- The text is cut at the special tokens, one token after the other in the order of the cache. -/
theorem stPartition_spec (idToToken : List (MergeTokenizer.TokenData S)) (cache : List ℕ)
    (hcache : ∀ id ∈ cache, ∃ data, idToToken[id]? = some data ∧ data.text ≠ [])
    (parseSpecial : Bool) (text : List UInt8) : ∃ buffer,
      stPartition idToToken parseSpecial text cache (textBuffer text) = some buffer ∧
        IsPartition idToToken parseSpecial cache text (buffer.map (·.fragment text)) := by
  obtain ⟨buffer, hrun, -, hpart⟩ := stPartition_partitioned parseSpecial hcache
    (textBuffer_valid text)
  rw [textBuffer_fragment] at hpart
  exact ⟨buffer, hrun, hpart.isPartition hcache⟩

end

/-- A token that strips on both sides, and one that begins another. -/
def tagTokens : List (MergeTokenizer.TokenData ℕ) :=
  [⟨[1, 2], 0, { control := true, lstrip := true, rstrip := true }⟩,
    ⟨[1], 0, { userDefined := true }⟩]

theorem stPartition_spec_tags : ∃ buffer,
    stPartition tagTokens true [7, 32, 1, 2, 32, 1, 1, 2, 5] [0, 1]
        (textBuffer [7, 32, 1, 2, 32, 1, 1, 2, 5]) = some buffer ∧
      IsPartition tagTokens true [0, 1] [7, 32, 1, 2, 32, 1, 1, 2, 5]
        (buffer.map (·.fragment [7, 32, 1, 2, 32, 1, 1, 2, 5])) :=
  stPartition_spec tagTokens [0, 1]
    (List.forall_mem_cons.mpr ⟨⟨_, rfl, List.cons_ne_nil _ _⟩,
      List.forall_mem_singleton.mpr ⟨_, rfl, List.cons_ne_nil _ _⟩⟩) true _

example : stPartition tagTokens true [7, 32, 1, 2, 32, 1, 1, 2, 5] [0, 1]
    (textBuffer [7, 32, 1, 2, 32, 1, 1, 2, 5]) =
      some [.rawText 0 1, .token 0, .token 1, .token 0, .rawText 8 1] := by
  decide

/-! ## The tokenizer's partition -/

section
variable {S : Type} {id : ℕ} {data : MergeTokenizer.TokenData S}

variable (v : Vocab S)

end

end SpecialPartition
end RocmFpx
