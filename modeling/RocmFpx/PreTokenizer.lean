import RocmFpx.UnicodeText

/-!
The splitters of `unicode.cpp` that are written by hand. Each goes over the code points of a
segment from the front and looks only ahead, so `s` stands for the segment from `pos` on:
`_get_cpt(pos + k)` is its `k`-th code point, and past its end the flags are all clear. A round of
the loop gives the lengths of the tokens it adds and what is left of the segment.
-/

namespace RocmFpx

/-- `unicode_cpt_flags`. -/
structure CptFlags where
  isUndefined : Bool := false
  isNumber : Bool := false
  isLetter : Bool := false
  isSeparator : Bool := false
  isAccentMark : Bool := false
  isPunctuation : Bool := false
  isSymbol : Bool := false
  isControl : Bool := false
  isWhitespace : Bool := false
  isLowercase : Bool := false
  isUppercase : Bool := false
  isNfd : Bool := false
  deriving DecidableEq

def CptFlags.asUint (f : CptFlags) : ℕ :=
  f.isUndefined.toNat + f.isNumber.toNat * 2 + f.isLetter.toNat * 4 + f.isSeparator.toNat * 8 +
    f.isAccentMark.toNat * 16 + f.isPunctuation.toNat * 32 + f.isSymbol.toNat * 64 +
    f.isControl.toNat * 128 + f.isWhitespace.toNat * 256 + f.isLowercase.toNat * 512 +
    f.isUppercase.toNat * 1024 + f.isNfd.toNat * 2048

/-- The tables of `unicode-data.cpp`: `unicode_cpt_flags_from_cpt` and `unicode_tolower`. -/
structure UnicodeData where
  flagsFromCpt : ℕ → CptFlags
  tolower : ℕ → ℕ

/-- The ASCII part of the tables. -/
def asciiData : UnicodeData where
  flagsFromCpt c :=
    if c = 0x20 ∨ 0x09 ≤ c ∧ c ≤ 0x0D then { isSeparator := true, isWhitespace := true }
    else if 0x30 ≤ c ∧ c ≤ 0x39 then { isNumber := true }
    else if 0x41 ≤ c ∧ c ≤ 0x5A ∨ 0x61 ≤ c ∧ c ≤ 0x7A then { isLetter := true }
    else if c < 0x20 ∨ c = 0x7F then { isControl := true }
    else if c < 0x80 then { isPunctuation := true }
    else { isUndefined := true }
  tolower c := if 0x41 ≤ c ∧ c ≤ 0x5A then c + 0x20 else c

namespace PreTokenizer

open Unicode

abbrev Round := List ℕ × List ℕ

def outOfRange : ℕ := 0xFFFFFFFF

def getCpt (s : List ℕ) (k : ℕ) : ℕ := s.getD k outOfRange

/-- `_add_token` at the point where `rest` begins. -/
def token (s rest : List ℕ) : Round := ([s.length - rest.length], rest)

def isNewline (cpt : ℕ) : Bool := cpt == '\r'.toNat || cpt == '\n'.toNat

/-- `for (size_t pos = offset_ini; pos < offset_end; )`. -/
def rounds (round : List ℕ → Round) : ℕ → List ℕ → List ℕ
  | 0, _ => []
  | _ + 1, [] => []
  | n + 1, c :: s => (round (c :: s)).1 ++ rounds round n (round (c :: s)).2

def splitSegment (round : List ℕ → Round) (s : List ℕ) : List ℕ := rounds round s.length s

/-- `for (auto offset : offsets)`. -/
def overSegments (f : List ℕ → List ℕ) : List ℕ → List ℕ → List ℕ
  | _, [] => []
  | cpts, offset :: offsets => f (cpts.take offset) ++ overSegments f (cpts.drop offset) offsets

section
variable (u : UnicodeData)

def getFlags (s : List ℕ) (k : ℕ) : CptFlags := (s[k]?.map u.flagsFromCpt).getD {}

def isLetter (cpt : ℕ) : Bool := (u.flagsFromCpt cpt).isLetter
def isNumber (cpt : ℕ) : Bool := (u.flagsFromCpt cpt).isNumber
def isMark (cpt : ℕ) : Bool := (u.flagsFromCpt cpt).isAccentMark
def isWhitespace (cpt : ℕ) : Bool := (u.flagsFromCpt cpt).isWhitespace

/-! ## Parts that several splitters share -/

/-- `'s|'t|'re|'ve|'m|'ll|'d`, the letters compared by what `foldNext` and `fold` make of them. -/
def contraction (foldNext fold : ℕ → ℕ) (s : List ℕ) : Option (List ℕ) :=
  if getCpt s 0 = '\''.toNat ∧ 1 < s.length then
    let next := foldNext (getCpt s 1)
    if next = 's'.toNat ∨ next = 't'.toNat ∨ next = 'm'.toNat ∨ next = 'd'.toNat then
      some (s.drop 2)
    else if 2 < s.length then
      let nextNext := fold (getCpt s 2)
      if (next = 'r'.toNat ∧ nextNext = 'e'.toNat) ∨ (next = 'v'.toNat ∧ nextNext = 'e'.toNat) ∨
          (next = 'l'.toNat ∧ nextNext = 'l'.toNat) then some (s.drop 3)
      else none
    else none
  else none

/-- The loop of `\p{N}{1,3}`, `k` numbers behind the last token. -/
def numberLoop : ℕ → List ℕ → Round
  | k, [] => (if 0 < k then [k] else [], [])
  | k, c :: s =>
    if isNumber u c then
      if 3 ≤ k + 1 then ((k + 1) :: (numberLoop 0 s).1, (numberLoop 0 s).2)
      else numberLoop (k + 1) s
    else (if 0 < k then [k] else [], c :: s)

def threeNumbers (s : List ℕ) : Round := numberLoop u 0 s

def oneNumber (s : List ℕ) : Round := token s (s.drop 1)

/-- The loop that counts whitespace, with the end of the last line break in it, or 0. -/
def countWhitespaces : ℕ → ℕ → List ℕ → ℕ × ℕ
  | num, last, [] => (num, last)
  | num, last, c :: s =>
    if isWhitespace u c then countWhitespaces (num + 1) (if isNewline c then num + 1 else last) s
    else (num, last)

/-- `\s+(?!\S)`, `\s+` and no match. -/
def spaces (num : ℕ) (s : List ℕ) : Round :=
  if 1 < num ∧ getCpt s num ≠ outOfRange then token s (s.drop (num - 1))
  else if 0 < num then token s (s.drop num)
  else token s (s.drop 1)

/-- `\s*[\r\n]+` in front of these. -/
def lineSpaces (s : List ℕ) : Round :=
  let count := countWhitespaces u 0 0 s
  if 0 < count.2 then token s (s.drop count.2) else spaces count.1 s

/-! ## GPT-2 -/

/-- `is_whitespace | is_letter | is_number`. -/
def isClassed (f : CptFlags) : Bool := f.isWhitespace || f.isLetter || f.isNumber

/-- The condition of the loops over the code points of no class. -/
def isOther (classed : CptFlags → Bool) (cpt : ℕ) : Bool :=
  !classed (u.flagsFromCpt cpt) && (u.flagsFromCpt cpt).asUint != 0

def gpt2Round (s : List ℕ) : Round :=
  match contraction id id s with
  | some rest => token s rest
  | none =>
    let space := getCpt s 0 = ' '.toNat
    let flags2 := if space then getFlags u s 1 else getFlags u s 0
    let run := if space then s.drop 1 else s
    if flags2.isLetter then token s (run.dropWhile (isLetter u))
    else if flags2.isNumber then token s (run.dropWhile (isNumber u))
    else if !isClassed flags2 && flags2.asUint != 0 then
      token s (run.dropWhile (isOther u isClassed))
    else spaces (s.takeWhile (isWhitespace u)).length s

/-! ## Llama 3 and its kind -/

/-- Where the splitters of this kind differ: how the letter behind an apostrophe is compared, what
a word is made of, how numbers are cut, and the flags that end a run of other code points. -/
structure Kind where
  foldNext : ℕ → ℕ
  isWord : ℕ → Bool
  numbers : List ℕ → Round
  classed : CptFlags → Bool

def wordAt (isWord : ℕ → Bool) (s : List ℕ) (k : ℕ) : Bool := s[k]?.any isWord

def kindRound (k : Kind) (s : List ℕ) : Round :=
  let cpt := getCpt s 0
  let flags := getFlags u s 0
  match contraction k.foldNext u.tolower s with
  | some rest => token s rest
  | none =>
    if !(isNewline cpt || flags.isNumber) && (wordAt k.isWord s 0 || wordAt k.isWord s 1) then
      token s ((s.drop 1).dropWhile k.isWord)
    else if flags.isNumber then k.numbers s
    else
      let flags2 := if cpt = ' '.toNat then getFlags u s 1 else flags
      let run := if cpt = ' '.toNat then s.drop 1 else s
      -- `flags.as_uint()`, not `flags2`: a space that ends the segment is taken here
      if !k.classed flags2 && flags.asUint != 0 then
        token s ((run.dropWhile (isOther u k.classed)).dropWhile isNewline)
      else lineSpaces u s

def llama3 : Kind := ⟨u.tolower, isLetter u, threeNumbers u, isClassed⟩

def qwen2 : Kind := ⟨u.tolower, isLetter u, oneNumber, isClassed⟩

/-- `is_whitespace | is_letter | is_accent_mark | is_number`. -/
def isClassedOrMark (f : CptFlags) : Bool :=
  f.isWhitespace || f.isLetter || f.isAccentMark || f.isNumber

def qwen35 : Kind := ⟨u.tolower, fun c => isLetter u c || isMark u c, oneNumber, isClassedOrMark⟩

/-- `unicode_tolower`, and the long s as an s. -/
def foldLongS (cpt : ℕ) : ℕ := if u.tolower cpt = 0x017F then 's'.toNat else u.tolower cpt

/-- `_is_k2_letter`. -/
def isK2Letter (cpt : ℕ) : Bool :=
  cpt == 0x200C || cpt == 0x200D || isLetter u cpt || isMark u cpt

def k2Horizon : Kind := ⟨foldLongS u, isK2Letter u, threeNumbers u, isClassed⟩

/-! ## The splitters -/

def splitCustomGpt2 (text : List UInt8) (offsets : List ℕ) : List ℕ :=
  overSegments (splitSegment (gpt2Round u)) (cptsFromUtf8 text) offsets

def splitCustomKind (k : Kind) (text : List UInt8) (offsets : List ℕ) : List ℕ :=
  overSegments (splitSegment (kindRound u k)) (cptsFromUtf8 text) offsets

/-- `unicode_regex_split_custom_llama3`. -/
def splitCustomLlama3 : List UInt8 → List ℕ → List ℕ := splitCustomKind u (llama3 u)

/-- `unicode_regex_split_custom_qwen2`. -/
def splitCustomQwen2 : List UInt8 → List ℕ → List ℕ := splitCustomKind u (qwen2 u)

/-- `unicode_regex_split_custom_qwen35`. -/
def splitCustomQwen35 : List UInt8 → List ℕ → List ℕ := splitCustomKind u (qwen35 u)

/-- `unicode_regex_split_custom_k2_horizon`. -/
def splitCustomK2Horizon : List UInt8 → List ℕ → List ℕ := splitCustomKind u (k2Horizon u)

end

/-! ## Every round uses up something -/

/-- The tokens of a round cover what it has used up of the segment, which is something. -/
structure Covers (s : List ℕ) (r : Round) : Prop where
  sum : r.1.sum + r.2.length = s.length
  pos : ∀ k ∈ r.1, 0 < k
  lt : r.2.length < s.length
  suffix : r.2 <:+ s

theorem token_covers {s rest : List ℕ} (hsuf : rest <:+ s) (h : rest.length < s.length) :
    Covers s (token s rest) where
  sum := by
    rw [token, List.sum_singleton]
    exact Nat.sub_add_cancel h.le
  pos k hk := by
    obtain rfl := List.mem_singleton.mp hk
    omega
  lt := h
  suffix := hsuf

theorem token_drop_covers {s : List ℕ} (hs : s ≠ []) {k : ℕ} (hk : 0 < k) :
    Covers s (token s (s.drop k)) := by
  have hlen := List.length_pos_iff.mpr hs
  apply token_covers (List.drop_suffix k s)
  rw [List.length_drop]
  omega

/-- What follows the first code point, or a part of it. -/
theorem token_tail_covers {c : ℕ} {s rest : List ℕ} (h : rest <:+ s) :
    Covers (c :: s) (token (c :: s) rest) :=
  token_covers (h.trans (List.suffix_cons c s)) (Nat.lt_succ_of_le h.length_le)

theorem token_dropWhile_covers {p : ℕ → Bool} {c : ℕ} (h : p c) {s rest : List ℕ}
    (hrest : rest <:+ (c :: s).dropWhile p) : Covers (c :: s) (token (c :: s) rest) := by
  rw [List.dropWhile_cons, if_pos h] at hrest
  exact token_tail_covers (hrest.trans (List.dropWhile_suffix p))

theorem contraction_covers {foldNext fold : ℕ → ℕ} {s rest : List ℕ}
    (h : contraction foldNext fold s = some rest) : Covers s (token s rest) := by
  simp only [contraction] at h
  by_cases h0 : getCpt s 0 = '\''.toNat ∧ 1 < s.length
  · have hs : s ≠ [] := List.ne_nil_of_length_pos (Nat.zero_lt_of_lt h0.2)
    rw [if_pos h0] at h
    split_ifs at h
    all_goals
      obtain rfl := Option.some.inj h
      exact token_drop_covers hs (by decide)
  · rw [if_neg h0] at h
    cases h

section
variable {u : UnicodeData} {s : List ℕ}

theorem numberLoop_sum (k : ℕ) (s : List ℕ) :
    (numberLoop u k s).1.sum + (numberLoop u k s).2.length = k + s.length ∧
      (∀ n ∈ (numberLoop u k s).1, 0 < n) ∧ (numberLoop u k s).2 <:+ s := by
  induction s generalizing k with
  | nil =>
    rw [numberLoop]
    split <;> simp <;> omega
  | cons c s ih =>
    rw [numberLoop]
    by_cases hc : isNumber u c
    · rw [if_pos hc]
      by_cases hk : 3 ≤ k + 1
      · obtain ⟨hsum, hpos, hsuf⟩ := ih 0
        rw [if_pos hk]
        refine ⟨?_, List.forall_mem_cons.mpr ⟨Nat.succ_pos k, hpos⟩,
          hsuf.trans (List.suffix_cons c s)⟩
        simp only [List.sum_cons, List.length_cons]
        omega
      · obtain ⟨hsum, hpos, hsuf⟩ := ih (k + 1)
        rw [if_neg hk]
        exact ⟨by rw [hsum, List.length_cons]; omega, hpos, hsuf.trans (List.suffix_cons c s)⟩
    · rw [if_neg hc]
      split <;> simp <;> omega

theorem threeNumbers_covers {c : ℕ} (hc : isNumber u c) :
    Covers (c :: s) (threeNumbers u (c :: s)) where
  sum := by rw [threeNumbers, (numberLoop_sum 0 _).1, Nat.zero_add]
  pos := (numberLoop_sum 0 _).2.1
  lt := by
    rw [threeNumbers, numberLoop, if_pos hc, if_neg (by decide)]
    exact Nat.lt_succ_of_le (numberLoop_sum 1 s).2.2.length_le
  suffix := (numberLoop_sum 0 _).2.2

theorem oneNumber_covers (hs : s ≠ []) : Covers s (oneNumber s) := token_drop_covers hs Nat.one_pos

theorem spaces_covers (hs : s ≠ []) (num : ℕ) : Covers s (spaces num s) := by
  rw [spaces]
  split_ifs with h1 h2
  · exact token_drop_covers hs (by omega)
  · exact token_drop_covers hs h2
  · exact token_drop_covers hs Nat.one_pos

theorem lineSpaces_covers (hs : s ≠ []) : Covers s (lineSpaces u s) := by
  simp only [lineSpaces]
  split_ifs with h
  · exact token_drop_covers hs h
  · exact spaces_covers hs _

theorem gpt2Round_covers (c : ℕ) (s : List ℕ) : Covers (c :: s) (gpt2Round u (c :: s)) := by
  rw [gpt2Round]
  cases hc : contraction id id (c :: s) with
  | some rest => exact contraction_covers hc
  | none =>
    simp only
    split_ifs with hsp h1 h2 h3 h1 h2 h3
    all_goals first
      | exact spaces_covers (List.cons_ne_nil c s) _
      | exact token_tail_covers (List.dropWhile_suffix _)
      | exact token_dropWhile_covers ‹_› List.suffix_rfl

theorem kindRound_covers {k : Kind}
    (hnum : ∀ c s, isNumber u c → Covers (c :: s) (k.numbers (c :: s))) (c : ℕ) (s : List ℕ) :
    Covers (c :: s) (kindRound u k (c :: s)) := by
  rw [kindRound]
  cases hc : contraction k.foldNext u.tolower (c :: s) with
  | some rest => exact contraction_covers hc
  | none =>
    simp only
    split_ifs with h1 h2 hsp h3 h3
    · exact token_tail_covers (List.dropWhile_suffix _)
    · exact hnum c s h2
    · exact token_tail_covers ((List.dropWhile_suffix _).trans (List.dropWhile_suffix _))
    · exact lineSpaces_covers (List.cons_ne_nil c s)
    · exact token_dropWhile_covers h3 (List.dropWhile_suffix _)
    · exact lineSpaces_covers (List.cons_ne_nil c s)

/-- A splitter of one segment covers it with tokens that are not empty. -/
def Splits (f : List ℕ → List ℕ) : Prop :=
  ∀ s : List ℕ, (f s).sum = s.length ∧ ∀ k ∈ f s, 0 < k

theorem rounds_splits {round : List ℕ → Round} (h : ∀ c s, Covers (c :: s) (round (c :: s)))
    {n : ℕ} (hn : s.length ≤ n) :
    (rounds round n s).sum = s.length ∧ ∀ k ∈ rounds round n s, 0 < k := by
  induction n generalizing s with
  | zero =>
    obtain rfl := List.length_eq_zero_iff.mp (Nat.le_zero.mp hn)
    exact ⟨rfl, fun _ hk => (nomatch hk)⟩
  | succ n ih =>
    cases s with
    | nil => exact ⟨rfl, fun _ hk => (nomatch hk)⟩
    | cons c s =>
      have hr := h c s
      obtain ⟨hsum, hpos⟩ := ih (Nat.le_of_lt_succ (hr.lt.trans_le hn))
      rw [rounds]
      refine ⟨?_, ?_⟩
      · rw [List.sum_append, hsum, hr.sum]
      · intro k hk
        obtain hk | hk := List.mem_append.mp hk
        · exact hr.pos k hk
        · exact hpos k hk

theorem rounds_fuel {round : List ℕ → Round} (h : ∀ c s, Covers (c :: s) (round (c :: s)))
    {n m : ℕ} (hn : s.length ≤ n) (hm : s.length ≤ m) : rounds round n s = rounds round m s := by
  induction n generalizing m s with
  | zero =>
    obtain rfl := List.length_eq_zero_iff.mp (Nat.le_zero.mp hn)
    cases m <;> rfl
  | succ n ih =>
    cases s with
    | nil => cases m <;> rfl
    | cons c s =>
      cases m with
      | zero => cases hm
      | succ m =>
        have hlt := (h c s).lt
        rw [rounds, rounds, ih (Nat.le_of_lt_succ (hlt.trans_le hn))
          (Nat.le_of_lt_succ (hlt.trans_le hm))]

theorem splitSegment_cons {round : List ℕ → Round} (h : ∀ c s, Covers (c :: s) (round (c :: s)))
    (c : ℕ) (s : List ℕ) : splitSegment round (c :: s) =
      (round (c :: s)).1 ++ splitSegment round (round (c :: s)).2 := by
  rw [splitSegment, List.length_cons, rounds, splitSegment]
  rw [rounds_fuel h (Nat.le_of_lt_succ (h c s).lt) le_rfl]

theorem splitSegment_splits {round : List ℕ → Round}
    (h : ∀ c s, Covers (c :: s) (round (c :: s))) : Splits (splitSegment round) :=
  fun _ => rounds_splits h le_rfl

end

/-- The tokens fall into one group for each segment, which they cover, and none is empty. -/
def Tiles (offsets out : List ℕ) : Prop :=
  ∃ parts : List (List ℕ), parts.flatten = out ∧
    List.Forall₂ (fun n part => part.sum = n ∧ ∀ k ∈ part, 0 < k) offsets parts

theorem overSegments_tiles {f : List ℕ → List ℕ} (h : Splits f) {cpts offsets : List ℕ}
    (hsum : offsets.sum ≤ cpts.length) : Tiles offsets (overSegments f cpts offsets) := by
  induction offsets generalizing cpts with
  | nil => exact ⟨[], rfl, .nil⟩
  | cons offset offsets ih =>
    rw [List.sum_cons] at hsum
    obtain ⟨parts, hparts, hall⟩ := @ih (cpts.drop offset)
      (by rw [List.length_drop]; omega)
    obtain ⟨hfsum, hfpos⟩ := h (cpts.take offset)
    refine ⟨f (cpts.take offset) :: parts, ?_, .cons ⟨?_, hfpos⟩ hall⟩
    · rw [List.flatten_cons, hparts, overSegments]
    · rw [hfsum, List.length_take]
      omega

theorem Tiles.sum_eq {offsets out : List ℕ} (h : Tiles offsets out) : out.sum = offsets.sum := by
  obtain ⟨parts, rfl, hall⟩ := h
  induction hall with
  | nil => rfl
  | cons hp _ ih => rw [List.flatten_cons, List.sum_append, hp.1, ih, List.sum_cons]

end PreTokenizer
end RocmFpx
