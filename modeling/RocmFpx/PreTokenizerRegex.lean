import Mathlib.Data.List.GetD
import RocmFpx.BacktrackRegex
import RocmFpx.PreTokenizer

/-!
The splitters written by hand and the patterns in their comments. On texts classified as the
tables do, each round of a splitter is one match of its pattern, or one for each token it adds.
-/

namespace RocmFpx
namespace PreTokenizer

open Unicode Regex

/-! ## The patterns -/

def literal (c : Char) : Regex ℕ := one fun cpt => cpt == c.toNat

/-- A letter, compared by what `fold` makes of it. -/
def letter (fold : ℕ → ℕ) (c : Char) : Regex ℕ := one fun cpt => fold cpt == c.toNat

def quoted (fold : ℕ → ℕ) (c : Char) : Regex ℕ := seq (literal '\'') (letter fold c)

def quotedTwo (fold : ℕ → ℕ) (c d : Char) : Regex ℕ :=
  seq (literal '\'') (seq (letter fold c) (letter fold d))

/-- `'s|'t|'re|'ve|'m|'ll|'d`, case-insensitive as `fold` is. -/
def contractions (fold : ℕ → ℕ) : Regex ℕ :=
  alt (quoted fold 's') <| alt (quoted fold 't') <| alt (quotedTwo fold 'r' 'e') <|
    alt (quotedTwo fold 'v' 'e') <| alt (quoted fold 'm') <| alt (quotedTwo fold 'l' 'l') <|
      quoted fold 'd'

section
variable (u : UnicodeData)

/-- `[^\s\p{L}\p{N}]` -/
def unclassed : Regex ℕ := one fun c => !(isWhitespace u c || isLetter u c || isNumber u c)

/-- `[^\s\p{L}\p{M}\p{N}]` -/
def unclassedNorMark : Regex ℕ :=
  one fun c => !(isWhitespace u c || isLetter u c || isMark u c || isNumber u c)

/-- `\s+(?!\S)` -/
def spacesKept : Regex ℕ := seq (plus (one (isWhitespace u))) (notAhead fun c => !isWhitespace u c)

/-- `'s|'t|'re|'ve|'m|'ll|'d| ?\p{L}+| ?\p{N}+| ?[^\s\p{L}\p{N}]+|\s+(?!\S)|\s+` -/
def gpt2Regex : Regex ℕ :=
  alt (contractions id) <|
  alt (seq (opt (literal ' ')) (plus (one (isLetter u)))) <|
  alt (seq (opt (literal ' ')) (plus (one (isNumber u)))) <|
  alt (seq (opt (literal ' ')) (plus (unclassed u))) <|
  alt (spacesKept u) (plus (one (isWhitespace u)))

/-- `(?i:'s|'t|'re|'ve|'m|'ll|'d)|[^\r\n\p{L}\p{N}]?word+|number| ?other+[\r\n]*|\s*[\r\n]+|`
`\s+(?!\S)|\s+` -/
def kindRegex (fold : ℕ → ℕ) (word number other : Regex ℕ) : Regex ℕ :=
  alt (contractions fold) <|
  alt (seq (opt (one fun c => !(isNewline c || isLetter u c || isNumber u c))) (plus word)) <|
  alt number <|
  alt (seq (opt (literal ' ')) (seq (plus other) (star (one isNewline)))) <|
  alt (seq (star (one (isWhitespace u))) (plus (one isNewline))) <|
  alt (spacesKept u) (plus (one (isWhitespace u)))

/-- `\p{N}{1,3}` -/
def upToThree : Regex ℕ :=
  seq (one (isNumber u)) (opt (seq (one (isNumber u)) (opt (one (isNumber u)))))

def llama3Regex : Regex ℕ := kindRegex u u.tolower (one (isLetter u)) (upToThree u) (unclassed u)

def qwen2Regex : Regex ℕ :=
  kindRegex u u.tolower (one (isLetter u)) (one (isNumber u)) (unclassed u)

/-- Words are `[\p{L}\p{M}]+`. -/
def qwen35Regex : Regex ℕ :=
  kindRegex u u.tolower (one fun c => isLetter u c || isMark u c) (one (isNumber u))
    (unclassedNorMark u)

/-- Words are `(?:\p{L}|\p{M}|\u200C|\u200D)+`. -/
def k2HorizonRegex : Regex ℕ :=
  kindRegex u (foldLongS u)
    (alt (one (isLetter u)) <| alt (one (isMark u)) <|
      alt (one fun c => c == 0x200C) (one fun c => c == 0x200D))
    (upToThree u) (unclassed u)

/-- Every segment cut at the matches of the pattern in it. -/
def regexSplit (r : Regex ℕ) (text : List UInt8) (offsets : List ℕ) : List ℕ :=
  overSegments r.split (cptsFromUtf8 text) offsets

end

/-! ## Contractions -/

theorem literal_rests_cons (x : Char) (c : ℕ) (s : List ℕ) :
    (literal x).rests (c :: s) = if c = x.toNat then [s] else [] := by
  rw [literal, rests_one_cons]
  exact if_congr beq_iff_eq rfl rfl

theorem letter_rests_cons (fold : ℕ → ℕ) (x : Char) (c : ℕ) (s : List ℕ) :
    (letter fold x).rests (c :: s) = if fold c = x.toNat then [s] else [] := by
  rw [letter, rests_one_cons]
  exact if_congr beq_iff_eq rfl rfl

theorem literal_seq_matchAt (x : Char) (r : Regex ℕ) (c : ℕ) (s : List ℕ) :
    (seq (literal x) r).matchAt (c :: s) = if c = x.toNat then r.matchAt s else none := by
  rw [matchAt_seq, literal_rests_cons]
  split
  · rw [List.findSome?_singleton]
  · rfl

theorem letter_seq_matchAt (fold : ℕ → ℕ) (x : Char) (r : Regex ℕ) (c : ℕ) (s : List ℕ) :
    (seq (letter fold x) r).matchAt (c :: s) = if fold c = x.toNat then r.matchAt s else none := by
  rw [matchAt_seq, letter_rests_cons]
  split
  · rw [List.findSome?_singleton]
  · rfl

theorem letter_matchAt_cons (fold : ℕ → ℕ) (x : Char) (c : ℕ) (s : List ℕ) :
    (letter fold x).matchAt (c :: s) = if fold c = x.toNat then some s else none := by
  rw [matchAt, letter_rests_cons]
  split <;> rfl

theorem letter_matchAt_nil (fold : ℕ → ℕ) (x : Char) : (letter fold x).matchAt [] = none := rfl

theorem letter_seq_matchAt_nil (fold : ℕ → ℕ) (x : Char) (r : Regex ℕ) :
    (seq (letter fold x) r).matchAt [] = none := rfl

theorem letter_cases (x : ℕ) :
    x = 115 ∨ x = 116 ∨ x = 109 ∨ x = 100 ∨ x = 114 ∨ x = 118 ∨ x = 108 ∨
      (x ≠ 115 ∧ x ≠ 116 ∧ x ≠ 109 ∧ x ≠ 100 ∧ x ≠ 114 ∧ x ≠ 118 ∧ x ≠ 108) := by
  omega

theorem contractions_matchAt (fold : ℕ → ℕ) (s : List ℕ) :
    (contractions fold).matchAt s = contraction fold fold s := by
  simp only [contractions, quoted, quotedTwo, matchAt_alt]
  match s with
  | [] => rfl
  | [c] =>
    simp only [literal_seq_matchAt, letter_matchAt_nil, letter_seq_matchAt_nil]
    by_cases hc : c = 39 <;> simp [hc, contraction, getCpt]
  | [c, d] =>
    simp only [literal_seq_matchAt, letter_seq_matchAt, letter_matchAt_cons, letter_matchAt_nil]
    by_cases hc : c = 39
    · rcases letter_cases (fold d) with h | h | h | h | h | h | h | h <;>
        simp [hc, h, contraction, getCpt]
    · simp [hc, contraction, getCpt]
  | c :: d :: e :: s =>
    simp only [literal_seq_matchAt, letter_seq_matchAt, letter_matchAt_cons]
    by_cases hc : c = 39
    · rcases letter_cases (fold d) with h | h | h | h | h | h | h | h <;>
        simp [hc, h, contraction, getCpt]
    · simp [hc, contraction, getCpt]

/-! ## Whitespace -/

section
variable {u : UnicodeData}

theorem countWhitespaces_fst (num last : ℕ) (s : List ℕ) :
    (countWhitespaces u num last s).1 = num + (s.takeWhile (isWhitespace u)).length := by
  induction s generalizing num last with
  | nil => rfl
  | cons c s ih =>
    rw [countWhitespaces, List.takeWhile_cons]
    by_cases hc : isWhitespace u c
    · rw [if_pos hc, if_pos hc, ih, List.length_cons]
      omega
    · rw [if_neg hc, if_neg hc]
      rfl

theorem countWhitespaces_snd (num last : ℕ) (s : List ℕ) :
    (countWhitespaces u num last s).2 =
      if (countWhitespaces u 0 0 s).2 = 0 then last
      else num + (countWhitespaces u 0 0 s).2 := by
  induction s generalizing num last with
  | nil => rfl
  | cons c s ih =>
    rw [countWhitespaces, countWhitespaces]
    by_cases hc : isWhitespace u c
    · rw [if_pos hc, if_pos hc, ih (num + 1), ih (0 + 1)]
      by_cases hl : (countWhitespaces u 0 0 s).2 = 0
      · rw [if_pos hl, if_pos hl]
        by_cases hn : isNewline c <;> simp [hn]
      · rw [if_neg hl, if_neg hl, if_neg (by omega)]
        omega
    · rw [if_neg hc, if_neg hc]
      rfl

theorem lineBreak_matchAt (hnl : ∀ c, isNewline c → isWhitespace u c) (s : List ℕ) :
    (seq (star (one (isWhitespace u))) (plus (one isNewline))).matchAt s =
      if 0 < (countWhitespaces u 0 0 s).2 then some (s.drop (countWhitespaces u 0 0 s).2)
      else none := by
  rw [matchAt_seq, findSome?_star (oneOf_one _)]
  induction s with
  | nil => rfl
  | cons c s ih =>
    rw [findSome?_runs_plus hnl, ih, countWhitespaces]
    by_cases hc : isWhitespace u c
    · rw [if_pos hc, if_pos hc, countWhitespaces_snd (0 + 1)]
      by_cases hl : (countWhitespaces u 0 0 s).2 = 0
      · rw [if_neg (by omega), Option.none_or, if_pos hl]
        by_cases hn : isNewline c
        · rw [if_pos hn, if_pos hn]
          rfl
        · rw [if_neg hn, if_neg hn]
          rfl
      · rw [if_pos (Nat.pos_of_ne_zero hl), Option.some_or, if_neg hl, if_pos (by omega),
          Nat.add_comm (0 + 1), List.drop_succ_cons]
    · rw [if_neg hc, if_neg hc]
      rfl

theorem dropWhile_eq_drop (p : ℕ → Bool) (s : List ℕ) :
    s.dropWhile p = s.drop (s.takeWhile p).length := by
  induction s with
  | nil => rfl
  | cons c s ih =>
    rw [List.dropWhile_cons, List.takeWhile_cons]
    by_cases hc : p c
    · rw [if_pos hc, if_pos hc, ih, List.length_cons, List.drop_succ_cons]
    · rw [if_neg hc, if_neg hc]
      rfl

theorem getCpt_eq_outOfRange {s : List ℕ} (hrange : ∀ d ∈ s, d ≠ outOfRange) (k : ℕ) :
    getCpt s k = outOfRange ↔ s.drop k = [] := by
  rw [List.drop_eq_nil_iff, getCpt]
  by_cases hk : k < s.length
  · rw [List.getD_eq_getElem _ _ hk]
    exact ⟨fun h => absurd h (hrange _ (List.getElem_mem hk)), fun h => absurd hk (by omega)⟩
  · rw [List.getD_eq_default _ _ (not_lt.mp hk)]
    exact ⟨fun _ => not_lt.mp hk, fun _ => rfl⟩

theorem spaces_matchAt {c : ℕ} {s : List ℕ} (hc : isWhitespace u c)
    (hrange : ∀ d ∈ c :: s, d ≠ outOfRange) :
    ∃ rest, spaces ((c :: s).takeWhile (isWhitespace u)).length (c :: s) = token (c :: s) rest ∧
      ((spacesKept u).matchAt (c :: s)).or ((plus (one (isWhitespace u))).matchAt (c :: s)) =
        some rest := by
  have hkept : (spacesKept u).matchAt (c :: s) =
      if s.dropWhile (isWhitespace u) = [] then some []
      else if 0 < (s.takeWhile (isWhitespace u)).length then
        some (s.drop ((s.takeWhile (isWhitespace u)).length - 1))
      else none := by
    rw [spacesKept, matchAt_seq, findSome?_plus (oneOf_one _), if_pos hc, findSome?_runs_notAhead]
  have hplus : (plus (one (isWhitespace u))).matchAt (c :: s) =
      some (s.drop (s.takeWhile (isWhitespace u)).length) := by
    rw [matchAt_plus (oneOf_one _), List.head?_cons, Option.any_some, if_pos hc,
      List.dropWhile_cons, if_pos hc, dropWhile_eq_drop]
  have hend := getCpt_eq_outOfRange hrange ((s.takeWhile (isWhitespace u)).length + 1)
  rw [hkept, hplus, List.takeWhile_cons, if_pos hc, spaces, List.length_cons, dropWhile_eq_drop]
  rw [List.drop_succ_cons] at hend ⊢
  generalize (s.takeWhile (isWhitespace u)).length = n at *
  rw [if_pos (Nat.succ_pos n)]
  by_cases he : s.drop n = []
  · rw [if_neg fun h => h.2 (hend.mpr he), if_pos he, he]
    exact ⟨[], rfl, rfl⟩
  · rw [if_neg he]
    by_cases hn : 0 < n
    · rw [if_pos ⟨Nat.succ_lt_succ hn, fun h => he (hend.mp h)⟩, if_pos hn, Nat.add_sub_cancel]
      refine ⟨_, rfl, ?_⟩
      rw [Option.some_or]
      conv_rhs => rw [← Nat.sub_add_cancel hn, List.drop_succ_cons]
    · rw [if_neg fun h => hn (Nat.lt_of_succ_lt_succ h.1), if_neg hn, Option.none_or]
      exact ⟨_, rfl, rfl⟩

theorem lineSpaces_matchAt (hnl : ∀ c, isNewline c → isWhitespace u c) {c : ℕ} {s : List ℕ}
    (hc : isWhitespace u c) (hrange : ∀ d ∈ c :: s, d ≠ outOfRange) :
    ∃ rest, lineSpaces u (c :: s) = token (c :: s) rest ∧
      ((seq (star (one (isWhitespace u))) (plus (one isNewline))).matchAt (c :: s)).or
        (((spacesKept u).matchAt (c :: s)).or ((plus (one (isWhitespace u))).matchAt (c :: s))) =
        some rest := by
  simp only [lineSpaces]
  rw [lineBreak_matchAt hnl]
  by_cases hl : 0 < (countWhitespaces u 0 0 (c :: s)).2
  · rw [if_pos hl, if_pos hl, Option.some_or]
    exact ⟨_, rfl, rfl⟩
  · rw [if_neg hl, if_neg hl, Option.none_or, countWhitespaces_fst, Nat.zero_add]
    exact spaces_matchAt hc hrange

end

/-! ## The conditions -/

/-- Whitespace, letters, marks and numbers are disjoint. -/
structure Disjoint (u : UnicodeData) : Prop where
  whitespace : ∀ c, isWhitespace u c → ¬ isLetter u c ∧ ¬ isMark u c ∧ ¬ isNumber u c
  letter : ∀ c, isLetter u c → ¬ isMark u c ∧ ¬ isNumber u c
  mark : ∀ c, isMark u c → ¬ isNumber u c

/-- What the splitters rely on of the tables besides: the space and the line breaks are whitespace,
the apostrophe and the two joiners are no numbers, and every code point has a flag. -/
structure LikeTables (u : UnicodeData) : Prop extends Disjoint u where
  space : isWhitespace u ' '.toNat
  newline : ∀ c, isNewline c → isWhitespace u c
  apostrophe : ¬ isNumber u '\''.toNat
  joiners : ¬ isNumber u 0x200C ∧ ¬ isNumber u 0x200D
  flagged : ∀ c, (u.flagsFromCpt c).asUint ≠ 0

theorem LikeTables.isOther_eq {u : UnicodeData} (h : LikeTables u) (classed : CptFlags → Bool) :
    isOther u classed = fun c => !classed (u.flagsFromCpt c) := by
  funext c
  have hflag : ((u.flagsFromCpt c).asUint != 0) = true := bne_iff_ne.mpr (h.flagged c)
  rw [isOther, hflag, Bool.and_true]

/-- What ties the parts of a splitter of the kind to those of its pattern. -/
structure Follows (u : UnicodeData) (k : Kind) (fold : ℕ → ℕ) (word number other : Regex ℕ) :
    Prop where
  fold : ∀ s, contraction k.foldNext u.tolower s = contraction fold fold s
  word : OneOf word k.isWord
  letter : ∀ c, isLetter u c → k.isWord c
  word_not : ∀ c, k.isWord c → ¬ isNumber u c ∧ ¬ isNewline c
  number : ∀ c s, ¬ isNumber u c → number.matchAt (c :: s) = none
  other : OneOf other fun c => !k.classed (u.flagsFromCpt c)
  classed : ∀ c, k.classed (u.flagsFromCpt c) → isWhitespace u c ∨ k.isWord c ∨ isNumber u c
  whitespace : ∀ c, isWhitespace u c → k.classed (u.flagsFromCpt c)
  clear : k.classed {} = false

section
variable {u : UnicodeData} {k : Kind} {fold : ℕ → ℕ} {word number other : Regex ℕ}

theorem Follows.word_matchAt (h : Follows u k fold word number other) (c : ℕ) (s : List ℕ) :
    (seq (opt (one fun c => !(isNewline c || isLetter u c || isNumber u c))) (plus word)).matchAt
        (c :: s) =
      if (!(isNewline c || isNumber u c) && (wordAt k.isWord (c :: s) 0 ||
        wordAt k.isWord (c :: s) 1)) = true then some (s.dropWhile k.isWord) else none := by
  have hnext : wordAt k.isWord (c :: s) 1 = s.head?.any k.isWord := by
    rw [wordAt, List.getElem?_cons_succ, List.head?_eq_getElem?]
  have hfirst : wordAt k.isWord (c :: s) 0 = k.isWord c := rfl
  rw [matchAt_opt_seq, matchAt_plus h.word, matchAt_plus h.word, hnext, hfirst, List.head?_cons,
    Option.any_some, List.dropWhile_cons]
  by_cases hw : k.isWord c
  · obtain ⟨hnum, hnl⟩ := h.word_not c hw
    simp only [hw, hnum, hnl]
    by_cases hl : isLetter u c <;> by_cases hs : s.head?.any k.isWord <;> simp [hl, hs]
  · have hletter : isLetter u c = false := Bool.eq_false_iff.mpr fun hl => hw (h.letter c hl)
    simp only [hw, hletter]
    by_cases hn : isNewline c <;> by_cases hm : isNumber u c <;>
      by_cases hs : s.head?.any k.isWord <;> simp [hn, hm, hs]

theorem Follows.other_matchAt (h : Follows u k fold word number other) (hu : LikeTables u) (c : ℕ)
    (s : List ℕ) :
    (seq (opt (literal ' ')) (seq (plus other) (star (one isNewline)))).matchAt (c :: s) =
      if (if c = ' '.toNat then s.head?.any (isOther u k.classed)
        else isOther u k.classed c) = true then
        some ((s.dropWhile (isOther u k.classed)).dropWhile isNewline)
      else none := by
  rw [hu.isOther_eq, literal, matchAt_opt_seq, matchAt_plus_star h.other (oneOf_one _),
    matchAt_plus_star h.other (oneOf_one _), List.head?_cons, Option.any_some, List.dropWhile_cons]
  by_cases hsp : c = ' '.toNat
  · have hclassed : k.classed (u.flagsFromCpt c) = true := by
      rw [hsp]
      exact h.whitespace _ hu.space
    rw [if_pos hsp, if_pos (beq_iff_eq.mpr hsp), hclassed]
    simp
  · rw [if_neg hsp, if_neg (by rwa [beq_iff_eq])]
    by_cases hc : k.classed (u.flagsFromCpt c) <;> simp [hc]

theorem Follows.kindRound_matchAt (h : Follows u k fold word number other) (hu : LikeTables u)
    {c : ℕ} {s : List ℕ} (hnum : ¬ isNumber u c) (hrange : ∀ d ∈ c :: s, d ≠ outOfRange) :
    ∃ rest, kindRound u k (c :: s) = token (c :: s) rest ∧
      (kindRegex u fold word number other).matchAt (c :: s) = some rest := by
  rw [kindRegex, kindRound, h.fold]
  simp only [matchAt_alt, contractions_matchAt]
  cases contraction fold fold (c :: s) with
  | some rest => exact ⟨rest, rfl, rfl⟩
  | none =>
    have hcpt : getCpt (c :: s) 0 = c := rfl
    have hflags : getFlags u (c :: s) 0 = u.flagsFromCpt c := rfl
    have hnumber : (u.flagsFromCpt c).isNumber = isNumber u c := rfl
    simp only [Option.none_or]
    rw [h.word_matchAt, h.number c s hnum, h.other_matchAt hu, hcpt, hflags]
    by_cases hw : (!(isNewline c || isNumber u c) && (wordAt k.isWord (c :: s) 0 ||
        wordAt k.isWord (c :: s) 1)) = true
    · rw [if_pos hw, Option.some_or]
      exact ⟨_, if_pos hw, rfl⟩
    · have hflag : ((u.flagsFromCpt c).asUint != 0) = true := bne_iff_ne.mpr (hu.flagged c)
      rw [if_neg hw, hnumber, if_neg hw, if_neg hnum, Option.none_or, Option.none_or, hflag,
        Bool.and_true]
      by_cases hsp : c = ' '.toNat
      · have hspaces := lineSpaces_matchAt hu.newline (hsp ▸ hu.space) hrange
        rw [if_pos hsp, if_pos hsp, if_pos hsp]
        cases s with
        | nil =>
          -- the space ends the segment: the branch is taken, and so is what whitespace matches
          obtain ⟨rest, hrest, hmatch⟩ := hspaces
          have hlt := (lineSpaces_covers (u := u) (List.cons_ne_nil c [])).lt
          rw [hrest] at hlt
          obtain rfl : rest = [] := List.length_eq_zero_iff.mp (Nat.lt_one_iff.mp hlt)
          refine ⟨[], if_pos ?_, hmatch⟩
          exact congrArg (!·) h.clear
        | cons d t =>
          have hother : isOther u k.classed d = !k.classed (u.flagsFromCpt d) :=
            congrFun (hu.isOther_eq _) d
          have hflags2 : getFlags u (c :: d :: t) 1 = u.flagsFromCpt d := rfl
          rw [hflags2, List.head?_cons, Option.any_some, hother]
          by_cases hd : k.classed (u.flagsFromCpt d)
          · simp only [hd, Bool.not_true, Bool.false_eq_true, if_false, Option.none_or]
            exact hspaces
          · simp only [hd, Bool.not_false, if_true, Option.some_or]
            exact ⟨_, rfl, rfl⟩
      · have hother : isOther u k.classed c = !k.classed (u.flagsFromCpt c) :=
          congrFun (hu.isOther_eq _) c
        rw [if_neg hsp, if_neg hsp, if_neg hsp, hother]
        by_cases hc : k.classed (u.flagsFromCpt c)
        · have hword : ¬ k.isWord c := by
            intro hword
            have hnl := (h.word_not c hword).2
            have hfirst : wordAt k.isWord (c :: s) 0 = true := hword
            exact hw (by simp [hnl, hnum, hfirst])
          have hws : isWhitespace u c := (h.classed c hc).resolve_right (not_or.mpr ⟨hword, hnum⟩)
          simp only [hc, Bool.not_true, Bool.false_eq_true, if_false, Option.none_or]
          exact lineSpaces_matchAt hu.newline hws hrange
        · have hrun : (c :: s).dropWhile (isOther u k.classed) =
              s.dropWhile (isOther u k.classed) := by
            rw [List.dropWhile_cons, if_pos (by rw [hother]; simpa using hc)]
          simp only [hc, Bool.not_false, if_true, Option.some_or]
          exact ⟨_, by rw [hrun], rfl⟩

/-! ## Numbers -/

theorem Follows.number_matchAt (h : Follows u k fold word number other) (hu : LikeTables u)
    {c : ℕ} {s rest : List ℕ} (hnum : isNumber u c) (hmatch : number.matchAt (c :: s) = some rest) :
    contraction fold fold (c :: s) = none ∧
      (kindRegex u fold word number other).matchAt (c :: s) = some rest := by
  have hquote : c ≠ '\''.toNat := fun he => hu.apostrophe (he ▸ hnum)
  have hcon : contraction fold fold (c :: s) = none := if_neg fun hc => hquote hc.1
  refine ⟨hcon, ?_⟩
  rw [kindRegex]
  simp only [matchAt_alt, contractions_matchAt]
  rw [hcon, h.word_matchAt, hmatch, hnum, Bool.or_true, Bool.not_true, Bool.false_and,
    if_neg Bool.false_ne_true]
  rfl

theorem Follows.kindRound_number (h : Follows u k fold word number other) (hu : LikeTables u)
    {c : ℕ} {s : List ℕ} (hnum : isNumber u c) :
    kindRound u k (c :: s) = k.numbers (c :: s) := by
  have hquote : c ≠ '\''.toNat := fun he => hu.apostrophe (he ▸ hnum)
  have hcon : contraction fold fold (c :: s) = none := if_neg fun hc => hquote hc.1
  have hflag : (getFlags u (c :: s) 0).isNumber = true := hnum
  rw [kindRound, h.fold, hcon]
  simp only [hflag, Bool.or_true, Bool.not_true, Bool.false_and, Bool.false_eq_true, if_false,
    if_true]

theorem one_matchAt_cons (p : ℕ → Bool) (c : ℕ) (s : List ℕ) :
    (one p).matchAt (c :: s) = if p c then some s else none := by
  rw [matchAt, rests_one_cons]
  split <;> rfl

theorem upToThree_matchAt (c : ℕ) (s : List ℕ) (hc : isNumber u c) :
    (upToThree u).matchAt (c :: s) = some (match s with
      | [] => []
      | d :: t => if isNumber u d then
          match t with
          | [] => []
          | e :: w => if isNumber u e then w else t
        else s) := by
  rw [upToThree, matchAt_seq, rests_one_cons, if_pos hc, List.findSome?_singleton]
  match s with
  | [] => rfl
  | [d] => by_cases hd : isNumber u d <;> simp [matchAt, rests, hd]
  | d :: e :: w =>
    by_cases hd : isNumber u d <;> by_cases he : isNumber u e <;> simp [matchAt, rests, hd, he]

theorem threeNumbers_of_not {c : ℕ} (hc : ¬ isNumber u c) (s : List ℕ) :
    threeNumbers u (c :: s) = ([], c :: s) := by
  rw [threeNumbers, numberLoop, if_neg hc]
  rfl

theorem threeNumbers_step {c : ℕ} {s rest : List ℕ} (hc : isNumber u c)
    (h : (upToThree u).matchAt (c :: s) = some rest) :
    rest <:+ c :: s ∧ rest.length < (c :: s).length ∧ threeNumbers u (c :: s) =
      (((c :: s).length - rest.length) :: (threeNumbers u rest).1, (threeNumbers u rest).2) := by
  rw [upToThree_matchAt c s hc] at h
  obtain rfl := Option.some.inj h
  rw [threeNumbers, numberLoop, if_pos hc, if_neg (by decide)]
  cases s with
  | nil => exact ⟨List.nil_suffix, Nat.one_pos, rfl⟩
  | cons d t =>
    by_cases hd : isNumber u d
    · simp only [hd, if_true]
      rw [numberLoop, if_pos hd, if_neg (by decide)]
      cases t with
      | nil => exact ⟨List.nil_suffix, Nat.two_pos, rfl⟩
      | cons e w =>
        by_cases he : isNumber u e
        · simp only [he, if_true]
          rw [numberLoop, if_pos he, if_pos (by decide)]
          refine ⟨List.suffix_append [c, d, e] w, by simp only [List.length_cons]; omega, ?_⟩
          rw [show (c :: d :: e :: w).length - w.length = 3 by simp only [List.length_cons]; omega]
          rfl
        · simp only [he, Bool.false_eq_true, if_false]
          rw [numberLoop, if_neg he, threeNumbers_of_not he]
          refine ⟨List.suffix_append [c, d] _, by simp only [List.length_cons]; omega, ?_⟩
          rw [show (c :: d :: e :: w).length - (e :: w).length = 2 by
            simp only [List.length_cons]; omega]
          rfl
    · simp only [hd, Bool.false_eq_true, if_false]
      rw [numberLoop, if_neg hd, threeNumbers_of_not hd]
      refine ⟨List.suffix_cons c _, Nat.lt_succ_self _, ?_⟩
      rw [show (c :: d :: t).length - (d :: t).length = 1 by simp only [List.length_cons]; omega]
      rfl

theorem split_threeNumbers {r : Regex ℕ}
    (hr : ∀ c s rest, isNumber u c → (upToThree u).matchAt (c :: s) = some rest →
      r.matchAt (c :: s) = some rest) (s : List ℕ) :
    r.split s = (threeNumbers u s).1 ++ r.split (threeNumbers u s).2 := by
  induction hlen : s.length using Nat.strong_induction_on generalizing s with
  | _ n ih =>
    match s with
    | [] => rfl
    | c :: s =>
      by_cases hc : isNumber u c
      · have hmatch := upToThree_matchAt c s hc
        obtain ⟨-, hlt, heq⟩ := threeNumbers_step hc hmatch
        rw [split_of_matchAt (hr c s _ hc hmatch) hlt, heq, ih _ (hlen ▸ hlt) _ rfl]
        rfl
      · rw [threeNumbers_of_not hc]
        rfl

/-! ## Whole segments -/

theorem rounds_eq_split {round : List ℕ → Round} {r : Regex ℕ}
    (hcov : ∀ c s, Covers (c :: s) (round (c :: s)))
    (hstep : ∀ c s, (∀ d ∈ c :: s, d ≠ outOfRange) →
      r.split (c :: s) = (round (c :: s)).1 ++ r.split (round (c :: s)).2)
    {n : ℕ} {s : List ℕ} (hn : s.length ≤ n) (hrange : ∀ d ∈ s, d ≠ outOfRange) :
    rounds round n s = r.split s := by
  induction n generalizing s with
  | zero =>
    obtain rfl := List.length_eq_zero_iff.mp (Nat.le_zero.mp hn)
    rfl
  | succ n ih =>
    cases s with
    | nil => rfl
    | cons c s =>
      have hr := hcov c s
      rw [rounds, hstep c s hrange, ih (Nat.le_of_lt_succ (hr.lt.trans_le hn))
        fun d hd => hrange d (hr.suffix.mem hd)]

theorem split_token {r : Regex ℕ} {round : Round} {s : List ℕ} (hcov : Covers s round)
    (h : ∃ rest, round = token s rest ∧ r.matchAt s = some rest) :
    r.split s = round.1 ++ r.split round.2 := by
  obtain ⟨rest, rfl, hmatch⟩ := h
  exact split_of_matchAt hmatch hcov.lt

theorem Follows.split_eq (h : Follows u k fold word number other) (hu : LikeTables u)
    (hcov : ∀ c s, isNumber u c → Covers (c :: s) (k.numbers (c :: s)))
    (hsplit : ∀ c s, isNumber u c → (kindRegex u fold word number other).split (c :: s) =
      (k.numbers (c :: s)).1 ++
        (kindRegex u fold word number other).split (k.numbers (c :: s)).2)
    {s : List ℕ} (hrange : ∀ d ∈ s, d ≠ outOfRange) :
    splitSegment (kindRound u k) s = (kindRegex u fold word number other).split s := by
  refine rounds_eq_split (kindRound_covers hcov) (fun c s hr => ?_) le_rfl hrange
  by_cases hc : isNumber u c
  · rw [h.kindRound_number hu hc]
    exact hsplit c s hc
  · exact split_token (kindRound_covers hcov c s) (h.kindRound_matchAt hu hc hr)

end

/-! ## GPT-2 -/

section
variable {u : UnicodeData}

theorem space_plus_matchAt {r : Regex ℕ} {p : ℕ → Bool} (h : OneOf r p) (hsp : p ' '.toNat = false)
    (c : ℕ) (s : List ℕ) : (seq (opt (literal ' ')) (plus r)).matchAt (c :: s) =
      if (if c = ' '.toNat then s.head?.any p else p c) = true then some (s.dropWhile p)
      else none := by
  rw [literal, matchAt_opt_seq, matchAt_plus h, matchAt_plus h, List.head?_cons, Option.any_some,
    List.dropWhile_cons]
  by_cases hc : c = ' '.toNat
  · rw [if_pos hc, if_pos (beq_iff_eq.mpr hc), hc, hsp, if_neg Bool.false_ne_true, Option.or_none]
  · rw [if_neg hc, if_neg (by rwa [beq_iff_eq])]
    by_cases hp : p c
    · rw [if_pos hp, if_pos hp, if_pos hp]
    · rw [if_neg hp, if_neg hp]

theorem flags2_eq (f : CptFlags → Bool) (hf : f {} = false) (c : ℕ) (s : List ℕ) :
    f (if c = ' '.toNat then getFlags u (c :: s) 1 else getFlags u (c :: s) 0) =
      if c = ' '.toNat then s.head?.any fun d => f (u.flagsFromCpt d)
      else f (u.flagsFromCpt c) := by
  by_cases hc : c = ' '.toNat
  · rw [if_pos hc, if_pos hc]
    cases s with
    | nil => exact hf
    | cons d s => rfl
  · rw [if_neg hc, if_neg hc]
    rfl

theorem run_eq {p : ℕ → Bool} {c : ℕ} {s : List ℕ}
    (h : (if c = ' '.toNat then s.head?.any p else p c) = true) :
    (if c = ' '.toNat then (c :: s).drop 1 else c :: s).dropWhile p = s.dropWhile p := by
  by_cases hc : c = ' '.toNat
  · rw [if_pos hc]
    rfl
  · rw [if_neg hc] at h ⊢
    rw [List.dropWhile_cons, if_pos h]

theorem gpt2Round_matchAt (hu : LikeTables u) {c : ℕ} {s : List ℕ}
    (hrange : ∀ d ∈ c :: s, d ≠ outOfRange) :
    ∃ rest, gpt2Round u (c :: s) = token (c :: s) rest ∧
      (gpt2Regex u).matchAt (c :: s) = some rest := by
  obtain ⟨hletter, -, hnumber⟩ := hu.whitespace _ hu.space
  have hother : isOther u isClassed = fun c =>
      !(isWhitespace u c || isLetter u c || isNumber u c) := hu.isOther_eq _
  have hunclassed : OneOf (unclassed u) (isOther u isClassed) := hother ▸ oneOf_one _
  have hspace : isOther u isClassed ' '.toNat = false := by
    rw [hother]
    simp only [hu.space, Bool.true_or, Bool.not_true]
  have hcpt : getCpt (c :: s) 0 = c := rfl
  have hL : (if c = ' '.toNat then getFlags u (c :: s) 1 else getFlags u (c :: s) 0).isLetter =
      if c = ' '.toNat then s.head?.any (isLetter u) else isLetter u c :=
    flags2_eq CptFlags.isLetter rfl c s
  have hN : (if c = ' '.toNat then getFlags u (c :: s) 1 else getFlags u (c :: s) 0).isNumber =
      if c = ' '.toNat then s.head?.any (isNumber u) else isNumber u c :=
    flags2_eq CptFlags.isNumber rfl c s
  have hO : (!isClassed (if c = ' '.toNat then getFlags u (c :: s) 1 else getFlags u (c :: s) 0) &&
      (if c = ' '.toNat then getFlags u (c :: s) 1 else getFlags u (c :: s) 0).asUint != 0) =
      if c = ' '.toNat then s.head?.any (isOther u isClassed) else isOther u isClassed c :=
    flags2_eq (fun f => !isClassed f && f.asUint != 0) rfl c s
  rw [gpt2Regex, gpt2Round]
  simp only [matchAt_alt, contractions_matchAt]
  cases contraction id id (c :: s) with
  | some rest => exact ⟨rest, rfl, rfl⟩
  | none =>
    simp only [Option.none_or, hcpt]
    rw [space_plus_matchAt (oneOf_one _) (Bool.eq_false_iff.mpr hletter),
      space_plus_matchAt (oneOf_one _) (Bool.eq_false_iff.mpr hnumber),
      space_plus_matchAt hunclassed hspace, hL, hN, hO]
    by_cases hl : (if c = ' '.toNat then s.head?.any (isLetter u) else isLetter u c) = true
    · exact ⟨_, by rw [if_pos hl, run_eq hl], by rw [if_pos hl, Option.some_or]⟩
    rw [if_neg hl, if_neg hl, Option.none_or]
    by_cases hn : (if c = ' '.toNat then s.head?.any (isNumber u) else isNumber u c) = true
    · exact ⟨_, by rw [if_pos hn, run_eq hn], by rw [if_pos hn, Option.some_or]⟩
    rw [if_neg hn, if_neg hn, Option.none_or]
    by_cases ho : (if c = ' '.toNat then s.head?.any (isOther u isClassed)
        else isOther u isClassed c) = true
    · exact ⟨_, by rw [if_pos ho, run_eq ho], by rw [if_pos ho, Option.some_or]⟩
    rw [if_neg ho, if_neg ho, Option.none_or]
    have hws : isWhitespace u c := by
      by_cases hc : c = ' '.toNat
      · exact hc ▸ hu.space
      · rw [if_neg hc] at hl hn ho
        rw [hother] at ho
        simpa [hl, hn] using ho
    exact spaces_matchAt hws hrange

theorem gpt2_split_eq (hu : LikeTables u) {s : List ℕ} (hrange : ∀ d ∈ s, d ≠ outOfRange) :
    splitSegment (gpt2Round u) s = (gpt2Regex u).split s :=
  rounds_eq_split gpt2Round_covers
    (fun c s hr => split_token (gpt2Round_covers c s) (gpt2Round_matchAt hu hr)) le_rfl hrange

/-! ## The splitters of the kind -/

theorem wordLetter_not (hu : LikeTables u) {c : ℕ} (hc : isLetter u c ∨ isMark u c) :
    ¬ isNumber u c ∧ ¬ isNewline c := by
  obtain hl | hm := hc
  · exact ⟨(hu.letter c hl).2, fun hn => (hu.whitespace c (hu.newline c hn)).1 hl⟩
  · exact ⟨hu.mark c hm, fun hn => (hu.whitespace c (hu.newline c hn)).2.1 hm⟩

theorem one_number_matchAt (c : ℕ) (s : List ℕ) (hc : ¬ isNumber u c) :
    (one (isNumber u)).matchAt (c :: s) = none := by
  rw [one_matchAt_cons, if_neg hc]

theorem upToThree_number_matchAt (c : ℕ) (s : List ℕ) (hc : ¬ isNumber u c) :
    (upToThree u).matchAt (c :: s) = none := by
  rw [upToThree, matchAt_seq, rests_one_cons, if_neg hc]
  rfl

theorem isClassed_iff (c : ℕ) : isClassed (u.flagsFromCpt c) = true ↔
    isWhitespace u c ∨ isLetter u c ∨ isNumber u c := by
  simp [isClassed, isWhitespace, isLetter, isNumber, or_assoc]

theorem oneOf_unclassed : OneOf (unclassed u) fun c => !isClassed (u.flagsFromCpt c) := oneOf_one _

theorem follows_letters (hu : LikeTables u) {numbers : List ℕ → Round} {number : Regex ℕ}
    (hnumber : ∀ c s, ¬ isNumber u c → number.matchAt (c :: s) = none) :
    Follows u ⟨u.tolower, isLetter u, numbers, isClassed⟩ u.tolower (one (isLetter u)) number
      (unclassed u) where
  fold _ := rfl
  word := oneOf_one _
  letter _ h := h
  word_not _ h := wordLetter_not hu (.inl h)
  number := hnumber
  other := oneOf_unclassed
  classed c := (isClassed_iff c).mp
  whitespace c h := (isClassed_iff c).mpr (.inl h)
  clear := rfl

theorem follows_qwen35 (hu : LikeTables u) :
    Follows u (qwen35 u) u.tolower (one fun c => isLetter u c || isMark u c) (one (isNumber u))
      (unclassedNorMark u) where
  fold _ := rfl
  word := oneOf_one _
  letter c h := by simp [qwen35, h]
  word_not c h := wordLetter_not hu (by simpa [qwen35] using h)
  number := one_number_matchAt
  other := oneOf_one _
  classed c h := by
    simp only [qwen35, isClassedOrMark, Bool.or_eq_true, or_assoc] at h ⊢
    exact h
  whitespace c h := by
    have hw : (u.flagsFromCpt c).isWhitespace = true := h
    simp [qwen35, isClassedOrMark, hw]
  clear := rfl

theorem contraction_congr {foldNext fold fold' : ℕ → ℕ}
    (he : ∀ c, fold c = 'e'.toNat ↔ fold' c = 'e'.toNat)
    (hl : ∀ c, fold c = 'l'.toNat ↔ fold' c = 'l'.toNat) (s : List ℕ) :
    contraction foldNext fold s = contraction foldNext fold' s := by
  simp only [contraction, he, hl]

theorem foldLongS_eq {c x : ℕ} (hs : x ≠ 's'.toNat) (hx : x ≠ 0x017F) :
    foldLongS u c = x ↔ u.tolower c = x := by
  rw [foldLongS]
  split_ifs with h
  · exact ⟨fun he => absurd he.symm hs, fun he => absurd (he.symm.trans h) hx⟩
  · rfl

theorem follows_k2Horizon (hu : LikeTables u) :
    Follows u (k2Horizon u) (foldLongS u)
      (alt (one (isLetter u)) <| alt (one (isMark u)) <|
        alt (one fun c => c == 0x200C) (one fun c => c == 0x200D))
      (upToThree u) (unclassed u) where
  -- the second letter is an e or an l, which the long s is not
  fold := contraction_congr (fun _ => (foldLongS_eq (by decide) (by decide)).symm)
    fun _ => (foldLongS_eq (by decide) (by decide)).symm
  word := by
    have hword : isK2Letter u = fun c =>
        isLetter u c || (isMark u c || (c == 0x200C || c == 0x200D)) := by
      funext c
      rw [isK2Letter]
      ac_rfl
    change OneOf _ (isK2Letter u)
    rw [hword]
    exact (oneOf_one _).alt ((oneOf_one _).alt ((oneOf_one _).alt (oneOf_one _)))
  letter c h := by simp [k2Horizon, isK2Letter, h]
  word_not c h := by
    simp only [k2Horizon, isK2Letter, Bool.or_eq_true, beq_iff_eq, or_assoc] at h
    rcases h with rfl | rfl | h
    · exact ⟨hu.joiners.1, by decide⟩
    · exact ⟨hu.joiners.2, by decide⟩
    · exact wordLetter_not hu h
  number := upToThree_number_matchAt
  other := oneOf_unclassed
  classed c h := by
    rcases (isClassed_iff c).mp h with h | h | h
    · exact .inl h
    · exact .inr (.inl (by simp [k2Horizon, isK2Letter, h]))
    · exact .inr (.inr h)
  whitespace c h := (isClassed_iff c).mpr (.inl h)
  clear := rfl

theorem Follows.threes_split_eq {k : Kind} {fold : ℕ → ℕ} {word other : Regex ℕ}
    (h : Follows u k fold word (upToThree u) other) (hu : LikeTables u)
    (hk : k.numbers = threeNumbers u) {s : List ℕ} (hrange : ∀ d ∈ s, d ≠ outOfRange) :
    splitSegment (kindRound u k) s = (kindRegex u fold word (upToThree u) other).split s := by
  refine h.split_eq hu (fun c s hc => hk ▸ threeNumbers_covers hc) (fun c s _ => ?_) hrange
  rw [hk]
  exact split_threeNumbers (fun c s rest hc hm => (h.number_matchAt hu hc hm).2) (c :: s)

theorem Follows.ones_split_eq {k : Kind} {fold : ℕ → ℕ} {word other : Regex ℕ}
    (h : Follows u k fold word (one (isNumber u)) other) (hu : LikeTables u)
    (hk : k.numbers = oneNumber) {s : List ℕ} (hrange : ∀ d ∈ s, d ≠ outOfRange) :
    splitSegment (kindRound u k) s =
      (kindRegex u fold word (one (isNumber u)) other).split s := by
  refine h.split_eq hu (fun c s _ => hk ▸ oneNumber_covers (List.cons_ne_nil c s))
    (fun c s hc => ?_) hrange
  rw [hk]
  refine split_token (oneNumber_covers (List.cons_ne_nil c s)) ⟨s, rfl, ?_⟩
  exact (h.number_matchAt hu hc (by rw [one_matchAt_cons, if_pos hc])).2

/-! ## Texts -/

theorem overSegments_congr {f g : List ℕ → List ℕ} {cpts : List ℕ} (offsets : List ℕ)
    (h : ∀ s, (∀ d ∈ s, d ∈ cpts) → f s = g s) :
    overSegments f cpts offsets = overSegments g cpts offsets := by
  induction offsets generalizing cpts with
  | nil => rfl
  | cons offset offsets ih =>
    rw [overSegments, overSegments, h _ fun d => List.mem_of_mem_take,
      ih fun s hs => h s fun d hd => List.mem_of_mem_drop (hs d hd)]

theorem splitCustom_eq {f : List ℕ → List ℕ} {r : Regex ℕ}
    (h : ∀ s, (∀ d ∈ s, d ≠ outOfRange) → f s = r.split s) (text : List UInt8)
    (offsets : List ℕ) :
    overSegments f (cptsFromUtf8 text) offsets = regexSplit r text offsets :=
  overSegments_congr offsets fun s hs => h s fun d hd he =>
    absurd (cptsFromUtf8_lt (hs d hd)) (by rw [he]; decide)

theorem kind_tiles {k : Kind} (hnum : ∀ c s, isNumber u c → Covers (c :: s) (k.numbers (c :: s)))
    {text : List UInt8} {offsets : List ℕ} (hsum : offsets.sum ≤ (cptsFromUtf8 text).length) :
    Tiles offsets (splitCustomKind u k text offsets) :=
  overSegments_tiles (splitSegment_splits (kindRound_covers hnum)) hsum

/-- On code points classified as the tables do, every splitter cuts each segment where its pattern
does, into tokens that are not empty and tile the segment. -/
theorem splitters_follow_patterns (hu : LikeTables u) (text : List UInt8) (offsets : List ℕ)
    (hcover : offsets.sum = (cptsFromUtf8 text).length) :
    (splitCustomGpt2 u text offsets = regexSplit (gpt2Regex u) text offsets ∧
      Tiles offsets (splitCustomGpt2 u text offsets)) ∧
    (splitCustomLlama3 u text offsets = regexSplit (llama3Regex u) text offsets ∧
      Tiles offsets (splitCustomLlama3 u text offsets)) ∧
    (splitCustomQwen2 u text offsets = regexSplit (qwen2Regex u) text offsets ∧
      Tiles offsets (splitCustomQwen2 u text offsets)) ∧
    (splitCustomQwen35 u text offsets = regexSplit (qwen35Regex u) text offsets ∧
      Tiles offsets (splitCustomQwen35 u text offsets)) ∧
    splitCustomK2Horizon u text offsets = regexSplit (k2HorizonRegex u) text offsets ∧
      Tiles offsets (splitCustomK2Horizon u text offsets) := by
  have hthree := fun c s (hc : isNumber u c) => threeNumbers_covers (s := s) hc
  have hone := fun c s (_ : isNumber u c) => oneNumber_covers (List.cons_ne_nil c s)
  refine ⟨⟨splitCustom_eq (fun s hs => gpt2_split_eq hu hs) text offsets,
      overSegments_tiles (splitSegment_splits gpt2Round_covers) hcover.le⟩,
    ⟨splitCustom_eq (fun s hs => ?_) text offsets, kind_tiles hthree hcover.le⟩,
    ⟨splitCustom_eq (fun s hs => ?_) text offsets, kind_tiles hone hcover.le⟩,
    ⟨splitCustom_eq (fun s hs => ?_) text offsets, kind_tiles hone hcover.le⟩,
    splitCustom_eq (fun s hs => ?_) text offsets, kind_tiles hthree hcover.le⟩
  · exact (follows_letters hu upToThree_number_matchAt).threes_split_eq hu rfl hs
  · exact (follows_letters hu one_number_matchAt).ones_split_eq hu rfl hs
  · exact (follows_qwen35 hu).ones_split_eq hu rfl hs
  · exact (follows_k2Horizon hu).threes_split_eq hu rfl hs

end

/-! ## Two tables -/

theorem asciiData_likeTables : LikeTables asciiData where
  whitespace c := by
    simp only [isWhitespace, isLetter, isMark, isNumber, asciiData]
    split_ifs <;> simp
  letter c := by
    simp only [isLetter, isMark, isNumber, asciiData]
    split_ifs <;> simp
  mark c := by
    simp only [isMark, asciiData]
    split_ifs <;> simp
  space := rfl
  newline c hc := by
    simp only [isNewline, Bool.or_eq_true, beq_iff_eq] at hc
    rcases hc with rfl | rfl <;> rfl
  apostrophe := by decide
  joiners := by decide
  flagged c := by
    simp only [asciiData]
    split_ifs <;> decide

/-- `It's 1234!`, in two segments. -/
theorem splitters_follow_patterns_ascii :
    let text : List UInt8 := [73, 116, 39, 115, 32, 49, 50, 51, 52, 33]
    (splitCustomGpt2 asciiData text [5, 5] = regexSplit (gpt2Regex asciiData) text [5, 5] ∧
      Tiles [5, 5] (splitCustomGpt2 asciiData text [5, 5])) ∧
    (splitCustomLlama3 asciiData text [5, 5] = regexSplit (llama3Regex asciiData) text [5, 5] ∧
      Tiles [5, 5] (splitCustomLlama3 asciiData text [5, 5])) ∧
    (splitCustomQwen2 asciiData text [5, 5] = regexSplit (qwen2Regex asciiData) text [5, 5] ∧
      Tiles [5, 5] (splitCustomQwen2 asciiData text [5, 5])) ∧
    (splitCustomQwen35 asciiData text [5, 5] = regexSplit (qwen35Regex asciiData) text [5, 5] ∧
      Tiles [5, 5] (splitCustomQwen35 asciiData text [5, 5])) ∧
    splitCustomK2Horizon asciiData text [5, 5] =
        regexSplit (k2HorizonRegex asciiData) text [5, 5] ∧
      Tiles [5, 5] (splitCustomK2Horizon asciiData text [5, 5]) :=
  splitters_follow_patterns asciiData_likeTables _ [5, 5] (by decide +kernel)

example : splitCustomLlama3 asciiData [73, 116, 39, 115, 32, 49, 50, 51, 52, 33] [10] =
    [2, 2, 1, 3, 1, 1] := by decide +kernel

/-- Every code point a letter, the line breaks too. -/
def allLetters : UnicodeData where
  flagsFromCpt _ := { isLetter := true }
  tolower := id

/-- A line break that is a letter begins a word of the pattern, but not of the splitter. -/
theorem lineBreak_letter :
    ¬ ∀ u, Disjoint u → ∀ (text : List UInt8) (offsets : List ℕ),
      offsets.sum = (cptsFromUtf8 text).length →
        splitCustomLlama3 u text offsets = regexSplit (llama3Regex u) text offsets := by
  intro h
  have hdisjoint : Disjoint allLetters :=
    ⟨fun _ hc => (nomatch hc), fun _ _ => ⟨Bool.false_ne_true, Bool.false_ne_true⟩,
      fun _ hc => (nomatch hc)⟩
  have hsplit := h allLetters hdisjoint [10, 97] [2] (by decide +kernel)
  exact absurd hsplit (by decide +kernel)

end PreTokenizer
end RocmFpx
