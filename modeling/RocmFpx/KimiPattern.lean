import RocmFpx.PreTokenizerRegex
import RocmFpx.UnicodeSplit

/-!
The splitter of Kimi K2 and the pattern in its comment. The pattern tells upper from lower case and
counts marks as letters, the splitter does neither: a round is a match of the pattern exactly where
this makes no difference.
-/

namespace RocmFpx
namespace PreTokenizer

open Unicode Regex

/-! ## The pattern -/

/-- `\p{Lu}`, `\p{Ll}`, `\p{Lt}`, `\p{Lm}` and `\p{Lo}`, which make up `\p{L}`. -/
structure LetterKinds (u : UnicodeData) where
  upper : ℕ → Bool
  lower : ℕ → Bool
  title : ℕ → Bool
  modifier : ℕ → Bool
  other : ℕ → Bool
  isLetter_eq : ∀ c, isLetter u c = (upper c || lower c || title c || modifier c || other c)

section
variable (u : UnicodeData) (l : LetterKinds u) (fold : ℕ → ℕ)

/-- `[\p{Lu}\p{Lt}\p{Lm}\p{Lo}\p{M}&&[^\p{Han}]]` -/
def upperSide (c : ℕ) : Bool :=
  (l.upper c || l.title c || l.modifier c || l.other c || isMark u c) && !isHan c

/-- `[\p{Ll}\p{Lm}\p{Lo}\p{M}&&[^\p{Han}]]` -/
def lowerSide (c : ℕ) : Bool :=
  (l.lower c || l.modifier c || l.other c || isMark u c) && !isHan c

/-- `[^\r\n\p{L}\p{N}]` -/
def isLeading (c : ℕ) : Bool := !(isNewline c || isLetter u c || isNumber u c)

/-- The two alternatives for words, the second where nothing of lower case is there. -/
def casedWord : Regex ℕ :=
  alt (seq (opt (one (isLeading u))) (seq (star (one (upperSide u l)))
    (seq (plus (one (lowerSide u l))) (opt (contractions fold)))))
  (seq (opt (one (isLeading u))) (seq (plus (one (upperSide u l)))
    (seq (star (one (lowerSide u l))) (opt (contractions fold)))))

/-- ` ?[^\s\p{L}\p{N}]+[\r\n]*|\s*[\r\n]+|\s+(?!\S)|\s+` -/
def kimiTail : Regex ℕ :=
  alt (seq (opt (literal ' ')) (seq (plus (unclassed u)) (star (one isNewline)))) <|
  alt (seq (star (one (isWhitespace u))) (plus (one isNewline))) <|
  alt (spacesKept u) (plus (one (isWhitespace u)))

/-- The pattern, its `(?i:` case-insensitive as `fold` is. -/
def kimiRegex : Regex ℕ :=
  alt (plus (one isHan)) <| alt (casedWord u l fold) <| alt (upToThree u) (kimiTail u)

/-- `unicode_regex_split_custom_kimi_k2`. -/
def splitCustomKimiK2 (text : List UInt8) (offsets : List ℕ) : List ℕ :=
  overSegments (splitSegment (kimiK2Round u)) (cptsFromUtf8 text) offsets

/-! ## Where the two agree -/

/-- `\p{M}` but no Han character. -/
def isKimiMark (c : ℕ) : Bool := isMark u c && !isHan c

/-- `s` without a contraction in front. -/
def contracted (s : List ℕ) : List ℕ := (contraction fold fold s).getD s

/-- The letters of a word are all of upper or title case, or none of these is behind one of lower
case and the last is none of these. -/
def CaseFits (word : List ℕ) : Prop :=
  (∀ c ∈ word, lowerSide u l c = false) ∨ Whole (upperSide u l) (lowerSide u l) word

/-- The word in front of `s` is of one match: its cases fit, no mark follows it, and the contraction
behind it is one to both. -/
def WordFits (s : List ℕ) : Prop :=
  CaseFits u l (s.takeWhile (isKimiLetter u)) ∧
    (s.dropWhile (isKimiLetter u)).head?.any (isKimiMark u) = false ∧
    contracted fold (s.dropWhile (isKimiLetter u)) =
      contracted u.tolower (s.dropWhile (isKimiLetter u))

/-- What may follow marks that are no part of a word: no line break, nothing that is neither
whitespace, letter nor number, and of words only those all of upper or title case. -/
def MarksFit (s : List ℕ) : Prop :=
  s.head?.any (fun c => isOther u isClassed c || isNewline c) = false ∧
    (∀ c ∈ s.takeWhile (isKimiLetter u), lowerSide u l c = false) ∧
    (s.dropWhile (isKimiLetter u)).head?.any (isKimiMark u) = false

/-- What is in front of `s` is one match of the pattern and one token of the splitter. -/
def Fits : List ℕ → Prop
  | [] => True
  | c :: s =>
    if isHan c then True
    else if isKimiLetter u c then WordFits u l fold (c :: s)
    else if isLeading u c then
      if s.head?.any (isKimiLetter u) then
        WordFits u l fold s ∧
          (isMark u c → ∃ d ∈ s.takeWhile (isKimiLetter u), lowerSide u l d = true)
      else if s.head?.any (isKimiMark u) || isMark u c then
        (isWhitespace u c → c = ' '.toNat) ∧ MarksFit u l (s.dropWhile (isKimiMark u))
      else True
    else True

end

/-- What the splitter relies on of the tables besides. -/
structure KimiTables (u : UnicodeData) : Prop extends LikeTables u where
  han : ∀ c, isHan c → ¬ isNumber u c
  quote : ¬ isWhitespace u '\''.toNat ∧ ¬ isLetter u '\''.toNat ∧ ¬ isMark u '\''.toNat

/-- Only letters are folded to `a` to `z`. -/
def FoldsLetters (u : UnicodeData) (fold : ℕ → ℕ) : Prop :=
  ∀ c, 'a'.toNat ≤ fold c → fold c ≤ 'z'.toNat → isLetter u c

/-! ## Contractions -/

section
variable {fold : ℕ → ℕ} {s : List ℕ}

theorem contracted_suffix (fold : ℕ → ℕ) (s : List ℕ) : contracted fold s <:+ s :=
  contraction_getD_suffix s

theorem contracted_of_head (h : s.head? ≠ some '\''.toNat) : contracted fold s = s := by
  have hno : ¬ (getCpt s 0 = '\''.toNat ∧ 1 < s.length) := by
    rintro ⟨hquote, hlen⟩
    cases s with
    | nil => exact absurd hlen (by decide)
    | cons c s => exact h (congrArg some hquote)
  rw [contracted, contraction, if_neg hno]
  rfl

theorem contraction_shape {rest : List ℕ} (h : contraction fold fold s = some rest) :
    ∃ c d w, s = c :: d :: w ∧ 'a'.toNat ≤ fold d ∧ fold d ≤ 'z'.toNat ∧
      rest.length ≤ w.length := by
  simp only [contraction] at h
  split_ifs at h with hquote hone htwo hpair
  all_goals
    obtain rfl := Option.some.inj h
    obtain ⟨c, d, w, rfl⟩ : ∃ c d w, s = c :: d :: w := by
      rcases s with _ | ⟨c, _ | ⟨d, w⟩⟩
      · exact absurd hquote.2 (by simp)
      · exact absurd hquote.2 (by simp)
      · exact ⟨c, d, w, rfl⟩
  · refine ⟨c, d, w, rfl, ?_, ?_, le_rfl⟩
    all_goals
      change fold d = _ ∨ fold d = _ ∨ fold d = _ ∨ fold d = _ at hone
      rcases hone with h | h | h | h <;> rw [h] <;> decide
  · refine ⟨c, d, w, rfl, ?_, ?_, (List.drop_suffix 1 w).length_le⟩
    all_goals
      change (fold d = _ ∧ _) ∨ (fold d = _ ∧ _) ∨ (fold d = _ ∧ _) at hpair
      rcases hpair with ⟨h, -⟩ | ⟨h, -⟩ | ⟨h, -⟩ <;> rw [h] <;> decide

end

/-! ## Letters and marks -/

section
variable {u : UnicodeData} {l : LetterKinds u} {c : ℕ}

theorem sides_of_letter (h : isKimiLetter u c = true) :
    upperSide u l c = true ∨ lowerSide u l c = true := by
  rw [isKimiLetter, Bool.and_eq_true, l.isLetter_eq] at h
  obtain ⟨hletter, hhan⟩ := h
  rw [upperSide, lowerSide, hhan]
  simp only [Bool.or_eq_true, Bool.and_true] at hletter ⊢
  tauto

theorem sides_of_mark (h : isKimiMark u c = true) :
    upperSide u l c = true ∧ lowerSide u l c = true := by
  rw [isKimiMark, Bool.and_eq_true] at h
  simp [upperSide, lowerSide, h.1, h.2]

theorem sides_of_neither (hletter : isKimiLetter u c = false) (hmark : isKimiMark u c = false) :
    upperSide u l c = false ∧ lowerSide u l c = false := by
  rw [isKimiLetter, l.isLetter_eq] at hletter
  rw [isKimiMark] at hmark
  rw [upperSide, lowerSide]
  cases hhan : isHan c with
  | true => simp
  | false =>
    rw [hhan, Bool.not_false, Bool.and_true] at hletter hmark
    simp only [Bool.or_eq_false_iff] at hletter
    obtain ⟨⟨⟨⟨hu, hl⟩, ht⟩, hm⟩, ho⟩ := hletter
    simp [hu, hl, ht, hm, ho, hmark]

theorem sides_outside {s : List ℕ} (hletter : s.head?.any (isKimiLetter u) = false)
    (hmark : s.head?.any (isKimiMark u) = false) :
    ∀ c ∈ s.head?, upperSide u l c = false ∧ lowerSide u l c = false := by
  intro c hc
  rw [Option.mem_def] at hc
  rw [hc, Option.any_some] at hletter hmark
  exact sides_of_neither hletter hmark

theorem letter_ne_quote (hu : KimiTables u) (h : isKimiLetter u c = true) : c ≠ '\''.toNat := by
  rintro rfl
  exact hu.quote.2.1 (Bool.and_eq_true_iff.mp h).1

theorem mark_ne_quote (hu : KimiTables u) (h : isKimiMark u c = true) : c ≠ '\''.toNat := by
  rintro rfl
  exact hu.quote.2.2 (Bool.and_eq_true_iff.mp h).1

theorem leading_kinds (h : isLeading u c = true) :
    isNewline c = false ∧ isLetter u c = false ∧ isNumber u c = false := by
  rw [isLeading, Bool.not_eq_true', Bool.or_eq_false_iff, Bool.or_eq_false_iff] at h
  exact ⟨h.1.1, h.1.2, h.2⟩

theorem head_ne_quote (hu : KimiTables u) {s : List ℕ} (h : s.head?.any (isKimiLetter u) = true) :
    s.head? ≠ some '\''.toNat := by
  obtain ⟨c, t, rfl, hc⟩ := exists_cons_of_any h
  exact fun hquote => letter_ne_quote hu hc (Option.some.inj hquote)

end

/-! ## Words -/

section
variable {u : UnicodeData} {l : LetterKinds u} {fold : ℕ → ℕ}

/-- What the second alternative leaves. -/
def upperRest (u : UnicodeData) (l : LetterKinds u) (fold : ℕ → ℕ) (s : List ℕ) :
    Option (List ℕ) :=
  if s.head?.any (upperSide u l) then
    some (contracted fold ((s.dropWhile (upperSide u l)).dropWhile (lowerSide u l)))
  else none

theorem casedWord_matchAt (c : ℕ) (s : List ℕ) : (casedWord u l fold).matchAt (c :: s) =
    let first := fun t => (overlap (upperSide u l) (lowerSide u l) t).map (contracted fold)
    if isLeading u c then
      ((first s).or (first (c :: s))).or ((upperRest u l fold s).or (upperRest u l fold (c :: s)))
    else (first (c :: s)).or (upperRest u l fold (c :: s)) := by
  have hfold : (fun e => ((contractions fold).matchAt e).getD e) = contracted fold := by
    funext e
    rw [contractions_matchAt, contracted]
  have hfirst : ∀ t, (seq (star (one (upperSide u l)))
      (seq (plus (one (lowerSide u l))) (opt (contractions fold)))).matchAt t =
        (overlap (upperSide u l) (lowerSide u l) t).map (contracted fold) := by
    intro t
    rw [matchAt_overlap, hfold]
  have hsecond : ∀ t, (seq (plus (one (upperSide u l)))
      (seq (star (one (lowerSide u l))) (opt (contractions fold)))).matchAt t =
        upperRest u l fold t := by
    intro t
    rw [matchAt_plus_star_opt, contractions_matchAt]
    rfl
  rw [casedWord, matchAt_alt, matchAt_opt_seq, matchAt_opt_seq, hfirst, hfirst, hsecond, hsecond]
  dsimp only
  split_ifs <;> rfl

theorem dropWhile_outside {p q : ℕ → Bool} {s : List ℕ}
    (h : ∀ c ∈ s.head?, p c = false ∧ q c = false) : (s.dropWhile p).dropWhile q = s := by
  rw [(overlap_of_outside fun c hc => (h c hc).symm).2, (overlap_of_outside h).2]

theorem upperRest_whole {x after : List ℕ} (hne : x ≠ [])
    (hx : ∀ d ∈ x, upperSide u l d = true)
    (hafter : ∀ c ∈ after.head?, upperSide u l c = false ∧ lowerSide u l c = false) :
    upperRest u l fold (x ++ after) = some (contracted fold after) := by
  obtain ⟨c, x, rfl⟩ := List.exists_cons_of_ne_nil hne
  rw [upperRest, dropWhile_append_of_all hx, dropWhile_outside hafter]
  exact if_pos (hx c List.mem_cons_self)

theorem contracted_inside (hu : KimiTables u) {x after e : List ℕ}
    (hx : ∀ d ∈ x, isKimiLetter u d = true) (he : e <:+ x ++ after)
    (hlt : after.length < e.length) : contracted fold e = e := by
  obtain ⟨t, ht⟩ := he
  rcases List.append_eq_append_iff.mp ht with ⟨y, rfl, rfl⟩ | ⟨y, -, rfl⟩
  · refine contracted_of_head fun hquote => ?_
    cases y with
    | nil => exact lt_irrefl _ hlt
    | cons d y =>
      exact letter_ne_quote hu (hx d (List.mem_append_right t List.mem_cons_self))
        (Option.some.inj hquote)
  · rw [List.length_append] at hlt
    omega

/-- The two ways a word in front of `s` is matched: the second alternative takes it whole, or the
first takes something of it. -/
theorem letters_matchAt (l : LetterKinds u) (fold : ℕ → ℕ) (hu : KimiTables u) {s : List ℕ}
    (hs : s.head?.any (isKimiLetter u) = true) :
    (overlap (upperSide u l) (lowerSide u l) s = none ∧
      (∀ d ∈ s.takeWhile (isKimiLetter u), lowerSide u l d = false) ∧
      (s.dropWhile (isKimiLetter u)).head?.any (isKimiMark u) = false ∧
      upperRest u l fold s = some (contracted fold (s.dropWhile (isKimiLetter u)))) ∨
    ∃ e, overlap (upperSide u l) (lowerSide u l) s = some e ∧
      ¬ ((∀ d ∈ s.takeWhile (isKimiLetter u), lowerSide u l d = false) ∧
        (s.dropWhile (isKimiLetter u)).head?.any (isKimiMark u) = false) ∧
      (WordFits u l fold s ↔
        contracted fold e = contracted u.tolower (s.dropWhile (isKimiLetter u))) := by
  have hsplit : s.takeWhile (isKimiLetter u) ++ s.dropWhile (isKimiLetter u) = s :=
    List.takeWhile_append_dropWhile
  have hletters : ∀ d ∈ s.takeWhile (isKimiLetter u), isKimiLetter u d = true :=
    fun d hd => List.mem_takeWhile_imp hd
  have hout := head?_dropWhile (isKimiLetter u) s
  have hne := (takeWhile_dropWhile_of_any hs).1
  rw [WordFits]
  generalize s.takeWhile (isKimiLetter u) = x at *
  generalize s.dropWhile (isKimiLetter u) = after at *
  obtain rfl := hsplit
  have hsides : ∀ d ∈ x, upperSide u l d = true ∨ lowerSide u l d = true :=
    fun d hd => sides_of_letter (hletters d hd)
  have hlonger : ∀ e, e <:+ x ++ after → after.length < e.length →
      contracted fold e ≠ contracted u.tolower after := by
    intro e he hlt heq
    rw [contracted_inside hu hletters he hlt] at heq
    have := (contracted_suffix u.tolower after).length_le
    rw [← heq] at this
    omega
  cases hmark : after.head?.any (isKimiMark u) with
  | true =>
    right
    obtain ⟨m, rest, rfl, -⟩ := exists_cons_of_any hmark
    obtain ⟨e, he, hne⟩ := overlap_ne hsides (sides_of_mark (l := l) hmark).2 rest
    refine ⟨e, he, fun h => Bool.noConfusion h.2, fun h => Bool.noConfusion h.2.1, fun heq => ?_⟩
    have hsuffix := (overlap_suffix he).1
    by_cases hlt : (m :: rest).length < e.length
    · exact absurd heq (hlonger e hsuffix hlt)
    · rw [contracted_of_head (s := m :: rest)
        fun hquote => mark_ne_quote hu hmark (Option.some.inj hquote)] at heq
      have hlen := (contracted_suffix fold e).length_le
      rw [heq] at hlen
      have hlen' : e.length = (m :: rest).length := by omega
      exact absurd ((List.suffix_of_suffix_length_le hsuffix (List.suffix_append _ _)
        hlen'.le).eq_of_length hlen') hne
  | false =>
    have hafter := sides_outside (l := l) hout hmark
    by_cases hno : ∀ d ∈ x, lowerSide u l d = false
    · left
      refine ⟨overlap_eq_none hsides hafter hno, hno, rfl, ?_⟩
      exact upperRest_whole hne
        (fun d hd => (hsides d hd).resolve_right (by rw [hno d hd]; exact Bool.false_ne_true)) hafter
    · right
      have hsome : ∃ d ∈ x, lowerSide u l d = true := by
        push Not at hno
        simpa using hno
      obtain ⟨e, he, ⟨hwhole, rfl⟩ | ⟨hnot, hlt⟩⟩ := overlap_run hsides hafter hsome
      · refine ⟨e, he, fun h => hno h.1, fun h => h.2.2, fun h => ⟨.inr hwhole, rfl, h⟩⟩
      · refine ⟨e, he, fun h => hno h.1, fun h => ?_, fun heq => ?_⟩
        · exact absurd h.1 (not_or.mpr ⟨hno, hnot⟩)
        · exact absurd heq (hlonger e (overlap_suffix he).1 hlt)

theorem word_matchAt (l : LetterKinds u) (fold : ℕ → ℕ) (hu : KimiTables u) {c : ℕ} {s : List ℕ}
    (hc : isKimiLetter u c = true) :
    ∃ r, (casedWord u l fold).matchAt (c :: s) = some r ∧ r <:+ c :: s ∧
      r.length < (c :: s).length ∧ (WordFits u l fold (c :: s) ↔
        r = contracted u.tolower ((c :: s).dropWhile (isKimiLetter u))) := by
  have hleading : isLeading u c = false := by
    rw [isLeading, (Bool.and_eq_true_iff.mp hc).1, Bool.or_true, Bool.true_or, Bool.not_true]
  have hdrop : (c :: s).dropWhile (isKimiLetter u) <:+ s := by
    rw [List.dropWhile_cons, if_pos hc]
    exact List.dropWhile_suffix _
  have hrest : ∀ e, e <:+ s → contracted fold e <:+ c :: s ∧
      (contracted fold e).length < (c :: s).length := fun e he =>
    ⟨((contracted_suffix _ e).trans he).trans (List.suffix_cons c s),
      Nat.lt_succ_of_le ((contracted_suffix _ e).trans he).length_le⟩
  rw [casedWord_matchAt, hleading]
  simp only [Bool.false_eq_true, if_false]
  rcases letters_matchAt l fold hu (s := c :: s) hc with
    ⟨hnone, hno, hmark, hupper⟩ | ⟨e, he, -, hfits⟩
  · obtain ⟨hsuffix, hlt⟩ := hrest _ hdrop
    refine ⟨_, by rw [hnone, hupper]; rfl, hsuffix, hlt, fun h => h.2.2, fun h => ?_⟩
    exact ⟨.inl hno, hmark, h⟩
  · obtain ⟨hsuffix, hlt⟩ := overlap_suffix he
    refine ⟨contracted fold e, by rw [he]; rfl, (contracted_suffix _ e).trans hsuffix, ?_, hfits⟩
    exact (contracted_suffix _ e).length_le.trans_lt hlt

theorem leadingWord_matchAt (l : LetterKinds u) (fold : ℕ → ℕ) (hu : KimiTables u) {c : ℕ}
    {s : List ℕ}
    (hhan : isHan c = false) (hc : isLeading u c = true)
    (hs : s.head?.any (isKimiLetter u) = true) :
    ∃ r, (casedWord u l fold).matchAt (c :: s) = some r ∧ r <:+ c :: s ∧
      r.length < (c :: s).length ∧
      (WordFits u l fold s ∧
        (isMark u c → ∃ d ∈ s.takeWhile (isKimiLetter u), lowerSide u l d = true) ↔
        r = contracted u.tolower (s.dropWhile (isKimiLetter u))) := by
  have hrest : ∀ e, e <:+ s → contracted fold e <:+ c :: s ∧
      (contracted fold e).length < (c :: s).length := fun e he =>
    ⟨((contracted_suffix _ e).trans he).trans (List.suffix_cons c s),
      Nat.lt_succ_of_le ((contracted_suffix _ e).trans he).length_le⟩
  rw [casedWord_matchAt, hc]
  simp only [if_true]
  rcases letters_matchAt l fold hu hs with
    ⟨hnone, hno, hmark, hupper⟩ | ⟨e, he, hsome, hfits⟩
  · rw [hnone, hupper, overlap]
    have hnolower : ¬ ∃ d ∈ s.takeWhile (isKimiLetter u), lowerSide u l d = true := by
      rintro ⟨d, hd, hlower⟩
      exact Bool.noConfusion ((hno d hd).symm.trans hlower)
    cases hcmark : isMark u c with
    | true =>
      -- the first alternative takes the mark alone
      have hkimi : isKimiMark u c = true := by rw [isKimiMark, hcmark, hhan]; rfl
      obtain ⟨hup, hlow⟩ := sides_of_mark (l := l) hkimi
      have hword : contracted fold s = s := contracted_of_head (head_ne_quote hu hs)
      refine ⟨s, ?_, List.suffix_cons c s, Nat.lt_succ_self _, fun h => absurd (h.2 rfl) hnolower,
        fun heq => ?_⟩
      · rw [hup, hlow, hnone, if_pos rfl, if_pos rfl]
        exact congrArg some hword
      · have hlen := (contracted_suffix u.tolower (s.dropWhile (isKimiLetter u))).length_le
        rw [← heq] at hlen
        exact absurd hlen (takeWhile_dropWhile_of_any hs).2.not_ge
    | false =>
      have hkimi : isKimiMark u c = false := by rw [isKimiMark, hcmark]; rfl
      have hletter : isKimiLetter u c = false := by
        rw [isKimiLetter, (leading_kinds hc).2.1, Bool.false_and]
      obtain ⟨hup, hlow⟩ := sides_of_neither (l := l) hletter hkimi
      obtain ⟨hsuffix, hlt⟩ := hrest _ (List.dropWhile_suffix (isKimiLetter u))
      refine ⟨_, ?_, hsuffix, hlt, fun h => h.1.2.2, fun h => ⟨⟨.inl hno, hmark, h⟩, ?_⟩⟩
      · rw [hup, hlow]
        rfl
      · exact fun hm => Bool.noConfusion hm
  · obtain ⟨hsuffix, hlt⟩ := hrest e (overlap_suffix he).1
    refine ⟨contracted fold e, by rw [he]; rfl, hsuffix, hlt, fun h => hfits.mp h.1, fun h => ?_⟩
    have hword := hfits.mpr h
    refine ⟨hword, fun _ => ?_⟩
    by_contra hnolower
    refine hsome ⟨fun d hd => ?_, hword.2.1⟩
    exact Bool.eq_false_iff.mpr fun hlower => hnolower ⟨d, hd, hlower⟩

end

/-! ## Marks and what is in no class -/

section
variable {u : UnicodeData} {l : LetterKinds u} {fold : ℕ → ℕ}

theorem isOther_eq (hu : KimiTables u) (c : ℕ) :
    isOther u isClassed c = !(isWhitespace u c || isLetter u c || isNumber u c) :=
  congrFun (hu.isOther_eq isClassed) c

theorem isOther_of_mark (hu : KimiTables u) {c : ℕ} (h : isMark u c = true) :
    isOther u isClassed c = true := by
  have hspace : isWhitespace u c = false :=
    Bool.eq_false_iff.mpr fun hs => (hu.whitespace c hs).2.1 h
  have hletter : isLetter u c = false := Bool.eq_false_iff.mpr fun hl => (hu.letter c hl).1 h
  have hnumber : isNumber u c = false := Bool.eq_false_iff.mpr (hu.mark c h)
  rw [isOther_eq hu, hspace, hletter, hnumber]
  rfl

theorem letter_of_stop (hu : KimiTables u) {c : ℕ}
    (h : (isOther u isClassed c || isNewline c) = true) : isLetter u c = false := by
  rw [Bool.or_eq_true, isOther_eq hu] at h
  rcases h with h | h
  · rw [Bool.not_eq_true', Bool.or_eq_false_iff, Bool.or_eq_false_iff] at h
    exact h.1.2
  · exact Bool.eq_false_iff.mpr (hu.whitespace c (hu.newline c h)).1

/-- What the splitter leaves behind code points in no class and line breaks. -/
def otherRest (u : UnicodeData) (s : List ℕ) : List ℕ :=
  (s.dropWhile (isOther u isClassed)).dropWhile isNewline

theorem otherRest_suffix (s : List ℕ) : otherRest u s <:+ s :=
  (List.dropWhile_suffix _).trans (List.dropWhile_suffix _)

theorem otherRest_self {s : List ℕ}
    (h : s.head?.any (fun c => isOther u isClassed c || isNewline c) = false) :
    otherRest u s = s := by
  refine dropWhile_outside fun c hc => ?_
  rw [Option.mem_def] at hc
  rw [hc, Option.any_some, Bool.or_eq_false_iff] at h
  exact h

theorem otherRest_cons {c : ℕ} {s : List ℕ} (h : (isOther u isClassed c || isNewline c) = true) :
    otherRest u (c :: s) <:+ s := by
  rw [otherRest, List.dropWhile_cons]
  split_ifs with hother
  · exact otherRest_suffix s
  · rw [List.dropWhile_cons, if_pos ((Bool.or_eq_true_iff.mp h).resolve_left hother)]
    exact List.dropWhile_suffix _

theorem otherRest_cons_self {c : ℕ} {s : List ℕ}
    (h : (isOther u isClassed c || isNewline c) = true)
    (hs : s.head?.any (fun c => isOther u isClassed c || isNewline c) = false) :
    otherRest u (c :: s) = s := by
  have hself := otherRest_self hs
  rw [otherRest, List.dropWhile_cons]
  split_ifs with hother
  · exact hself
  · rw [List.dropWhile_cons, if_pos ((Bool.or_eq_true_iff.mp h).resolve_left hother)]
    refine (overlap_of_outside (p := isNewline) fun d hd => ?_).2
    rw [Option.mem_def] at hd
    rw [hd, Option.any_some, Bool.or_eq_false_iff] at hs
    exact ⟨hs.2, hs.2⟩

theorem quote_isOther (hu : KimiTables u) : isOther u isClassed '\''.toNat = true := by
  obtain ⟨hspace, hletter, -⟩ := hu.quote
  rw [isOther_eq hu, Bool.eq_false_iff.mpr hspace, Bool.eq_false_iff.mpr hletter,
    Bool.eq_false_iff.mpr hu.apostrophe]
  rfl

theorem contracted_ne_otherRest (hu : KimiTables u) (hfold : FoldsLetters u fold) {c : ℕ}
    {s : List ℕ} (h : (isOther u isClassed c || isNewline c) = true) :
    contracted fold (c :: s) ≠ otherRest u (c :: s) := by
  intro heq
  have hlen := congrArg List.length heq
  rw [contracted] at hlen
  cases hcon : contraction fold fold (c :: s) with
  | none =>
    have := (otherRest_cons (s := s) h).length_le
    rw [hcon, Option.getD_none, List.length_cons] at hlen
    omega
  | some r =>
    -- the letter of the contraction stops the splitter
    obtain ⟨c', d, w, hcons, hlow, hhigh, hr⟩ := contraction_shape hcon
    obtain ⟨rfl, rfl⟩ := List.cons.inj hcons
    have hd := hfold d hlow hhigh
    have hstop : (d :: w).head?.any (fun c => isOther u isClassed c || isNewline c) = false :=
      Bool.eq_false_iff.mpr fun h => Bool.noConfusion ((letter_of_stop hu h).symm.trans hd)
    rw [hcon, Option.getD_some, otherRest_cons_self h hstop, List.length_cons] at hlen
    omega

theorem marksFit_iff (hu : KimiTables u) (hfold : FoldsLetters u fold) {s : List ℕ}
    (hmark : s.head?.any (isKimiMark u) = false) : MarksFit u l s ↔
      contracted fold ((overlap (upperSide u l) (lowerSide u l) s).getD s) = otherRest u s := by
  cases hletter : s.head?.any (isKimiLetter u) with
  | true =>
    have hstop : s.head?.any (fun c => isOther u isClassed c || isNewline c) = false := by
      obtain ⟨c, s, rfl, hc⟩ := exists_cons_of_any hletter
      exact Bool.eq_false_iff.mpr fun h =>
        Bool.noConfusion ((letter_of_stop hu h).symm.trans (Bool.and_eq_true_iff.mp hc).1)
    rw [otherRest_self hstop]
    rcases letters_matchAt l fold hu hletter with
      ⟨hnone, hno, hafter, -⟩ | ⟨e, he, hsome, -⟩
    · rw [hnone, Option.getD_none]
      exact ⟨fun _ => contracted_of_head (head_ne_quote hu hletter),
        fun _ => ⟨hstop, hno, hafter⟩⟩
    · rw [he, Option.getD_some]
      refine ⟨fun h => absurd h.2 hsome, fun heq => ?_⟩
      have hlen := (contracted_suffix fold e).length_le
      have hlt := (overlap_suffix he).2
      rw [heq] at hlen
      omega
  | false =>
    rw [(overlap_of_outside (sides_outside (l := l) hletter hmark)).1, Option.getD_none]
    cases hstop : s.head?.any fun c => isOther u isClassed c || isNewline c with
    | true =>
      obtain ⟨c, s, rfl, -⟩ := exists_cons_of_any hstop
      exact ⟨fun h => Bool.noConfusion (hstop.symm.trans h.1),
        fun heq => absurd heq (contracted_ne_otherRest hu hfold hstop)⟩
    | false =>
      have htake : s.takeWhile (isKimiLetter u) = [] := by
        cases s with
        | nil => rfl
        | cons c s =>
          rw [List.takeWhile_cons, if_neg]
          exact Bool.eq_false_iff.mp hletter
      have hdrop : s.dropWhile (isKimiLetter u) = s := by
        have happend := List.takeWhile_append_dropWhile (p := isKimiLetter u) (l := s)
        rwa [htake, List.nil_append] at happend
      rw [otherRest_self hstop]
      refine ⟨fun _ => contracted_of_head fun h => ?_, fun _ => ⟨hstop, ?_, ?_⟩⟩
      · rw [h, Option.any_some, quote_isOther hu] at hstop
        cases hstop
      · rw [htake]
        exact fun d hd => absurd hd List.not_mem_nil
      · rw [hdrop]
        exact hmark

end

/-! ## The rounds -/

section
variable {u : UnicodeData} {c : ℕ} {s : List ℕ}

theorem dropWhile_twice (p : ℕ → Bool) (s : List ℕ) :
    (s.dropWhile p).dropWhile p = s.dropWhile p := by
  induction s with
  | nil => rfl
  | cons c s ih =>
    rw [List.dropWhile_cons]
    split_ifs with hc
    · exact ih
    · rw [List.dropWhile_cons, if_neg hc]

theorem kimiWord_letter (hhan : isHan c = false) (hc : isKimiLetter u c = true) :
    kimiWord u (c :: s) = some (contracted u.tolower ((c :: s).dropWhile (isKimiLetter u))) := by
  have hletter : (getFlags u (c :: s) 0).isLetter = true := (Bool.and_eq_true_iff.mp hc).1
  have hcpt : getCpt (c :: s) 0 = c := rfl
  have hany : (c :: s).head?.any (isKimiLetter u) = true := hc
  have hlt := (takeWhile_dropWhile_of_any hany).2
  simp only [kimiWord, hletter, hcpt, hhan, Bool.or_true, Bool.true_or, Bool.not_true,
    Bool.not_false, Bool.and_true, Bool.false_and, Bool.or_false, Bool.false_eq_true, if_false,
    if_true, hlt, decide_true]
  rw [dropWhile_twice]
  rfl

theorem kimiWord_leading (hc : isKimiLetter u c = false) (hhan : isHan c = false) :
    kimiWord u (c :: s) = if isLeading u c && s.head?.any (isKimiLetter u) then
      some (contracted u.tolower (s.dropWhile (isKimiLetter u))) else none := by
  have hletter : (getFlags u (c :: s) 0).isLetter = false := by
    rw [isKimiLetter, hhan, Bool.not_false, Bool.and_true] at hc
    exact hc
  have hcpt : getCpt (c :: s) 0 = c := rfl
  have hleading : (!(isNewline c || false || (getFlags u (c :: s) 0).isNumber)) = isLeading u c := by
    rw [isLeading, ← hletter]
    rfl
  have hnext : ((getFlags u (c :: s) 1).isLetter && !isHan (getCpt (c :: s) 1)) =
      s.head?.any (isKimiLetter u) := by
    cases s <;> rfl
  simp only [kimiWord, hletter, hcpt, hleading, Bool.false_and, Bool.false_or, Bool.and_assoc, hnext]
  cases hlead : isLeading u c with
  | false => rfl
  | true =>
    cases hs : s.head?.any (isKimiLetter u) with
    | false => rfl
    | true =>
      have hlt := (takeWhile_dropWhile_of_any hs).2
      simp only [Bool.and_self, if_true, List.drop_succ_cons, List.drop_zero, hlt, decide_true,
        Bool.true_or]
      rw [dropWhile_twice]
      rfl

theorem kimiK2Round_han (hhan : isHan c = true) :
    kimiK2Round u (c :: s) = token (c :: s) ((c :: s).dropWhile isHan) := if_pos hhan

theorem kimiK2Round_word (hhan : isHan c = false) {rest : List ℕ}
    (h : kimiWord u (c :: s) = some rest) : kimiK2Round u (c :: s) = token (c :: s) rest := by
  rw [kimiK2Round, if_neg (by rw [show getCpt (c :: s) 0 = c from rfl, hhan]; decide), h]

theorem kimiK2Round_number (hhan : isHan c = false) (h : kimiWord u (c :: s) = none)
    (hc : isNumber u c = true) : kimiK2Round u (c :: s) = threeNumbers u (c :: s) := by
  rw [kimiK2Round, if_neg (by rw [show getCpt (c :: s) 0 = c from rfl, hhan]; decide), h]
  exact if_pos hc

/-- The condition for code points that are in no class, behind an optional space. -/
def otherAt (u : UnicodeData) (c : ℕ) (s : List ℕ) : Bool :=
  if c = ' '.toNat then s.head?.any (isOther u isClassed) else isOther u isClassed c

theorem kimiK2Round_other (hhan : isHan c = false) (h : kimiWord u (c :: s) = none)
    (hc : isNumber u c = false) : kimiK2Round u (c :: s) =
      if otherAt u c s then token (c :: s) (otherRest u s) else lineSpaces u (c :: s) := by
  have hflags : (getFlags u (c :: s) 0).isNumber = false := hc
  have hcpt : getCpt (c :: s) 0 = c := rfl
  have hother : (!isClassed (if c = ' '.toNat then getFlags u (c :: s) 1
      else getFlags u (c :: s) 0) && (if c = ' '.toNat then getFlags u (c :: s) 1
      else getFlags u (c :: s) 0).asUint != 0) = otherAt u c s :=
    flags2_eq (fun f => !isClassed f && f.asUint != 0) rfl c s
  rw [kimiK2Round, if_neg (by rw [hcpt, hhan]; decide), h]
  dsimp only
  rw [hflags, hcpt, hother, if_neg Bool.false_ne_true]
  by_cases hat : otherAt u c s = true
  · rw [if_pos hat, if_pos hat, run_eq hat]
    rfl
  · rw [if_neg hat, if_neg hat]

theorem kimiTail_matchAt (hu : KimiTables u) (hletter : isLetter u c = false)
    (hnum : isNumber u c = false) (hrange : ∀ d ∈ c :: s, d ≠ outOfRange) : ∃ rest,
      (if otherAt u c s then token (c :: s) (otherRest u s) else lineSpaces u (c :: s)) =
        token (c :: s) rest ∧ (kimiTail u).matchAt (c :: s) = some rest := by
  have hfollows : Follows u ⟨u.tolower, isLetter u, threeNumbers u, isClassed⟩ u.tolower
      (one (isLetter u)) (upToThree u) (unclassed u) :=
    follows_letters hu.toLikeTables upToThree_number_matchAt
  have hfirst := hfollows.other_matchAt hu.toLikeTables c s
  rw [kimiTail, matchAt_alt, matchAt_alt, matchAt_alt, hfirst]
  by_cases hat : otherAt u c s = true
  · exact ⟨otherRest u s, if_pos hat, by rw [otherAt] at hat; rw [if_pos hat]; rfl⟩
  · have hspace : isWhitespace u c = true := by
      rw [otherAt] at hat
      by_cases hc : c = ' '.toNat
      · exact hc ▸ hu.space
      · rw [if_neg hc, isOther_eq hu, hletter, hnum] at hat
        simpa using hat
    obtain ⟨rest, hrest, hmatch⟩ := lineSpaces_matchAt hu.newline hspace hrange
    refine ⟨rest, by rw [if_neg hat]; exact hrest, ?_⟩
    rw [otherAt] at hat
    rw [if_neg hat, Option.none_or]
    exact hmatch

end

section
variable {u : UnicodeData} {l : LetterKinds u} {fold : ℕ → ℕ} {c : ℕ} {s : List ℕ}

theorem mark_of_not_han (hhan : isHan c = false) : isKimiMark u c = isMark u c := by
  rw [isKimiMark, hhan, Bool.not_false, Bool.and_true]

theorem marks_matchAt (l : LetterKinds u) (fold : ℕ → ℕ) (hhan : isHan c = false)
    (hc : isLeading u c = true)
    (hs : s.head?.any (isKimiLetter u) = false)
    (hmark : (s.head?.any (isKimiMark u) || isMark u c) = true) :
    ∃ e, e = (overlap (upperSide u l) (lowerSide u l) (s.dropWhile (isKimiMark u))).getD
        (s.dropWhile (isKimiMark u)) ∧ e <:+ s.dropWhile (isKimiMark u) ∧
      (casedWord u l fold).matchAt (c :: s) = some (contracted fold e) := by
  refine ⟨_, rfl, ?_, ?_⟩
  · cases h : overlap (upperSide u l) (lowerSide u l) (s.dropWhile (isKimiMark u)) with
    | none => exact List.suffix_rfl
    | some e => exact (overlap_suffix h).1
  · rw [casedWord_matchAt, hc, if_pos rfl]
    dsimp only
    cases hnext : s.head?.any (isKimiMark u) with
    | true =>
      have hsplit := List.takeWhile_append_dropWhile (p := isKimiMark u) (l := s)
      have hboth := overlap_both (takeWhile_dropWhile_of_any hnext).1
        (fun d hd => sides_of_mark (l := l) (List.mem_takeWhile_imp hd))
        (s.dropWhile (isKimiMark u))
      rw [hsplit] at hboth
      rw [hboth]
      rfl
    | false =>
      rw [hnext, Bool.false_or] at hmark
      obtain ⟨hup, hlow⟩ := sides_of_mark (l := l) ((mark_of_not_han hhan).trans hmark)
      have hnone := (overlap_of_outside (sides_outside (l := l) hs hnext)).1
      have hdrop := (overlap_of_outside (p := isKimiMark u) (q := isKimiMark u) fun d hd => by
        rw [Option.mem_def] at hd
        rw [hd, Option.any_some] at hnext
        exact ⟨hnext, hnext⟩).2
      rw [hdrop, hnone, overlap, hup, hlow, hnone]
      rfl

theorem noWord_matchAt (hletter : isKimiLetter u c = false) (hmark : isKimiMark u c = false)
    (hs : isLeading u c = true → s.head?.any (isKimiLetter u) = false ∧
      s.head?.any (isKimiMark u) = false) : (casedWord u l fold).matchAt (c :: s) = none := by
  obtain ⟨hup, hlow⟩ := sides_of_neither (l := l) hletter hmark
  have hfirst : overlap (upperSide u l) (lowerSide u l) (c :: s) = none := by
    rw [overlap, hup, hlow]
    rfl
  have hsecond : upperRest u l fold (c :: s) = none := by
    rw [upperRest, List.head?_cons, Option.any_some, hup]
    rfl
  rw [casedWord_matchAt]
  dsimp only
  rw [hfirst, hsecond]
  cases hc : isLeading u c with
  | false => rfl
  | true =>
    obtain ⟨hl, hm⟩ := hs hc
    have hout := sides_outside (l := l) hl hm
    have hupper : upperRest u l fold s = none := by
      rw [upperRest, if_neg]
      cases s with
      | nil => exact Bool.false_ne_true
      | cons d s => exact Bool.eq_false_iff.mp (hout d rfl).1
    rw [(overlap_of_outside hout).1, hupper]
    rfl

theorem kimiRegex_han (hhan : isHan c = true) :
    (kimiRegex u l fold).matchAt (c :: s) = some (s.dropWhile isHan) := by
  rw [kimiRegex, matchAt_alt, matchAt_plus (oneOf_one isHan), List.head?_cons, Option.any_some,
    if_pos hhan, List.dropWhile_cons, if_pos hhan, Option.some_or]

theorem kimiRegex_matchAt (hhan : isHan c = false) : (kimiRegex u l fold).matchAt (c :: s) =
    ((casedWord u l fold).matchAt (c :: s)).or
      (((upToThree u).matchAt (c :: s)).or ((kimiTail u).matchAt (c :: s))) := by
  rw [kimiRegex, matchAt_alt, matchAt_plus (oneOf_one isHan), List.head?_cons, Option.any_some,
    hhan, if_neg Bool.false_ne_true, Option.none_or, matchAt_alt, matchAt_alt]

theorem lineSpaces_mark (hu : KimiTables u) (hspace : isWhitespace u c = true)
    (hnl : isNewline c = false) (hmark : s.head?.any (isKimiMark u) = true) :
    lineSpaces u (c :: s) = token (c :: s) s := by
  have hcount : countWhitespaces u 0 0 (c :: s) = (1, 0) := by
    cases s with
    | nil => cases hmark
    | cons d s =>
      have hd : isMark u d = true := (Bool.and_eq_true_iff.mp hmark).1
      have hnot : isWhitespace u d = false :=
        Bool.eq_false_iff.mpr fun h => (hu.whitespace d h).2.1 hd
      rw [countWhitespaces, if_pos hspace, hnl, if_neg Bool.false_ne_true, countWhitespaces, hnot]
      rfl
  simp only [lineSpaces]
  rw [hcount]
  rfl

/-- A round and a match at the same place, and when they end at the same place. -/
def Compared (u : UnicodeData) (l : LetterKinds u) (fold : ℕ → ℕ) (s : List ℕ) : Prop :=
  ∃ rest r, kimiK2Round u s = token s rest ∧ (kimiRegex u l fold).matchAt s = some r ∧
    r <:+ s ∧ r.length < s.length ∧ (Fits u l fold s ↔ r = rest)

theorem compared_word (hhan : isHan c = false) {rest r : List ℕ} {P : Prop}
    (hcode : kimiWord u (c :: s) = some rest)
    (hmatch : (casedWord u l fold).matchAt (c :: s) = some r) (hsuffix : r <:+ c :: s)
    (hlt : r.length < (c :: s).length) (hP : P ↔ r = rest) (hfits : Fits u l fold (c :: s) ↔ P) :
    Compared u l fold (c :: s) := by
  refine ⟨rest, r, kimiK2Round_word hhan hcode, ?_, hsuffix, hlt, hfits.trans hP⟩
  rw [kimiRegex_matchAt hhan, hmatch, Option.some_or]

theorem compared_tail (hu : KimiTables u) (hrange : ∀ d ∈ c :: s, d ≠ outOfRange)
    (hhan : isHan c = false) (hcode : kimiWord u (c :: s) = none) (hletter : isLetter u c = false)
    (hnum : isNumber u c = false) (hmatch : (casedWord u l fold).matchAt (c :: s) = none)
    (hfits : Fits u l fold (c :: s)) : Compared u l fold (c :: s) := by
  obtain ⟨rest, hround, htail⟩ := kimiTail_matchAt hu hletter hnum hrange
  rw [← kimiK2Round_other hhan hcode hnum] at hround
  have hcovers := kimiK2Round_covers (u := u) c s
  rw [hround] at hcovers
  refine ⟨rest, rest, hround, ?_, hcovers.suffix, hcovers.lt, iff_of_true hfits rfl⟩
  rw [kimiRegex_matchAt hhan, hmatch, upToThree_number_matchAt c s (by rw [hnum]; decide), htail]
  rfl

theorem compared_marks (hu : KimiTables u) (hfold : FoldsLetters u fold) (hhan : isHan c = false)
    (hc : isLeading u c = true) (hcode : kimiWord u (c :: s) = none)
    (hs : s.head?.any (isKimiLetter u) = false)
    (hmark : (s.head?.any (isKimiMark u) || isMark u c) = true)
    (hfits : Fits u l fold (c :: s) ↔ (isWhitespace u c → c = ' '.toNat) ∧
      MarksFit u l (s.dropWhile (isKimiMark u))) : Compared u l fold (c :: s) := by
  obtain ⟨hnl, hletter, hnum⟩ := leading_kinds hc
  obtain ⟨e, he, hsuffix, hmatch⟩ := marks_matchAt l fold hhan hc hs hmark
  have hround := kimiK2Round_other hhan hcode hnum
  have hrest : contracted fold e <:+ s.dropWhile (isKimiMark u) :=
    (contracted_suffix _ e).trans hsuffix
  have hregex : (kimiRegex u l fold).matchAt (c :: s) = some (contracted fold e) := by
    rw [kimiRegex_matchAt hhan, hmatch, Option.some_or]
  have htail : contracted fold e <:+ c :: s ∧ (contracted fold e).length < (c :: s).length := by
    have hsub := hrest.trans (List.dropWhile_suffix _)
    exact ⟨hsub.trans (List.suffix_cons c s), Nat.lt_succ_of_le hsub.length_le⟩
  by_cases hat : otherAt u c s = true
  · rw [if_pos hat] at hround
    refine ⟨otherRest u s, contracted fold e, hround, hregex, htail.1, htail.2, ?_⟩
    have hspace : isWhitespace u c → c = ' '.toNat := by
      intro hspace
      by_contra hne
      rw [otherAt, if_neg hne, isOther_eq hu, hspace] at hat
      exact Bool.false_ne_true hat
    have hmarks : otherRest u s = otherRest u (s.dropWhile (isKimiMark u)) := by
      have hsplit := List.takeWhile_append_dropWhile (p := isKimiMark u) (l := s)
      have hall : ∀ d ∈ s.takeWhile (isKimiMark u), isOther u isClassed d = true := by
        intro d hd
        have hkimi : isKimiMark u d = true := List.mem_takeWhile_imp hd
        exact isOther_of_mark hu (Bool.and_eq_true_iff.mp hkimi).1
      conv_lhs => rw [← hsplit, otherRest, dropWhile_append_of_all hall]
      rfl
    rw [hfits, marksFit_iff hu hfold (head?_dropWhile _ s), ← he, ← hmarks]
    exact ⟨fun h => h.2, fun h => ⟨hspace, h⟩⟩
  · rw [if_neg hat] at hround
    -- whitespace other than the space, in front of a mark
    have hne : c ≠ ' '.toNat := by
      rintro rfl
      have hno : isMark u ' '.toNat = false := Bool.eq_false_iff.mpr (hu.whitespace _ hu.space).2.1
      rw [hno, Bool.or_false] at hmark
      rw [otherAt, if_pos rfl] at hat
      obtain ⟨d, s, rfl, hd⟩ := exists_cons_of_any hmark
      exact hat (isOther_of_mark hu (Bool.and_eq_true_iff.mp hd).1)
    have hspace : isWhitespace u c = true := by
      rw [otherAt, if_neg hne, isOther_eq hu, hletter, hnum] at hat
      simpa using hat
    have hno : isMark u c = false := Bool.eq_false_iff.mpr (hu.whitespace c hspace).2.1
    rw [hno, Bool.or_false] at hmark
    rw [lineSpaces_mark hu hspace hnl hmark] at hround
    refine ⟨s, contracted fold e, hround, hregex, htail.1, htail.2, ?_⟩
    rw [hfits]
    refine iff_of_false (fun h => hne (h.1 hspace)) fun heq => ?_
    have hlen := hrest.length_le
    have := (takeWhile_dropWhile_of_any hmark).2
    rw [heq] at hlen
    omega

theorem compared (hu : KimiTables u) (hfold : FoldsLetters u fold) (hnum : isNumber u c = false)
    (hrange : ∀ d ∈ c :: s, d ≠ outOfRange) : Compared u l fold (c :: s) := by
  cases hhan : isHan c with
  | true =>
    refine ⟨_, _, kimiK2Round_han hhan, kimiRegex_han hhan,
      (List.dropWhile_suffix _).trans (List.suffix_cons c s),
      Nat.lt_succ_of_le (List.dropWhile_suffix _).length_le, ?_⟩
    rw [Fits, if_pos hhan, List.dropWhile_cons, if_pos hhan]
    exact iff_of_true trivial rfl
  | false =>
    have hfits : Fits u l fold (c :: s) ↔ if isKimiLetter u c then WordFits u l fold (c :: s)
        else if isLeading u c then
          if s.head?.any (isKimiLetter u) then
            WordFits u l fold s ∧
              (isMark u c → ∃ d ∈ s.takeWhile (isKimiLetter u), lowerSide u l d = true)
          else if s.head?.any (isKimiMark u) || isMark u c then
            (isWhitespace u c → c = ' '.toNat) ∧ MarksFit u l (s.dropWhile (isKimiMark u))
          else True
        else True := by
      rw [Fits, hhan, if_neg Bool.false_ne_true]
    cases hkimi : isKimiLetter u c with
    | true =>
      rw [hkimi, if_pos rfl] at hfits
      obtain ⟨r, hmatch, hsuffix, hlt, hiff⟩ := word_matchAt l fold hu hkimi
      exact compared_word hhan (kimiWord_letter hhan hkimi) hmatch hsuffix hlt hiff hfits
    | false =>
      have hletter : isLetter u c = false := by
        rwa [isKimiLetter, hhan, Bool.not_false, Bool.and_true] at hkimi
      have hcode := kimiWord_leading (s := s) hkimi hhan
      rw [hkimi, if_neg Bool.false_ne_true] at hfits
      cases hlead : isLeading u c with
      | false =>
        rw [hlead, Bool.false_and, if_neg Bool.false_ne_true] at hcode
        rw [hlead, if_neg Bool.false_ne_true] at hfits
        have hmark : isKimiMark u c = false := by
          rw [isLeading, hletter, hnum, Bool.or_false, Bool.or_false, Bool.not_eq_false'] at hlead
          rw [mark_of_not_han hhan]
          exact Bool.eq_false_iff.mpr (hu.whitespace c (hu.newline c hlead)).2.1
        refine compared_tail hu hrange hhan hcode hletter hnum ?_ (hfits.mpr trivial)
        exact noWord_matchAt hkimi hmark fun h => Bool.noConfusion (hlead.symm.trans h)
      | true =>
        rw [hlead, Bool.true_and] at hcode
        rw [hlead, if_pos rfl] at hfits
        cases hs : s.head?.any (isKimiLetter u) with
        | true =>
          rw [hs, if_pos rfl] at hcode hfits
          obtain ⟨r, hmatch, hsuffix, hlt, hiff⟩ :=
            leadingWord_matchAt l fold hu hhan hlead hs
          exact compared_word hhan hcode hmatch hsuffix hlt hiff hfits
        | false =>
          rw [hs, if_neg Bool.false_ne_true] at hcode hfits
          cases hmark : s.head?.any (isKimiMark u) || isMark u c with
          | true =>
            rw [hmark, if_pos rfl] at hfits
            exact compared_marks hu hfold hhan hlead hcode hs hmark hfits
          | false =>
            rw [hmark, if_neg Bool.false_ne_true] at hfits
            obtain ⟨hnext, hno⟩ := Bool.or_eq_false_iff.mp hmark
            refine compared_tail hu hrange hhan hcode hletter hnum ?_ (hfits.mpr trivial)
            exact noWord_matchAt hkimi ((mark_of_not_han hhan).trans hno) fun _ => ⟨hs, hnext⟩

/-- Where the first piece is the same, and where it is another one. -/
def Step (u : UnicodeData) (l : LetterKinds u) (fold : ℕ → ℕ) (s : List ℕ) : Prop :=
  ∃ rest, (kimiRegex u l fold).matchAt s = some rest ∧ rest <:+ s ∧ rest.length < s.length ∧
    (Fits u l fold s → splitSegment (kimiK2Round u) s =
      (s.length - rest.length) :: splitSegment (kimiK2Round u) rest) ∧
    (¬ Fits u l fold s → ∀ more,
      splitSegment (kimiK2Round u) s ≠ (s.length - rest.length) :: more)

theorem Compared.step (h : Compared u l fold (c :: s)) : Step u l fold (c :: s) := by
  obtain ⟨rest, r, hround, hmatch, hsuffix, hlt, hfits⟩ := h
  have hcovers := kimiK2Round_covers (u := u) c s
  have hcons := splitSegment_cons (kimiK2Round_covers (u := u)) c s
  rw [hround] at hcovers hcons
  refine ⟨r, hmatch, hsuffix, hlt, fun h => ?_, fun h more heq => ?_⟩
  · rw [hcons, hfits.mp h]
    rfl
  · -- two pieces of one length leave the same
    rw [hcons] at heq
    have hpiece : (c :: s).length - rest.length = (c :: s).length - r.length :=
      (List.cons.inj heq).1
    have hless : rest.length < (c :: s).length := hcovers.lt
    have hlen : r.length = rest.length := by omega
    have hsub : r <:+ rest := List.suffix_of_suffix_length_le hsuffix hcovers.suffix hlen.le
    exact h (hfits.mpr (hsub.eq_of_length hlen))

theorem number_kinds (hu : KimiTables u) (hc : isNumber u c = true) : isHan c = false ∧
    isKimiLetter u c = false ∧ isKimiMark u c = false ∧ isLeading u c = false := by
  have hletter : isLetter u c = false := Bool.eq_false_iff.mpr fun h => (hu.letter c h).2 hc
  have hmark : isMark u c = false := Bool.eq_false_iff.mpr fun h => hu.mark c h hc
  refine ⟨Bool.eq_false_iff.mpr fun h => hu.han c h hc, ?_, ?_, ?_⟩
  · rw [isKimiLetter, hletter, Bool.false_and]
  · rw [isKimiMark, hmark, Bool.false_and]
  · rw [isLeading, hc, Bool.or_true, Bool.not_true]

theorem step_number (hu : KimiTables u) (hc : isNumber u c = true) :
    Step u l fold (c :: s) := by
  obtain ⟨hhan, hletter, hmark, hlead⟩ := number_kinds hu hc
  have hround : ∀ d t, isNumber u d = true →
      kimiK2Round u (d :: t) = threeNumbers u (d :: t) := by
    intro d t hd
    obtain ⟨hhan, hletter, -, hlead⟩ := number_kinds hu hd
    refine kimiK2Round_number hhan ?_ hd
    rw [kimiWord_leading hletter hhan, hlead, Bool.false_and, if_neg Bool.false_ne_true]
  obtain ⟨rest, hthree⟩ : ∃ rest, (upToThree u).matchAt (c :: s) = some rest :=
    ⟨_, upToThree_matchAt c s hc⟩
  obtain ⟨hsuffix, hlt, heq⟩ := threeNumbers_step hc hthree
  have hfits : Fits u l fold (c :: s) := by
    rw [Fits, hhan, hletter, hlead]
    exact trivial
  refine ⟨rest, ?_, hsuffix, hlt, fun _ => ?_, fun h => absurd hfits h⟩
  · rw [kimiRegex_matchAt hhan, hthree,
      noWord_matchAt hletter hmark fun h => Bool.noConfusion (hlead.symm.trans h)]
    rfl
  · have hmore : (threeNumbers u rest).1 ++ splitSegment (kimiK2Round u) (threeNumbers u rest).2 =
        splitSegment (kimiK2Round u) rest := by
      cases rest with
      | nil => rfl
      | cons d t =>
        by_cases hd : isNumber u d = true
        · rw [splitSegment_cons kimiK2Round_covers d t, hround d t hd]
        · rw [threeNumbers_of_not hd]
          rfl
    rw [splitSegment_cons kimiK2Round_covers c s, hround c s hc, heq, List.cons_append, hmore]

theorem splitSegment_iff (hu : KimiTables u) (hfold : FoldsLetters u fold)
    (hrange : ∀ d ∈ s, d ≠ outOfRange) :
    splitSegment (kimiK2Round u) s = (kimiRegex u l fold).split s ↔
      ∀ rest, Begins (kimiRegex u l fold) s rest → Fits u l fold rest := by
  refine eq_split_iff rfl fun t hne hsuffix => ?_
  obtain ⟨c, t, rfl⟩ := List.exists_cons_of_ne_nil hne
  cases hnum : isNumber u c with
  | true => exact step_number hu hnum
  | false => exact (compared hu hfold hnum fun d hd => hrange d (hsuffix.mem hd)).step

end

/-! ## Texts -/

theorem append_inj_of_sum {a b c d : List ℕ} (ha : ∀ k ∈ a, 0 < k) (hb : ∀ k ∈ b, 0 < k)
    (hsum : a.sum = b.sum) (h : a ++ c = b ++ d) : a = b ∧ c = d := by
  have hnil : ∀ {x : List ℕ}, (∀ k ∈ x, 0 < k) → x.sum = 0 → x = [] := by
    intro x hpos hzero
    refine List.eq_nil_iff_forall_not_mem.mpr fun k hk => ?_
    exact absurd (List.sum_eq_zero_iff.mp hzero k hk) (hpos k hk).ne'
  rcases List.append_eq_append_iff.mp h with ⟨x, rfl, rfl⟩ | ⟨x, rfl, rfl⟩
  · rw [List.sum_append] at hsum
    rw [hnil (fun k hk => hb k (List.mem_append_right a hk)) (by omega)]
    exact ⟨(List.append_nil a).symm, rfl⟩
  · rw [List.sum_append] at hsum
    rw [hnil (fun k hk => ha k (List.mem_append_right b hk)) (by omega)]
    exact ⟨List.append_nil b, rfl⟩

theorem overSegments_eq_iff {f g : List ℕ → List ℕ} (hf : Splits f) (hg : Splits g)
    (cpts offsets : List ℕ) : overSegments f cpts offsets = overSegments g cpts offsets ↔
      ∀ s ∈ chunks cpts offsets, f s = g s := by
  induction offsets generalizing cpts with
  | nil => exact iff_of_true rfl fun s hs => absurd hs List.not_mem_nil
  | cons offset offsets ih =>
    rw [overSegments, overSegments, chunks, List.forall_mem_cons, ← ih]
    constructor
    · intro h
      obtain ⟨hfsum, hfpos⟩ := hf (cpts.take offset)
      obtain ⟨hgsum, hgpos⟩ := hg (cpts.take offset)
      exact append_inj_of_sum hfpos hgpos (hfsum.trans hgsum.symm) h
    · rintro ⟨hhead, htail⟩
      rw [hhead, htail]

theorem split_splits (r : Regex ℕ) : Splits r.split := fun s => by
  obtain ⟨hsum, hpos⟩ := @splitFrom_sum _ r _ 0 s le_rfl
  exact ⟨hsum.trans (Nat.zero_add _), hpos⟩

/-- The splitter cuts a text where the pattern does exactly if every match of the pattern begins
where the two agree. -/
theorem splitCustomKimiK2_iff {u : UnicodeData} {l : LetterKinds u} {fold : ℕ → ℕ}
    (hu : KimiTables u) (hfold : FoldsLetters u fold) (text : List UInt8) (offsets : List ℕ) :
    splitCustomKimiK2 u text offsets = regexSplit (kimiRegex u l fold) text offsets ↔
      ∀ s ∈ chunks (cptsFromUtf8 text) offsets, ∀ rest,
        Begins (kimiRegex u l fold) s rest → Fits u l fold rest := by
  rw [splitCustomKimiK2, regexSplit, overSegments_eq_iff
    (splitSegment_splits kimiK2Round_covers) (split_splits _)]
  refine forall₂_congr fun s hs => splitSegment_iff hu hfold fun d hd he => ?_
  exact absurd (cptsFromUtf8_lt (mem_of_mem_chunks hs d hd)) (by rw [he]; decide)

theorem isLetter_asciiData (c : ℕ) : isLetter asciiData c =
    (decide (0x41 ≤ c) && decide (c ≤ 0x5A) || decide (0x61 ≤ c) && decide (c ≤ 0x7A) ||
      false || false || false) := by
  rw [Bool.eq_iff_iff]
  simp only [isLetter, asciiData, Bool.or_false, Bool.or_eq_true, Bool.and_eq_true,
    decide_eq_true_eq]
  split_ifs <;> simp only [true_iff, false_iff] <;> omega

def asciiKinds : LetterKinds asciiData where
  upper c := decide (0x41 ≤ c) && decide (c ≤ 0x5A)
  lower c := decide (0x61 ≤ c) && decide (c ≤ 0x7A)
  title _ := false
  modifier _ := false
  other _ := false
  isLetter_eq := isLetter_asciiData

theorem asciiData_kimiTables : KimiTables asciiData where
  toLikeTables := asciiData_likeTables
  han c hc := by
    have hge : 0x3400 ≤ c := by
      simp only [isHan, List.any_cons, List.any_nil, Bool.or_eq_true, Bool.and_eq_true,
        decide_eq_true_eq, Bool.or_false] at hc
      omega
    simp only [isNumber, asciiData]
    split_ifs <;> simp
    omega
  quote := by decide

theorem asciiData_foldsLetters : FoldsLetters asciiData asciiData.tolower := by
  intro c hlow hhigh
  by_contra hletter
  have hsmall : ¬ ((0x41 ≤ c ∧ c ≤ 0x5A) ∨ (0x61 ≤ c ∧ c ≤ 0x7A)) := by
    intro h
    refine hletter ?_
    rw [isLetter, asciiData]
    dsimp only
    rw [if_neg (by omega), if_neg (by omega), if_pos h]
  have hsame : asciiData.tolower c = c := if_neg fun h => hsmall (.inl h)
  rw [hsame] at hlow hhigh
  exact hsmall (.inr ⟨hlow, hhigh⟩)

/-- `It's 1234!`, in two segments. -/
theorem splitCustomKimiK2_iff_ascii :
    let text : List UInt8 := [73, 116, 39, 115, 32, 49, 50, 51, 52, 33]
    ∀ s ∈ chunks (cptsFromUtf8 text) [5, 5], ∀ rest,
      Begins (kimiRegex asciiData asciiKinds asciiData.tolower) s rest →
        Fits asciiData asciiKinds asciiData.tolower rest :=
  (splitCustomKimiK2_iff asciiData_kimiTables asciiData_foldsLetters _ [5, 5]).mp
    (by decide +kernel)

/-- `aB` is one token, and two matches. -/
theorem splitCustomKimiK2_mixed :
    splitCustomKimiK2 asciiData [97, 66] [2] = [2] ∧
      regexSplit (kimiRegex asciiData asciiKinds asciiData.tolower) [97, 66] [2] = [1, 1] := by
  decide +kernel

end PreTokenizer
end RocmFpx
