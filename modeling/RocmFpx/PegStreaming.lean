import RocmFpx.PegParser

/-!
The lenient parse of a text that has not arrived in full, beside the parse of the full text. The two
run in step until the first one reaches the end of its text; a parser that stops early in front of
an incomplete character or delimiter breaks the step.
-/

namespace RocmFpx.Peg

/-- Without lookahead and anchors. -/
def Parser.Plain : Parser → Prop
  | .literal _ | .sequence _ | .choice _ | .repetition _ _ _ | .any | .space | .chars _ | .string _
  | .until _ | .rule _ _ | .tag _ _ | .ref _ | .atomic _ => True
  | _ => False

/-! ## Careful runs -/

section

variable (u w : List UInt8)

/-- The class does not hold the character at `pos` of the full text. -/
def CharsParser.Ends (p : CharsParser) (pos : ℕ) : Prop :=
  (parseUtf8Codepoint w pos).status = .success →
    p.accepts (parseUtf8Codepoint w pos).codepoint = false

/-- A class that is left in front of an incomplete character ends there in the full text as well. -/
def CharsParser.Careful (p : CharsParser) : ℕ → ℕ → ℕ → Prop
  | 0, _, _ => True
  | n + 1, pos, count =>
    (p.maxCount = -1 ∨ (count : ℤ) < p.maxCount) →
      match (parseUtf8Codepoint u pos).status with
      | .incomplete => pos < u.length → p.minCount ≤ count → p.Ends w pos
      | .invalid => True
      | .success =>
        p.accepts (parseUtf8Codepoint u pos).codepoint →
          p.Careful n (pos + (parseUtf8Codepoint u pos).bytesConsumed) (count + 1)

/-- A delimiter in front of which the text is left begins there in the full text as well. -/
def UntilCareful (matcher : Trie) : ℕ → ℕ → Prop
  | 0, _ => True
  | n + 1, pos =>
    pos < u.length → (parseUtf8Codepoint u pos).status ≠ .incomplete →
      if (parseUtf8Codepoint u pos).status ≠ .success then
        UntilCareful matcher n (pos + (parseUtf8Codepoint u pos).bytesConsumed)
      else
        match matcher.checkAt u pos with
        | .completeMatch => True
        | .partialMatch => matcher.checkAt w pos ≠ .noMatch
        | .noMatch => UntilCareful matcher n (pos + (parseUtf8Codepoint u pos).bytesConsumed)

end

section

variable (run : ℕ → ℕ → Except Abort ParseResult) (good : ℕ → ℕ → Prop)

/-- The children that the sequence runs are careful where it runs them. -/
def SequenceCareful : List ℕ → ℕ → Prop
  | [], _ => True
  | child :: children, pos =>
    good child pos ∧ ∀ r, run child pos = .ok r → r.type = .success →
      SequenceCareful children r.stop

def ChoiceCareful (pos : ℕ) : List ℕ → Prop
  | [] => True
  | child :: children =>
    good child pos ∧ ∀ r, run child pos = .ok r → r.type = .fail → ChoiceCareful pos children

def RepetitionCareful (size child : ℕ) (maxCount : ℤ) : ℕ → ℕ → ℕ → Prop
  | 0, _, _ => True
  | n + 1, pos, count =>
    (maxCount = -1 ∨ (count : ℤ) < maxCount) → pos < size →
      good child pos ∧ ∀ r, run child pos = .ok r → r.type = .success → r.stop ≠ pos →
        RepetitionCareful size child maxCount n r.stop (count + 1)

end

namespace Arena

variable (a : Arena) (u w : List UInt8)

/-- In the lenient parse of `u` from `start` no parser stops early at an end that `w` goes past. -/
def CarefulAt : ℕ → ℕ → ℕ → Prop
  | 0, _, _ => True
  | n + 1, id, start =>
    match a.parsers[id]? with
    | some (.sequence children) =>
      SequenceCareful (a.parseAt u true n) (CarefulAt n) children start
    | some (.choice children) => ChoiceCareful (a.parseAt u true n) (CarefulAt n) start children
    | some (.repetition child _ maxCount) =>
      RepetitionCareful (a.parseAt u true n) (CarefulAt n) u.length child maxCount n start 0
    | some (.chars p) => p.Careful u w (u.length + 1) start 0
    | some (.until delimiters) => UntilCareful u w (Trie.ofWords delimiters) (u.length + 1) start
    | some (.rule _ child) => CarefulAt n child start
    | some (.tag child _) => CarefulAt n child start
    | some (.atomic child) => CarefulAt n child start
    | some (.ref name) => ∀ child, a.rules.lookup name = some child → CarefulAt n child start
    | _ => True

def Careful (n : ℕ) : Prop := ∀ root, a.root = some root → a.CarefulAt u w n root 0

end Arena

/-! ## The full text -/

/-- A parse of the full text knows whether it succeeds, and does not go back. -/
def Settled (pos : ℕ) (r : ParseResult) : Prop :=
  r.type ≠ .needMoreInput ∧ (r.type = .success → pos ≤ r.stop)

section

variable {input : List UInt8} {start pos : ℕ}

theorem settled_fail {stop : ℕ} : Settled pos (.fail start stop) :=
  ⟨ResultType.noConfusion, ResultType.noConfusion⟩

theorem settled_success {stop : ℕ} (h : pos ≤ stop) : Settled pos (.success start stop) :=
  ⟨ResultType.noConfusion, fun _ => h⟩

theorem Settled.mono {pos' : ℕ} {r : ParseResult} (h : Settled pos' r) (hle : pos ≤ pos') :
    Settled pos r :=
  ⟨h.1, fun hs => hle.trans (h.2 hs)⟩

theorem literalFrom_settled (cs : List UInt8) :
    Settled pos (literalFrom input false start cs pos) := by
  induction cs generalizing pos with
  | nil => exact settled_success le_rfl
  | cons c cs ih =>
    rw [literalFrom]
    cases input[pos]? with
    | none => exact settled_fail
    | some b =>
      simp only
      split_ifs
      · exact ih.mono (Nat.le_succ pos)
      · exact settled_fail

theorem parseAny_settled : Settled start (parseAny input false start) := by
  rw [parseAny]
  cases (parseUtf8Codepoint input start).status with
  | success =>
    simp only
    exact settled_success (Nat.le_add_right _ _)
  | incomplete =>
    simp only
    exact settled_fail
  | invalid =>
    simp only
    exact settled_fail

theorem CharsParser.finish_settled (p : CharsParser) (count : ℕ) :
    Settled pos (p.finish input false start pos count) := by
  rw [CharsParser.finish]
  split_ifs with h1 h2
  · exact h2.2.elim
  · exact settled_fail
  · exact settled_success le_rfl

theorem CharsParser.parseFrom_settled (p : CharsParser) (n count : ℕ) :
    Settled pos (p.parseFrom input false start n pos count) := by
  induction n generalizing pos count with
  | zero => exact p.finish_settled count
  | succ n ih =>
    rw [CharsParser.parseFrom]
    by_cases hmore : p.maxCount = -1 ∨ (count : ℤ) < p.maxCount
    · rw [if_pos hmore]
      cases hs : (parseUtf8Codepoint input pos).status with
      | success =>
        simp only [hs]
        split_ifs
        · exact (ih _).mono (Nat.le_add_right _ _)
        · exact p.finish_settled count
      | incomplete =>
        simp only [hs]
        split_ifs
        · exact settled_success le_rfl
        · exact settled_fail
      | invalid =>
        simp only [hs]
        split_ifs
        · exact settled_success le_rfl
        · exact settled_fail
    · rw [if_neg hmore]
      exact p.finish_settled count

theorem CharsParser.parseFrom_enough (p : CharsParser) {n count : ℕ} (h : p.minCount ≤ count) :
    (p.parseFrom input false start n pos count).type = .success := by
  have hfinish : ∀ pos count : ℕ, p.minCount ≤ count →
      (p.finish input false start pos count).type = .success := by
    intro pos count h
    rw [CharsParser.finish, if_neg (not_lt.mpr h)]
    rfl
  induction n generalizing pos count with
  | zero => exact hfinish pos count h
  | succ n ih =>
    rw [CharsParser.parseFrom]
    by_cases hmore : p.maxCount = -1 ∨ (count : ℤ) < p.maxCount
    · rw [if_pos hmore]
      cases hs : (parseUtf8Codepoint input pos).status with
      | success =>
        simp only [hs]
        split_ifs
        · exact ih (by push_cast; omega)
        · exact hfinish pos count h
      | incomplete =>
        simp only [hs, if_pos h]
        rfl
      | invalid =>
        simp only [hs, if_pos h]
        rfl
    · rw [if_neg hmore]
      exact hfinish pos count h

theorem hexDigitsFrom_settled {save : ℕ} (k : ℕ) :
    Settled pos (hexDigitsFrom input false start save k pos) := by
  induction k generalizing pos with
  | zero => exact settled_success le_rfl
  | succ k ih =>
    rw [hexDigitsFrom]
    cases input[pos]? with
    | none => exact settled_fail
    | some c =>
      simp only
      split_ifs
      · exact ih.mono (Nat.le_succ pos)
      · exact settled_fail

theorem handleEscapeSequence_settled (delimiter : UInt8) :
    Settled (pos + 1) (handleEscapeSequence input false start delimiter pos) := by
  rw [handleEscapeSequence]
  cases input[pos + 1]? with
  | none => exact settled_fail
  | some c =>
    simp only
    split_ifs
    · exact settled_success (Nat.le_succ _)
    · exact (hexDigitsFrom_settled 4).mono (Nat.le_succ _)
    · exact settled_fail

theorem stringFrom_settled (delimiter : UInt8) (n : ℕ) :
    Settled pos (stringFrom input false start delimiter n pos) := by
  induction n generalizing pos with
  | zero => exact settled_fail
  | succ n ih =>
    rw [stringFrom]
    cases input[pos]? with
    | none => exact settled_fail
    | some c =>
      simp only
      split_ifs with h1 h2 h3
      · exact settled_success le_rfl
      · exact ih.mono ((Nat.le_succ pos).trans ((handleEscapeSequence_settled delimiter).2 h3))
      · exact (handleEscapeSequence_settled delimiter).mono (Nat.le_succ pos)
      · cases hs : (parseUtf8Codepoint input pos).status with
        | success => exact ih.mono (Nat.le_add_right _ _)
        | incomplete => exact settled_fail
        | invalid => exact settled_fail

theorem untilFrom_settled (matcher : Trie) (n : ℕ) (invalid : List (ℕ × ℕ)) :
    Settled pos (untilFrom input false start matcher n pos pos invalid) := by
  have hsucc : ∀ (p : ℕ) (l : List (ℕ × ℕ)), Settled p ⟨.success, start, p, [], l⟩ :=
    fun _ _ => ⟨ResultType.noConfusion, fun _ => le_rfl⟩
  have hfinish : ∀ (p : ℕ) (l : List (ℕ × ℕ)),
      Settled p (untilFinish input false start p l) := by
    intro p l
    rw [untilFinish, if_neg fun h => Bool.false_ne_true h.2]
    exact hsucc p l
  induction n generalizing pos invalid with
  | zero => exact hfinish pos invalid
  | succ n ih =>
    have hnext := Nat.le_add_right pos (parseUtf8Codepoint input pos).bytesConsumed
    rw [untilFrom]
    dsimp only
    split_ifs with h1 h2 h3
    · exact h2.2.elim
    · exact (ih _).mono hnext
    · cases matcher.checkAt input pos with
      | completeMatch => exact hsucc pos invalid
      | partialMatch => exact hsucc pos invalid
      | noMatch => exact (ih _).mono hnext
    · exact hfinish pos invalid

theorem bind_eq_ok {x : Except Abort ParseResult} {f : ParseResult → Except Abort ParseResult}
    {r : ParseResult} (h : (x >>= f) = .ok r) : ∃ r', x = .ok r' ∧ f r' = .ok r := by
  cases x with
  | error e => cases h
  | ok r' => exact ⟨r', rfl, h⟩

variable {run : ℕ → ℕ → Except Abort ParseResult} {r : ParseResult}

/-- The children of the run give settled results. -/
def RunSettled (run : ℕ → ℕ → Except Abort ParseResult) : Prop :=
  ∀ id pos r, run id pos = .ok r → Settled pos r

theorem sequenceFrom_settled (hrun : RunSettled run) {children : List ℕ} {nodes : List AstNode}
    {invalid : List (ℕ × ℕ)}
    (h : sequenceFrom run start children pos nodes invalid = .ok r) : Settled pos r := by
  induction children generalizing pos nodes invalid with
  | nil =>
    cases h
    exact ⟨ResultType.noConfusion, fun _ => le_rfl⟩
  | cons child children ih =>
    rw [sequenceFrom] at h
    obtain ⟨r', hr', h⟩ := bind_eq_ok h
    have hsettled := hrun _ _ _ hr'
    cases ht : r'.type with
    | fail =>
      rw [ht] at h
      cases h
      exact settled_fail
    | needMoreInput => exact absurd ht hsettled.1
    | success =>
      rw [ht] at h
      exact (ih h).mono (hsettled.2 ht)

theorem choiceFrom_settled (hrun : RunSettled run) {children : List ℕ}
    (h : choiceFrom run start children = .ok r) : Settled start r := by
  induction children with
  | nil =>
    cases h
    exact settled_fail
  | cons child children ih =>
    rw [choiceFrom] at h
    obtain ⟨r', hr', h⟩ := bind_eq_ok h
    by_cases ht : r'.type = .fail
    · rw [if_neg (not_not_intro ht)] at h
      exact ih h
    · rw [if_pos ht] at h
      cases h
      exact hrun _ _ _ hr'

theorem repetitionFinish_settled {minCount : ℤ} {count : ℕ} {nodes : List AstNode}
    {invalid : List (ℕ × ℕ)} :
    Settled pos (repetitionFinish input false start minCount pos count nodes invalid) := by
  rw [repetitionFinish]
  split_ifs with h1 h2
  · exact h2.2.elim
  · exact settled_fail
  · exact ⟨ResultType.noConfusion, fun _ => le_rfl⟩

theorem repetitionFrom_settled (hrun : RunSettled run) {child n count : ℕ} {minCount maxCount : ℤ}
    {nodes : List AstNode} {invalid : List (ℕ × ℕ)}
    (h : repetitionFrom run input false start child minCount maxCount n pos count nodes invalid =
      .ok r) : Settled pos r := by
  induction n generalizing pos count nodes invalid with
  | zero => cases h
  | succ n ih =>
    rw [repetitionFrom] at h
    split_ifs at h
    · cases h
      exact repetitionFinish_settled
    · obtain ⟨r', hr', h⟩ := bind_eq_ok h
      have hsettled := hrun _ _ _ hr'
      cases ht : r'.type with
      | fail =>
        rw [ht] at h
        cases h
        exact repetitionFinish_settled
      | needMoreInput => exact absurd ht hsettled.1
      | success =>
        rw [ht] at h
        dsimp only at h
        split_ifs at h
        · cases h
          exact repetitionFinish_settled
        · exact (ih h).mono (hsettled.2 ht)
    · cases h
      exact repetitionFinish_settled

theorem repetitionFrom_enough (hrun : RunSettled run) {child n count : ℕ} {minCount maxCount : ℤ}
    {nodes : List AstNode} {invalid : List (ℕ × ℕ)} (hcount : ¬ (0 < minCount ∧ (count : ℤ) < minCount))
    (h : repetitionFrom run input false start child minCount maxCount n pos count nodes invalid =
      .ok r) : r.type = .success := by
  have hfinish : ∀ {pos count : ℕ} {nodes : List AstNode} {invalid : List (ℕ × ℕ)},
      ¬ (0 < minCount ∧ (count : ℤ) < minCount) →
      (repetitionFinish input false start minCount pos count nodes invalid).type = .success := by
    intro pos count nodes invalid h
    rw [repetitionFinish, if_neg h]
  induction n generalizing pos count nodes invalid with
  | zero => cases h
  | succ n ih =>
    rw [repetitionFrom] at h
    split_ifs at h
    · cases h
      exact hfinish hcount
    · obtain ⟨r', hr', h⟩ := bind_eq_ok h
      cases ht : r'.type with
      | fail =>
        rw [ht] at h
        cases h
        exact hfinish hcount
      | needMoreInput => exact absurd ht (hrun _ _ _ hr').1
      | success =>
        rw [ht] at h
        dsimp only at h
        split_ifs at h
        · cases h
          exact hfinish hcount
        · refine ih (fun hc => hcount ⟨hc.1, ?_⟩) h
          have := hc.2
          push_cast at this
          omega
    · cases h
      exact hfinish hcount

theorem withNode_type {rule tag : String} : (withNode input rule tag r).type = r.type := by
  rw [withNode]
  split_ifs <;> rfl

theorem withNode_stop {rule tag : String} : (withNode input rule tag r).stop = r.stop := by
  rw [withNode]
  split_ifs <;> rfl

theorem Settled.withNode {rule tag : String} (h : Settled pos r) :
    Settled pos (withNode input rule tag r) := by
  rw [Settled, withNode_type, withNode_stop]
  exact h

theorem Arena.parseAt_settled (a : Arena) (n : ℕ) : RunSettled (a.parseAt input false n) := by
  induction n with
  | zero => exact fun _ _ _ h => nomatch h
  | succ n ih =>
    intro id pos r h
    rw [Arena.parseAt] at h
    cases hp : a.parsers[id]? with
    | none =>
      rw [hp] at h
      cases h
    | some p =>
      rw [hp] at h
      cases p with
      | epsilon =>
        cases h
        exact settled_success le_rfl
      | start =>
        cases h
        split_ifs
        · exact settled_success le_rfl
        · exact settled_fail
      | finish =>
        cases h
        split_ifs
        · exact settled_success le_rfl
        · exact settled_fail
      | literal cs =>
        cases h
        exact literalFrom_settled _
      | sequence children => exact sequenceFrom_settled ih h
      | choice children => exact choiceFrom_settled ih h
      | repetition child minCount maxCount => exact repetitionFrom_settled ih h
      | and child =>
        obtain ⟨r', hr', h⟩ := bind_eq_ok h
        cases h
        exact ⟨(ih _ _ _ hr').1, fun _ => le_rfl⟩
      | not child =>
        obtain ⟨r', hr', h⟩ := bind_eq_ok h
        cases ht : r'.type with
        | fail =>
          rw [ht] at h
          cases h
          exact settled_success le_rfl
        | needMoreInput => exact absurd ht (ih _ _ _ hr').1
        | success =>
          rw [ht] at h
          cases h
          exact settled_fail
      | any =>
        cases h
        exact parseAny_settled
      | space =>
        cases h
        exact settled_success (Nat.le_add_right _ _)
      | chars p =>
        cases h
        exact p.parseFrom_settled _ _
      | string delimiter =>
        cases h
        exact stringFrom_settled _ _
      | «until» delimiters =>
        cases h
        exact untilFrom_settled _ _ _
      | schema child => exact ih _ _ _ h
      | rule name child =>
        obtain ⟨r', hr', h⟩ := bind_eq_ok h
        cases h
        exact (ih _ _ _ hr').withNode
      | ref name =>
        cases hl : a.rules.lookup name with
        | none =>
          simp only [hl] at h
          cases h
        | some child =>
          simp only [hl] at h
          exact ih _ _ _ h
      | atomic child =>
        obtain ⟨r', hr', h⟩ := bind_eq_ok h
        have hr := ih _ _ _ hr'
        rw [if_neg hr.1] at h
        cases h
        exact hr
      | tag child tag =>
        obtain ⟨r', hr', h⟩ := bind_eq_ok h
        cases h
        exact (ih _ _ _ hr').withNode
      | gbnf child => exact ih _ _ _ h
      | ac child => exact ih _ _ _ h

end

end RocmFpx.Peg
