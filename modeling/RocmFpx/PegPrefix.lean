import RocmFpx.PegStreaming

/-!
A careful lenient parse of a prefix does not fail where the parse of the full text succeeds.
-/

namespace RocmFpx.Peg

/-- Two positions in step: the same one in front of the end of the prefix, or its end and a position
that is not in front of it. -/
def InStep (size pos pos' : ℕ) : Prop := (pos = pos' ∧ pos < size) ∨ (pos = size ∧ size ≤ pos')

/-- What the result of the prefix says about that of the full text. -/
structure Follows (size : ℕ) (r r' : ParseResult) : Prop where
  success : r.type = .success → r'.type = .success ∧ InStep size r.stop r'.stop
  fail : r.type = .fail → r'.type = .fail

section

variable {u w : List UInt8} {size pos pos' start start' stop stop' : ℕ}

theorem inStep_of_le (h : pos ≤ size) : InStep size pos pos :=
  (lt_or_eq_of_le h).imp (fun h => ⟨rfl, h⟩) fun h => ⟨h, h.ge⟩

theorem InStep.eq_of_lt (h : InStep size pos pos') (hlt : pos < size) : pos' = pos :=
  h.elim (fun h => h.1.symm) fun h => absurd h.1 hlt.ne

theorem InStep.le (h : InStep size pos pos') : pos ≤ size := h.elim (fun h => h.2.le) fun h => h.1.le

theorem follows_of_needMore {r r' : ParseResult} (h : r.type = .needMoreInput) :
    Follows size r r' :=
  ⟨fun hs => ResultType.noConfusion (h.symm.trans hs), fun hf =>
    ResultType.noConfusion (h.symm.trans hf)⟩

theorem follows_needMore {nodes : List AstNode} {invalid : List (ℕ × ℕ)} (r : ParseResult) :
    Follows size ⟨.needMoreInput, start, stop, nodes, invalid⟩ r :=
  follows_of_needMore rfl

theorem follows_success {nodes nodes' : List AstNode} {invalid invalid' : List (ℕ × ℕ)}
    (h : InStep size stop stop') :
    Follows size ⟨.success, start, stop, nodes, invalid⟩
      ⟨.success, start', stop', nodes', invalid'⟩ :=
  ⟨fun _ => ⟨rfl, h⟩, ResultType.noConfusion⟩

theorem follows_fail {r : ParseResult} (h : r.type = .fail) :
    Follows size (.fail start stop) r :=
  ⟨ResultType.noConfusion, fun _ => h⟩

/-! ## Parsers without children -/

theorem literalFrom_follows (hpre : u <+: w) (cs : List UInt8) (h : InStep u.length pos pos') :
    Follows u.length (literalFrom u true start cs pos) (literalFrom w false start' cs pos') := by
  induction cs generalizing pos pos' with
  | nil => exact follows_success h
  | cons c cs ih =>
    rw [literalFrom]
    cases hb : u[pos]? with
    | none => exact follows_needMore _
    | some b =>
      have hlt := (List.getElem?_eq_some_iff.mp hb).1
      rw [h.eq_of_lt hlt, literalFrom, getElem?_extend hpre hb]
      dsimp only
      split_ifs
      · exact ih (inStep_of_le hlt)
      · exact follows_fail rfl

theorem parseAny_follows (hpre : u <+: w) (h : InStep u.length pos pos') :
    Follows u.length (parseAny u true pos) (parseAny w false pos') := by
  rw [parseAny]
  by_cases hinc : (parseUtf8Codepoint u pos).status = .incomplete
  · simp only [hinc]
    exact follows_needMore _
  · have hlt := lt_of_parseUtf8Codepoint hinc
    rw [h.eq_of_lt hlt, parseAny, parseUtf8Codepoint_stable hpre hinc]
    cases hs : (parseUtf8Codepoint u pos).status with
    | incomplete => exact absurd hs hinc
    | invalid => exact follows_fail rfl
    | success => exact follows_success (inStep_of_le (parseUtf8Codepoint_consumed hlt).2)

theorem parseSpace_follows (hpre : u <+: w) (h : InStep u.length pos pos') :
    Follows u.length (parseSpace u pos) (parseSpace w pos') := by
  obtain ⟨rfl, hlt⟩ | ⟨rfl, hle⟩ := h
  · obtain ⟨v, rfl⟩ := hpre
    refine follows_success ?_
    rw [List.drop_append_of_le_length hlt.le, List.takeWhile_append]
    have hlen : ((u.drop pos).takeWhile isSpace).length ≤ (u.drop pos).length :=
      List.Sublist.length_le (List.takeWhile_sublist _)
    rw [List.length_drop] at hlen
    split_ifs with hall
    · rw [List.length_append, hall, List.length_drop]
      exact Or.inr ⟨by omega, by omega⟩
    · exact inStep_of_le (by omega)
  · refine follows_success (Or.inr ⟨?_, hle.trans (Nat.le_add_right _ _)⟩)
    rw [List.drop_length, List.takeWhile_nil]
    rfl

namespace CharsParser

variable {p : CharsParser} {count : ℕ}

theorem finish_follows (h : InStep u.length pos pos') :
    Follows u.length (p.finish u true start pos count) (p.finish w false start' pos' count) := by
  rw [finish, finish]
  by_cases hcount : (count : ℤ) < p.minCount
  · have hfalse : ¬ (w.length ≤ pos' ∧ false = true) := fun h => Bool.false_ne_true h.2
    rw [if_pos hcount, if_pos hcount, if_neg hfalse]
    split_ifs
    · exact follows_needMore _
    · exact follows_fail rfl
  · rw [if_neg hcount, if_neg hcount]
    exact follows_success h

theorem parseFrom_incomplete {n' : ℕ} (h : InStep u.length pos pos') (hn' : w.length < pos' + n')
    (hlen : u.length ≤ w.length) (hmore : p.maxCount = -1 ∨ (count : ℤ) < p.maxCount)
    (henough : p.minCount ≤ count) (hcare : pos < u.length → p.Ends w pos) :
    Follows u.length (.success start pos) (p.parseFrom w false start' n' pos' count) := by
  obtain ⟨rfl, hlt⟩ | ⟨rfl, hle⟩ := h
  · cases n' with
    | zero => exact absurd hlt (by omega)
    | succ n' =>
      rw [parseFrom, if_pos hmore]
      cases hs : (parseUtf8Codepoint w pos).status with
      | incomplete =>
        simp only [hs, if_pos henough]
        exact follows_success (inStep_of_le hlt.le)
      | invalid =>
        simp only [hs, if_pos henough]
        exact follows_success (inStep_of_le hlt.le)
      | success =>
        simp only [hs, hcare hlt hs, Bool.false_eq_true, if_false]
        rw [finish, if_neg (not_lt.mpr henough)]
        exact follows_success (inStep_of_le hlt.le)
  · have htype : (p.parseFrom w false start' n' pos' count).type = .success :=
      p.parseFrom_enough henough
    exact ⟨fun _ => ⟨htype, Or.inr ⟨rfl, hle.trans ((p.parseFrom_settled n' count).2 htype)⟩⟩,
      ResultType.noConfusion⟩

theorem parseFrom_follows (hpre : u <+: w) {n n' : ℕ} (h : InStep u.length pos pos')
    (hn : u.length < pos + n) (hn' : w.length < pos' + n') (hcare : p.Careful u w n pos count) :
    Follows u.length (p.parseFrom u true start n pos count)
      (p.parseFrom w false start' n' pos' count) := by
  induction n generalizing pos pos' count n' with
  | zero => exact absurd h.le (by omega)
  | succ n ih =>
    rw [Careful] at hcare
    rw [parseFrom]
    by_cases hmore : p.maxCount = -1 ∨ (count : ℤ) < p.maxCount
    · have hcare := hcare hmore
      rw [if_pos hmore]
      have hlen := hpre.length_le
      by_cases hinc : (parseUtf8Codepoint u pos).status = .incomplete
      · simp only [hinc] at hcare ⊢
        split_ifs with henough
        · exact parseFrom_incomplete h hn' hlen hmore henough fun hlt => hcare hlt henough
        · exact follows_needMore _
      · have hlt := lt_of_parseUtf8Codepoint hinc
        obtain ⟨hone, hle⟩ := parseUtf8Codepoint_consumed hlt
        rw [h.eq_of_lt hlt] at hn' ⊢
        cases n' with
        | zero => omega
        | succ n' =>
          rw [parseFrom, if_pos hmore, parseUtf8Codepoint_stable hpre hinc]
          cases hs : (parseUtf8Codepoint u pos).status with
          | incomplete => exact absurd hs hinc
          | invalid =>
            simp only [hs]
            split_ifs
            · exact follows_success (inStep_of_le hlt.le)
            · exact follows_fail rfl
          | success =>
            simp only [hs] at hcare ⊢
            split_ifs with hacc
            · exact ih (inStep_of_le hle) (by omega) (by omega) (hcare hacc)
            · exact finish_follows (inStep_of_le hlt.le)
    · rw [if_neg hmore]
      cases n' with
      | zero => exact finish_follows h
      | succ n' =>
        rw [parseFrom, if_neg hmore]
        exact finish_follows h

end CharsParser

theorem hexDigitsFrom_follows (hpre : u <+: w) {save save' : ℕ} (k : ℕ)
    (h : InStep u.length pos pos') :
    Follows u.length (hexDigitsFrom u true start save k pos)
      (hexDigitsFrom w false start' save' k pos') := by
  induction k generalizing pos pos' with
  | zero => exact follows_success h
  | succ k ih =>
    rw [hexDigitsFrom]
    cases hb : u[pos]? with
    | none => exact follows_needMore _
    | some c =>
      have hlt := (List.getElem?_eq_some_iff.mp hb).1
      rw [h.eq_of_lt hlt, hexDigitsFrom, getElem?_extend hpre hb]
      dsimp only
      split_ifs
      · exact ih (inStep_of_le hlt)
      · exact follows_fail rfl

theorem handleEscapeSequence_follows (hpre : u <+: w) (delimiter : UInt8) :
    Follows u.length (handleEscapeSequence u true start delimiter pos)
      (handleEscapeSequence w false start' delimiter pos) := by
  rw [handleEscapeSequence]
  cases hb : u[pos + 1]? with
  | none => exact follows_needMore _
  | some c =>
    have hlt := (List.getElem?_eq_some_iff.mp hb).1
    rw [handleEscapeSequence, getElem?_extend hpre hb]
    dsimp only
    split_ifs
    · exact follows_success (inStep_of_le hlt)
    · exact hexDigitsFrom_follows hpre 4 (inStep_of_le hlt)
    · exact follows_fail rfl

theorem stringFrom_follows (hpre : u <+: w) (delimiter : UInt8) {n n' : ℕ}
    (h : InStep u.length pos pos') (hn' : w.length < pos' + n') :
    Follows u.length (stringFrom u true start delimiter n pos)
      (stringFrom w false start' delimiter n' pos') := by
  induction n generalizing pos pos' n' with
  | zero => exact follows_needMore _
  | succ n ih =>
    rw [stringFrom]
    cases hb : u[pos]? with
    | none => exact follows_needMore _
    | some c =>
      have hlt := (List.getElem?_eq_some_iff.mp hb).1
      have hlen := hpre.length_le
      rw [h.eq_of_lt hlt] at hn' ⊢
      cases n' with
      | zero => omega
      | succ n' =>
        rw [stringFrom, getElem?_extend hpre hb]
        dsimp only
        by_cases hdelim : c = delimiter
        · rw [if_pos hdelim, if_pos hdelim]
          exact follows_success (inStep_of_le hlt.le)
        rw [if_neg hdelim, if_neg hdelim]
        by_cases hesc : c.toNat = 92
        · rw [if_pos hesc, if_pos hesc]
          have hf : Follows u.length (handleEscapeSequence u true start delimiter pos)
              (handleEscapeSequence w false start' delimiter pos) :=
            handleEscapeSequence_follows hpre delimiter
          cases ht : (handleEscapeSequence u true start delimiter pos).type with
          | needMoreInput =>
            rw [if_neg ResultType.noConfusion]
            exact follows_of_needMore ht
          | fail =>
            have ht' := hf.fail ht
            rw [if_neg ResultType.noConfusion, ht', if_neg ResultType.noConfusion]
            exact hf
          | success =>
            obtain ⟨ht', hstop⟩ := hf.success ht
            have hlater : pos + 1 ≤ (handleEscapeSequence w false start' delimiter pos).stop :=
              (handleEscapeSequence_settled delimiter).2 ht'
            rw [if_pos rfl, if_pos ht']
            exact ih hstop (by omega)
        rw [if_neg hesc, if_neg hesc]
        by_cases hinc : (parseUtf8Codepoint u pos).status = .incomplete
        · simp only [hinc]
          exact follows_needMore _
        · obtain ⟨hone, hle⟩ := parseUtf8Codepoint_consumed hlt
          rw [parseUtf8Codepoint_stable hpre hinc]
          cases hs : (parseUtf8Codepoint u pos).status with
          | incomplete => exact absurd hs hinc
          | invalid => exact follows_fail rfl
          | success => exact ih (inStep_of_le hle) (by omega)

/-! ### Delimiters -/

/-- The children of the trie are not its root. -/
def Rooted (t : Trie) : Prop := ∀ current c v, (t.node current).child c = some v → v ≠ 0

theorem rooted_ofWords (words : List (List UInt8)) : Rooted (Trie.ofWords words) := by
  obtain ⟨path, hl, -⟩ := Trie.insertAll_spec
    (words.map fun w => Trie.symbolsFrom w w.length 0) Trie.empty_labelled Trie.empty_holds
  rintro current c v hchild rfl
  by_cases hlt : current < (Trie.ofWords words).nodes.length
  · obtain ⟨-, hpath⟩ := (hl.child_iff hlt).mp hchild
    rw [hl.root] at hpath
    exact absurd hpath.symm (List.append_ne_nil_of_right_ne_nil _ (List.cons_ne_nil _ _))
  · have hempty : (Trie.ofWords words).node current = .empty :=
      List.getD_eq_default _ _ (not_lt.mp hlt)
    rw [hempty] at hchild
    cases hchild

variable {t : Trie}

theorem checkFrom_follows (hpre : u <+: w) (hroot : Rooted t) {n n' current : ℕ}
    (hn : u.length < pos + n) (hn' : w.length < pos + n')
    (hstart : current ≠ 0 ∨ (parseUtf8Codepoint u pos).status = .success)
    (h : t.checkFrom u n current pos ≠ .partialMatch) :
    t.checkFrom w n' current pos = t.checkFrom u n current pos := by
  have hlen := hpre.length_le
  have hsuccess : ∀ {pos}, (parseUtf8Codepoint u pos).status = .success →
      (parseUtf8Codepoint u pos).status ≠ .incomplete :=
    fun hs hinc => Utf8Status.noConfusion (hs.symm.trans hinc)
  induction n generalizing n' current pos with
  | zero =>
    obtain hne | hs := hstart
    · rw [Trie.checkFrom, if_pos hne] at h
      exact absurd rfl h
    · have := lt_of_parseUtf8Codepoint (hsuccess hs)
      omega
  | succ n ih =>
    rw [Trie.checkFrom] at h ⊢
    by_cases hs : (parseUtf8Codepoint u pos).status = .success
    · have hlt := lt_of_parseUtf8Codepoint (hsuccess hs)
      obtain ⟨hone, hle⟩ := parseUtf8Codepoint_consumed hlt
      cases n' with
      | zero => omega
      | succ n' =>
        rw [Trie.checkFrom, parseUtf8Codepoint_stable hpre (hsuccess hs)]
        rw [if_neg (not_not_intro hs)] at h ⊢
        rw [if_neg (not_not_intro hs)]
        cases hchild : (t.node current).child (parseUtf8Codepoint u pos).codepoint with
        | none => rfl
        | some v =>
          simp only [hchild] at h ⊢
          by_cases hpat : (t.node v).pattern = none
          · rw [if_neg (not_not_intro hpat)] at h ⊢
            rw [if_neg (not_not_intro hpat)]
            exact ih (by omega) (by omega) (Or.inl (hroot _ _ _ hchild)) h
          · rw [if_pos hpat, if_pos hpat]
    · have hne := hstart.resolve_right hs
      rw [if_pos hs, if_pos hne] at h
      exact absurd rfl h

theorem untilFrom_follows (hpre : u <+: w) (hroot : Rooted t) {n n' : ℕ}
    {invalid invalid' : List (ℕ × ℕ)} (h : InStep u.length pos pos') (hn : u.length < pos + n)
    (hn' : w.length < pos' + n') (hcare : UntilCareful u w t n pos) :
    Follows u.length (untilFrom u true start t n pos pos invalid)
      (untilFrom w false start' t n' pos' pos' invalid') := by
  induction n generalizing pos pos' n' invalid invalid' with
  | zero => exact absurd h.le (by omega)
  | succ n ih =>
    rw [untilFrom]
    by_cases hlt : pos < u.length
    · have hlen := hpre.length_le
      have hcare := hcare hlt
      rw [h.eq_of_lt hlt] at hn' ⊢
      rw [if_pos hlt]
      dsimp only
      by_cases hinc : (parseUtf8Codepoint u pos).status = .incomplete
      · rw [if_pos ⟨hinc, rfl⟩]
        exact follows_needMore _
      · obtain ⟨hone, hle⟩ := parseUtf8Codepoint_consumed hlt
        have hcare := hcare hinc
        cases n' with
        | zero => omega
        | succ n' =>
          have hfalse : ¬ ((parseUtf8Codepoint u pos).status = .incomplete ∧ false = true) :=
            fun h => Bool.false_ne_true h.2
          rw [untilFrom, if_pos (hlt.trans_le hlen), parseUtf8Codepoint_stable hpre hinc]
          dsimp only
          rw [if_neg fun h => hinc h.1, if_neg hfalse]
          by_cases hs : (parseUtf8Codepoint u pos).status = .success
          · rw [if_neg (not_not_intro hs)] at hcare
            rw [if_neg (not_not_intro hs), if_neg (not_not_intro hs)]
            have hcheck : t.checkAt u pos ≠ .partialMatch → t.checkAt w pos = t.checkAt u pos :=
              checkFrom_follows hpre hroot (by omega) (by omega) (Or.inr hs)
            cases hu : t.checkAt u pos with
            | completeMatch =>
              rw [hcheck (hu ▸ MatchResult.noConfusion), hu]
              exact follows_success (inStep_of_le hlt.le)
            | partialMatch =>
              rw [hu] at hcare
              cases hw : t.checkAt w pos with
              | noMatch => exact absurd hw hcare
              | partialMatch => exact follows_success (inStep_of_le hlt.le)
              | completeMatch => exact follows_success (inStep_of_le hlt.le)
            | noMatch =>
              rw [hu] at hcare
              rw [hcheck (hu ▸ MatchResult.noConfusion), hu]
              exact ih (inStep_of_le hle) (by omega) (by omega) hcare
          · rw [if_pos hs] at hcare
            rw [if_pos hs, if_pos hs]
            exact ih (inStep_of_le hle) (by omega) (by omega) hcare
    · have hend : pos = u.length := le_antisymm h.le (not_lt.mp hlt)
      rw [if_neg hlt, untilFinish, if_pos ⟨hend, rfl⟩]
      exact follows_needMore _

/-! ## Parsers with children -/

section

variable {run run' : ℕ → ℕ → Except Abort ParseResult} {good : ℕ → ℕ → Prop} {r r' : ParseResult}

/-- Careful runs of the children follow those of the full text. -/
def RunFollows (size : ℕ) (good : ℕ → ℕ → Prop)
    (run run' : ℕ → ℕ → Except Abort ParseResult) : Prop :=
  ∀ id pos pos' r r', InStep size pos pos' → good id pos → run id pos = .ok r →
    run' id pos' = .ok r' → Follows size r r'

theorem sequenceFrom_follows (hrun : RunFollows size good run run') {children : List ℕ}
    {nodes nodes' : List AstNode} {invalid invalid' : List (ℕ × ℕ)} (h : InStep size pos pos')
    (hcare : SequenceCareful run good children pos)
    (hr : sequenceFrom run start children pos nodes invalid = .ok r)
    (hr' : sequenceFrom run' start' children pos' nodes' invalid' = .ok r') :
    Follows size r r' := by
  induction children generalizing pos pos' nodes nodes' invalid invalid' with
  | nil =>
    cases hr
    cases hr'
    exact follows_success h
  | cons child children ih =>
    obtain ⟨hchild, hrest⟩ := hcare
    rw [sequenceFrom] at hr hr'
    obtain ⟨x, hx, hr⟩ := bind_eq_ok hr
    obtain ⟨y, hy, hr'⟩ := bind_eq_ok hr'
    have hf := hrun child pos pos' x y h hchild hx hy
    cases ht : x.type with
    | needMoreInput =>
      rw [ht] at hr
      cases hr
      exact follows_needMore _
    | fail =>
      rw [ht] at hr
      rw [hf.fail ht] at hr'
      cases hr
      cases hr'
      exact follows_fail rfl
    | success =>
      obtain ⟨ht', hstop⟩ := hf.success ht
      rw [ht] at hr
      rw [ht'] at hr'
      exact ih hstop (hrest x hx ht) hr hr'

theorem choiceFrom_follows (hrun : RunFollows size good run run') {children : List ℕ}
    (h : InStep size pos pos') (hcare : ChoiceCareful run good pos children)
    (hr : choiceFrom run pos children = .ok r) (hr' : choiceFrom run' pos' children = .ok r') :
    Follows size r r' := by
  induction children with
  | nil =>
    cases hr
    cases hr'
    exact follows_fail rfl
  | cons child children ih =>
    obtain ⟨hchild, hrest⟩ := hcare
    rw [choiceFrom] at hr hr'
    obtain ⟨x, hx, hr⟩ := bind_eq_ok hr
    obtain ⟨y, hy, hr'⟩ := bind_eq_ok hr'
    have hf := hrun child pos pos' x y h hchild hx hy
    cases ht : x.type with
    | needMoreInput =>
      rw [ht, if_pos (by decide)] at hr
      cases hr
      exact follows_of_needMore ht
    | fail =>
      rw [ht, if_neg (not_not_intro rfl)] at hr
      rw [hf.fail ht, if_neg (not_not_intro rfl)] at hr'
      exact ih (hrest x hx ht) hr hr'
    | success =>
      rw [ht, if_pos (by decide)] at hr
      rw [(hf.success ht).1, if_pos (by decide)] at hr'
      cases hr
      cases hr'
      exact hf

theorem repetitionFinish_follows {minCount : ℤ} {count : ℕ} {nodes nodes' : List AstNode}
    {invalid invalid' : List (ℕ × ℕ)} (h : InStep u.length pos pos') :
    Follows u.length (repetitionFinish u true start minCount pos count nodes invalid)
      (repetitionFinish w false start' minCount pos' count nodes' invalid') := by
  rw [repetitionFinish, repetitionFinish]
  by_cases hcount : 0 < minCount ∧ (count : ℤ) < minCount
  · have hfalse : ¬ (w.length ≤ pos' ∧ false = true) := fun h => Bool.false_ne_true h.2
    rw [if_pos hcount, if_pos hcount, if_neg hfalse]
    split_ifs
    · exact follows_needMore _
    · exact follows_fail rfl
  · rw [if_neg hcount, if_neg hcount]
    exact follows_success h

theorem repetitionFrom_follows (hlen : u.length ≤ w.length)
    (hrun : RunFollows u.length good run run') (hsettled : RunSettled run')
    {child n n' count : ℕ} {minCount maxCount : ℤ}
    {nodes nodes' : List AstNode} {invalid invalid' : List (ℕ × ℕ)} (h : InStep u.length pos pos')
    (hcare : RepetitionCareful run good u.length child maxCount n pos count)
    (hr : repetitionFrom run u true start child minCount maxCount n pos count nodes invalid = .ok r)
    (hr' : repetitionFrom run' w false start' child minCount maxCount n' pos' count nodes' invalid' =
      .ok r') : Follows u.length r r' := by
  induction n generalizing pos pos' n' count nodes nodes' invalid invalid' with
  | zero => cases hr
  | succ n ih =>
    cases n' with
    | zero => cases hr'
    | succ n' =>
      rw [repetitionFrom] at hr
      by_cases hmore : maxCount = -1 ∨ (count : ℤ) < maxCount
      · rw [if_pos hmore] at hr
        by_cases hend : u.length ≤ pos
        · -- the prefix is used up; the full text may go on repeating
          rw [if_pos hend] at hr
          cases hr
          have hpos : pos = u.length := le_antisymm h.le hend
          have hle : u.length ≤ pos' := h.elim (fun h => h.1 ▸ hend) fun h => h.2
          by_cases hcount : 0 < minCount ∧ (count : ℤ) < minCount
          · rw [repetitionFinish, if_pos hcount, if_pos ⟨hend, rfl⟩]
            exact follows_needMore _
          · have ht := repetitionFrom_enough hsettled hcount hr'
            rw [repetitionFinish, if_neg hcount]
            exact ⟨fun _ => ⟨ht, Or.inr ⟨hpos,
              hle.trans ((repetitionFrom_settled hsettled hr').2 ht)⟩⟩, ResultType.noConfusion⟩
        · have hlt := not_le.mp hend
          rw [if_neg hend] at hr
          rw [h.eq_of_lt hlt, repetitionFrom, if_pos hmore,
            if_neg (not_le.mpr (hlt.trans_le hlen))] at hr'
          obtain ⟨hchild, hrest⟩ := hcare hmore hlt
          obtain ⟨x, hx, hr⟩ := bind_eq_ok hr
          obtain ⟨y, hy, hr'⟩ := bind_eq_ok hr'
          have hf := hrun child pos pos x y (inStep_of_le hlt.le) hchild hx hy
          cases ht : x.type with
          | needMoreInput =>
            rw [ht] at hr
            cases hr
            exact follows_needMore _
          | fail =>
            rw [ht] at hr
            rw [hf.fail ht] at hr'
            cases hr
            cases hr'
            exact repetitionFinish_follows (inStep_of_le hlt.le)
          | success =>
            obtain ⟨ht', hstop⟩ := hf.success ht
            rw [ht] at hr
            rw [ht'] at hr'
            dsimp only at hr hr'
            by_cases hempty : x.stop = pos
            · have hempty' : y.stop = pos := (hstop.eq_of_lt (hempty ▸ hlt)).trans hempty
              rw [if_pos hempty] at hr
              rw [if_pos hempty'] at hr'
              cases hr
              cases hr'
              exact repetitionFinish_follows (inStep_of_le hlt.le)
            · have hempty' : y.stop ≠ pos := by
                obtain ⟨heq, -⟩ | ⟨-, hle⟩ := hstop
                · exact heq ▸ hempty
                · exact (hlt.trans_le hle).ne'
              rw [if_neg hempty] at hr
              rw [if_neg hempty'] at hr'
              exact ih hstop (hrest x hx ht hempty) hr hr'
      · rw [if_neg hmore] at hr
        rw [repetitionFrom, if_neg hmore] at hr'
        cases hr
        cases hr'
        exact repetitionFinish_follows h

theorem Follows.withNode (h : Follows size r r') {rule tag : String} :
    Follows size (withNode u rule tag r) (withNode w rule tag r') := by
  refine ⟨fun hs => ?_, fun hf => ?_⟩
  · rw [withNode_type] at hs
    rw [withNode_type, withNode_stop, withNode_stop]
    exact h.success hs
  · rw [withNode_type] at hf
    rw [withNode_type]
    exact h.fail hf

end

end

/-! ## The arena -/

namespace Arena

variable {a : Arena} {u w : List UInt8}

/-- No lookahead and no anchors. -/
def Plain (a : Arena) : Prop := ∀ p ∈ a.parsers, p.Plain

theorem parseAt_follows (hplain : a.Plain) (hpre : u <+: w) (n n' : ℕ) :
    RunFollows u.length (a.CarefulAt u w n) (a.parseAt u true n) (a.parseAt w false n') := by
  induction n generalizing n' with
  | zero => exact fun _ _ _ _ _ _ _ h => nomatch h
  | succ n ih =>
    cases n' with
    | zero => exact fun _ _ _ _ _ _ _ _ h => nomatch h
    | succ n' =>
      intro id pos pos' r r' h hcare hr hr'
      rw [parseAt] at hr hr'
      rw [CarefulAt] at hcare
      have hlen := hpre.length_le
      cases hp : a.parsers[id]? with
      | none =>
        rw [hp] at hr
        cases hr
      | some p =>
        rw [hp] at hr hr' hcare
        have hp := hplain p (List.mem_of_getElem? hp)
        cases p with
        | literal cs =>
          cases hr
          cases hr'
          exact literalFrom_follows hpre cs h
        | sequence children => exact sequenceFrom_follows (ih n') h hcare hr hr'
        | choice children => exact choiceFrom_follows (ih n') h hcare hr hr'
        | repetition child minCount maxCount =>
          exact repetitionFrom_follows hlen (ih n') (a.parseAt_settled n') h hcare hr hr'
        | any =>
          cases hr
          cases hr'
          exact parseAny_follows hpre h
        | space =>
          cases hr
          cases hr'
          exact parseSpace_follows hpre h
        | chars p =>
          cases hr
          cases hr'
          exact CharsParser.parseFrom_follows hpre h (by omega) (by omega) hcare
        | string delimiter =>
          cases hr
          cases hr'
          exact stringFrom_follows hpre delimiter h (by omega)
        | «until» delimiters =>
          cases hr
          cases hr'
          exact untilFrom_follows hpre (rooted_ofWords delimiters) h (by omega) (by omega) hcare
        | rule name child =>
          obtain ⟨x, hx, hr⟩ := bind_eq_ok hr
          obtain ⟨y, hy, hr'⟩ := bind_eq_ok hr'
          cases hr
          cases hr'
          exact (ih n' _ _ _ _ _ h hcare hx hy).withNode
        | tag child tag =>
          obtain ⟨x, hx, hr⟩ := bind_eq_ok hr
          obtain ⟨y, hy, hr'⟩ := bind_eq_ok hr'
          cases hr
          cases hr'
          exact (ih n' _ _ _ _ _ h hcare hx hy).withNode
        | ref name =>
          cases hl : a.rules.lookup name with
          | none =>
            simp only [hl] at hr
            cases hr
          | some child =>
            simp only [hl] at hr hr'
            exact ih n' _ _ _ _ _ h (hcare child hl) hr hr'
        | atomic child =>
          obtain ⟨x, hx, hr⟩ := bind_eq_ok hr
          obtain ⟨y, hy, hr'⟩ := bind_eq_ok hr'
          have hf := ih n' _ _ _ _ _ h hcare hx hy
          rw [if_neg (a.parseAt_settled n' _ _ _ hy).1] at hr'
          cases hr'
          by_cases ht : x.type = .needMoreInput
          · rw [if_pos ht] at hr
            cases hr
            exact follows_of_needMore ht
          · rw [if_neg ht] at hr
            cases hr
            exact hf
        | epsilon => exact hp.elim
        | start => exact hp.elim
        | finish => exact hp.elim
        | and child => exact hp.elim
        | not child => exact hp.elim
        | schema child => exact hp.elim
        | gbnf child => exact hp.elim
        | ac child => exact hp.elim

/-- The lenient parse of a prefix of an accepted text does not fail, as long as no parser stops early
at an incomplete character or delimiter that the full text goes past. -/
theorem lenient_not_fail (hplain : a.Plain) (hpre : u <+: w) {n n' : ℕ} {r r' : ParseResult}
    (hw : a.parse w false n' = .ok r') (haccepted : r'.type = .success) (hcare : a.Careful u w n)
    (hu : a.parse u true n = .ok r) : r.type ≠ .fail := by
  intro hfail
  rw [parse] at hw hu
  cases hroot : a.root with
  | none =>
    rw [hroot] at hu
    cases hu
  | some root =>
    rw [hroot] at hw hu
    have hf := parseAt_follows hplain hpre n n' root 0 0 r r' (inStep_of_le (Nat.zero_le _))
      (hcare root hroot) hu hw
    exact ResultType.noConfusion (haccepted.symm.trans (hf.fail hfail))

/-- One or more characters up to a line feed, and the line feed. -/
def line : Arena where
  parsers := [.sequence [1, 2], .chars ⟨[⟨10, 10⟩], true, 1, -1⟩, .literal [10]]
  rules := []
  root := some 0

theorem line_plain : line.Plain := by
  intro p hp
  simp only [line, List.mem_cons, List.not_mem_nil, or_false] at hp
  obtain rfl | rfl | rfl := hp <;> trivial

/-- The line `aé`, cut behind the `é`. -/
theorem lenient_not_fail_line : ∃ r, line.parse [97, 0xC3, 0xA9] true 2 = .ok r ∧ r.type ≠ .fail := by
  obtain ⟨r, hu⟩ : ∃ r, line.parse [97, 0xC3, 0xA9] true 2 = .ok r := ⟨_, rfl⟩
  obtain ⟨r', hw, haccepted⟩ : ∃ r', line.parse [97, 0xC3, 0xA9, 10] false 2 = .ok r' ∧
      r'.type = .success := ⟨_, rfl, rfl⟩
  refine ⟨r, hu, lenient_not_fail line_plain ⟨[10], rfl⟩ hw haccepted ?_ hu⟩
  intro root hroot
  cases hroot
  refine ⟨?_, fun _ _ _ => ⟨trivial, fun _ _ _ => trivial⟩⟩
  -- the class is left at the end of the prefix
  exact fun _ _ _ _ _ (h : 3 < 3) => absurd h (lt_irrefl 3)

/-- The line `aé`, cut inside the `é`: the class is left in front of the incomplete character, and the
line feed does not match its first byte. -/
theorem line_cut_inside : line.Plain ∧ [97, 0xC3] <+: ([97, 0xC3, 0xA9, 10] : List UInt8) ∧
    (∃ r, line.parse [97, 0xC3, 0xA9, 10] false 2 = .ok r ∧ r.type = .success) ∧
      ∃ r, line.parse [97, 0xC3] true 2 = .ok r ∧ r.type = .fail :=
  ⟨line_plain, ⟨[0xA9, 10], rfl⟩, ⟨_, rfl, rfl⟩, ⟨_, rfl, rfl⟩⟩

end Arena

end RocmFpx.Peg
