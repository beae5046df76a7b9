import RocmFpx.TextTokenizer

/-!
Stop strings of the server. The text of a slot grows by the piece of each token. It is searched
whenever it does not end inside of a character, in a window behind the text that was sent, and text
that may be the beginning of a stop string is not sent yet.
-/

namespace RocmFpx
namespace StopStrings

open MergeTokenizer

/-! ## Texts -/

/-- The length of a character of several bytes, from its first. -/
def charLength (c : UInt8) : Option ℕ :=
  if c &&& 0xE0 = 0xC0 then some 2
  else if c &&& 0xF0 = 0xE0 then some 3
  else if c &&& 0xF8 = 0xF0 then some 4
  else none

/-- The loop of `validate_utf8` from the last byte back: where a character begins that is cut off. -/
def cutOff : ℕ → List UInt8 → Option ℕ
  | _, [] => none
  | i, c :: rest =>
    if 4 < i then none
    else if (charLength c).any fun n => i < n then some i
    else cutOff (i + 1) rest

def validateUtf8 (text : List UInt8) : ℕ :=
  match cutOff 1 text.reverse with
  | some i => text.length - i
  | none => text.length

def incomplete (text : List UInt8) : Bool := validateUtf8 text < text.length

def partialStopFrom (str stop : List UInt8) : ℕ → Option ℕ
  | 0 => none
  | n + 1 =>
    if stop[n]? = str.getLast? ∧ stop.take (n + 1) <:+ str then some (str.length - (n + 1))
    else partialStopFrom str stop n

/-- `string_find_partial_stop`: where the longest beginning of `stop` is that ends the text. -/
def stringFindPartialStop (str stop : List UInt8) : Option ℕ :=
  if str ≠ [] ∧ stop ≠ [] then partialStopFrom str stop (min str.length stop.length) else none

theorem getLast?_of_suffix {str stop : List UInt8} {n : ℕ} (hn : n < stop.length)
    (h : stop.take (n + 1) <:+ str) : stop[n]? = str.getLast? := by
  obtain ⟨t, rfl⟩ := h
  rw [List.take_succ_eq_append_getElem hn, ← List.append_assoc, List.getLast?_concat,
    List.getElem?_eq_getElem hn]

theorem partialStopFrom_none {str stop : List UInt8} {m : ℕ}
    (h : partialStopFrom str stop m = none) {n : ℕ} (hpos : 0 < n) (hm : n ≤ m)
    (hn : n ≤ stop.length) : ¬ stop.take n <:+ str := by
  induction m with
  | zero => omega
  | succ m ih =>
    rw [partialStopFrom] at h
    split_ifs at h with hstop
    rcases Nat.lt_or_ge m n with hlt | hle
    · obtain rfl : n = m + 1 := by omega
      exact fun hsuffix => hstop ⟨getLast?_of_suffix hn hsuffix, hsuffix⟩
    · exact ih h hle

theorem stringFindPartialStop_none {str stop : List UInt8}
    (h : stringFindPartialStop str stop = none) {n : ℕ} (hpos : 0 < n) (hn : n ≤ stop.length) :
    ¬ stop.take n <:+ str := by
  intro hsuffix
  have hlen : n ≤ str.length := by
    have := hsuffix.length_le
    rwa [List.length_take, Nat.min_eq_left hn] at this
  rw [stringFindPartialStop, if_pos ⟨List.length_pos_iff.mp (hpos.trans_le hlen),
    List.length_pos_iff.mp (hpos.trans_le hn)⟩] at h
  exact partialStopFrom_none h hpos (Nat.le_min.mpr ⟨hlen, hn⟩) hn hsuffix

/-! ## Slots -/

/-- `STOP_TYPE_*` -/
inductive StopType where
  | none
  | eos
  | word
  | limit
  deriving DecidableEq

/-- What a task and the server set for a generation. -/
structure Params where
  antiprompt : List (List UInt8)
  nPredictMax : ℤ
  nIndent : ℤ
  tMaxPredictMs : ℚ
  ctxShift : Bool
  nCtx : ℕ

/-- `completion_token_output`, and what the limits read when it is processed. -/
structure TokenOutput where
  textToSend : List UInt8
  isEog : Bool
  nTokens : ℕ
  nGen : ℕ
  tGenMs : ℚ

structure Slot where
  generated : List UInt8
  nSentText : ℕ
  lastNlPos : ℕ
  hasNextToken : Bool
  hasNewLine : Bool
  truncated : Bool
  stop : StopType
  stoppingWord : List UInt8
  deriving DecidableEq

/-- `reset`. -/
def Slot.reset : Slot := ⟨[], 0, 0, true, false, false, .none, []⟩

/-- `common_chat_input::truncate`. -/
def Slot.truncate (slot : Slot) (pos : ℕ) : Slot :=
  { slot with generated := slot.generated.take pos }

/-- Where `find_stopping_strings` finds one word. -/
def findStop (text : List UInt8) (lastTokenSize : ℕ) (isFullStop : Bool) (word : List UInt8) :
    Option ℕ :=
  if isFullStop then findFrom text word (text.length - (word.length + lastTokenSize))
  else stringFindPartialStop text word

/-- `pos != npos && (stop_pos == npos || pos < stop_pos)` -/
def earlier (pos stopPos : Option ℕ) : Bool :=
  pos.any fun pos => stopPos.all fun stopPos => pos < stopPos

/-- The loop of `find_stopping_strings`. -/
def stopLoop (text : List UInt8) (lastTokenSize : ℕ) (isFullStop : Bool) :
    List (List UInt8) → Option ℕ → Slot → Option ℕ × Slot
  | [], stopPos, slot => (stopPos, slot)
  | word :: words, stopPos, slot =>
    let pos := findStop text lastTokenSize isFullStop word
    if earlier pos stopPos then
      stopLoop text lastTokenSize isFullStop words pos
        (if isFullStop then
          { slot with stop := .word, stoppingWord := word, hasNextToken := false }
        else slot)
    else stopLoop text lastTokenSize isFullStop words stopPos slot

def findStoppingStrings (params : Params) (slot : Slot) (text : List UInt8) (lastTokenSize : ℕ)
    (isFullStop : Bool) : Option ℕ × Slot :=
  stopLoop text lastTokenSize isFullStop params.antiprompt none slot

/-! ## `process_token` -/

/-- The text from `pos` on is sent. -/
def send (slot : Slot) (pos : ℕ) : Slot × List UInt8 :=
  let textToSend := slot.generated.drop pos
  ({ slot with nSentText := slot.nSentText + textToSend.length }, textToSend)

/-- `search stop word and delete it`: the slot and the text to send. -/
def searchStop (params : Params) (slot : Slot) (result : TokenOutput) : Slot × List UInt8 :=
  let pos := min slot.nSentText slot.generated.length
  let strTest := slot.generated.drop pos
  match findStoppingStrings params slot strTest result.textToSend.length true with
  | (some stopPos, slot) =>
    let slot := slot.truncate (pos + stopPos)
    send slot (min slot.nSentText slot.generated.length)
  | (none, slot) =>
    if slot.hasNextToken && !result.isEog then
      match findStoppingStrings params slot strTest result.textToSend.length false with
      | (some _, slot) => (slot, [])
      | (none, slot) => send slot pos
    else send slot pos

def limitContext (params : Params) (result : TokenOutput) (slot : Slot) : Slot :=
  if !params.ctxShift && params.nCtx ≤ result.nTokens + 1 then
    { slot with truncated := true, stop := .limit, hasNextToken := false }
  else slot

def hasBudget (params : Params) (result : TokenOutput) : Bool :=
  params.nPredictMax == -1 || 0 < params.nPredictMax - result.nGen

def limitBudget (params : Params) (result : TokenOutput) (slot : Slot) : Slot :=
  if 0 < result.nGen && slot.hasNextToken && !hasBudget params result then
    { slot with stop := .limit, hasNextToken := false }
  else slot

/-- How many spaces and tabs a text begins with. -/
def indentation (text : List UInt8) : ℕ := (text.takeWhile fun c => c == 0x20 || c == 9).length

/-- The indentation behind the last new line; the last line is cut if there is too little. -/
def cutLine (params : Params) (slot : Slot) : Slot :=
  let nIndent := indentation (slot.generated.drop slot.lastNlPos)
  let pos := slot.lastNlPos + nIndent
  if 0 < slot.lastNlPos && pos < slot.generated.length && (nIndent : ℤ) < params.nIndent then
    { slot with stop := .limit, hasNextToken := false }.truncate pos
  else slot

/-- Find the next new line. -/
def nextLine (slot : Slot) : Slot :=
  match findFrom slot.generated [10] slot.lastNlPos with
  | some pos => { slot with lastNlPos := pos + 1 }
  | none => slot

def limitIndent (params : Params) (slot : Slot) : Slot :=
  if slot.hasNewLine && 0 < params.nIndent then nextLine (cutLine params slot) else slot

def limitTime (params : Params) (result : TokenOutput) (textToSend : List UInt8) (slot : Slot) :
    Slot :=
  if (findFrom textToSend [10] 0).isSome then
    if 0 < params.tMaxPredictMs && params.tMaxPredictMs < result.tGenMs then
      { slot with hasNewLine := true, stop := .limit, hasNextToken := false }
    else { slot with hasNewLine := true }
  else slot

def limitEog (result : TokenOutput) (slot : Slot) : Slot :=
  if result.isEog then { slot with stop := .eos, hasNextToken := false } else slot

/-- What follows the search for stop strings. -/
def limits (params : Params) (result : TokenOutput) (textToSend : List UInt8) (slot : Slot) :
    Slot :=
  limitEog result (limitTime params result textToSend (limitIndent params
    (limitBudget params result (limitContext params result slot))))

def processToken (params : Params) (slot : Slot) (result : TokenOutput) : Slot :=
  let slot :=
    { slot with generated := slot.generated ++ result.textToSend, hasNextToken := true }
  if incomplete slot.generated then
    limits params result result.textToSend { slot with hasNextToken := true }
  else
    let (slot, textToSend) := searchStop params slot result
    limits params result textToSend slot

/-- The tokens of a generation are processed as long as there is a next one. -/
def processTokens (params : Params) : Slot → List TokenOutput → Slot
  | slot, [] => slot
  | slot, result :: results =>
    let slot := processToken params slot result
    if slot.hasNextToken then processTokens params slot results else slot

/-! ## Occurrences -/

/-- A stop string begins at `p`. -/
def Occurs (stops : List (List UInt8)) (text : List UInt8) (p : ℕ) : Prop :=
  ∃ w ∈ stops, w <+: text.drop p

/-- No stop string has begun in what is sent without coming to its end there. -/
def Held (stops : List (List UInt8)) (sent : List UInt8) : Prop :=
  ∀ w ∈ stops, ∀ p < sent.length, sent.drop p <+: w → w.length ≤ (sent.drop p).length

section
variable {stops : List (List UInt8)} {w old piece : List UInt8} {n p : ℕ}

theorem length_of_prefix_drop {text : List UInt8} (hw : w ≠ []) (h : w <+: text.drop p) :
    p + w.length ≤ text.length := by
  have hlen := h.length_le
  have hpos := List.length_pos_iff.mpr hw
  rw [List.length_drop] at hlen
  omega

/-- A stop string that is new in the text ends in the last piece. -/
theorem old_lt_of_occurs (hclean : ∀ p, ¬ Occurs stops old p) (hmem : w ∈ stops)
    (h : w <+: (old ++ piece).drop p) : old.length < p + w.length := by
  by_contra hle
  have hend : p + w.length ≤ old.length := Nat.le_of_not_lt hle
  refine hclean p ⟨w, hmem, ?_⟩
  rw [List.drop_append_of_le_length (by omega)] at h
  exact List.prefix_of_prefix_length_le h (List.prefix_append _ _) (by rw [List.length_drop]; omega)

theorem sent_le_of_occurs (hclean : ∀ p, ¬ Occurs stops old p) (hn : n ≤ old.length)
    (hheld : Held stops (old.take n)) (hmem : w ∈ stops) (h : w <+: (old ++ piece).drop p) :
    n ≤ p := by
  by_contra hlt
  have hend := old_lt_of_occurs hclean hmem h
  have hsent : (old.take n).drop p <+: (old ++ piece).drop p :=
    ((List.take_prefix n old).trans (List.prefix_append _ _)).drop p
  have hlen : ((old.take n).drop p).length = n - p := by
    rw [List.length_drop, List.length_take, Nat.min_eq_left hn]
  have hbegun := List.prefix_of_prefix_length_le hsent h (by omega)
  have := hheld w hmem p (by rw [List.length_take]; omega) hbegun
  omega

theorem held_of_no_partial {text : List UInt8} (hn : n ≤ text.length)
    (hheld : Held stops (text.take n))
    (hpart : ∀ w ∈ stops, stringFindPartialStop (text.drop n) w = none) : Held stops text := by
  intro w hmem p hp hbegun
  by_contra hlt
  rcases Nat.lt_or_ge p n with hpn | hnp
  · have hsent : (text.take n).drop p <+: text.drop p := (List.take_prefix n text).drop p
    have hlen := hheld w hmem p (by rw [List.length_take]; omega) (hsent.trans hbegun)
    have := hsent.length_le
    omega
  · have htake : text.drop p = w.take (text.drop p).length := List.prefix_iff_eq_take.mp hbegun
    have hsuffix : text.drop p <:+ text.drop n := by
      rw [← Nat.add_sub_cancel' hnp, ← List.drop_drop]
      exact List.drop_suffix _ _
    rw [htake] at hsuffix
    exact stringFindPartialStop_none (hpart w hmem) (by rw [List.length_drop]; omega) (by omega)
      hsuffix

end

/-! ## The search -/

section
variable {text : List UInt8} {size p : ℕ} {full : Bool} {words : List (List UInt8)}
  {stopPos : Option ℕ} {slot slot' : Slot}

theorem stopLoop_none (h : stopLoop text size full words stopPos slot = (none, slot')) :
    stopPos = none ∧ slot' = slot ∧ ∀ w ∈ words, findStop text size full w = none := by
  induction words generalizing stopPos slot with
  | nil =>
    obtain ⟨rfl, rfl⟩ := Prod.mk.inj h
    exact ⟨rfl, rfl, fun w hw => absurd hw List.not_mem_nil⟩
  | cons word words ih =>
    rw [stopLoop] at h
    split_ifs at h with hearlier hfull
    · rw [(ih h).1] at hearlier
      exact absurd hearlier (by simp [earlier])
    · rw [(ih h).1] at hearlier
      exact absurd hearlier (by simp [earlier])
    · obtain ⟨rfl, rfl, hnone⟩ := ih h
      refine ⟨rfl, rfl, List.forall_mem_cons.mpr ⟨?_, hnone⟩⟩
      cases hword : findStop text size full word with
      | none => rfl
      | some q =>
        rw [hword] at hearlier
        exact absurd rfl hearlier

theorem stopLoop_some (h : stopLoop text size full words stopPos slot = (some p, slot')) :
    (stopPos = some p ∨ ∃ w ∈ words, findStop text size full w = some p) ∧
      (∀ q, stopPos = some q → p ≤ q) ∧
      ∀ w ∈ words, ∀ q, findStop text size full w = some q → p ≤ q := by
  induction words generalizing stopPos slot with
  | nil =>
    obtain ⟨rfl, rfl⟩ := Prod.mk.inj h
    exact ⟨.inl rfl, fun q hq => (Option.some.inj hq).le, fun w hw => absurd hw List.not_mem_nil⟩
  | cons word words ih =>
    rw [stopLoop] at h
    by_cases hearlier : earlier (findStop text size full word) stopPos = true
    · rw [if_pos hearlier] at h
      obtain ⟨hattained, hstart, hleast⟩ := ih h
      refine ⟨.inr ?_, fun q hq => ?_, List.forall_mem_cons.mpr ⟨hstart, hleast⟩⟩
      · rcases hattained with hword | ⟨w, hw, hfound⟩
        · exact ⟨word, List.mem_cons_self, hword⟩
        · exact ⟨w, List.mem_cons_of_mem _ hw, hfound⟩
      · cases hword : findStop text size full word with
        | none => simp [earlier, hword] at hearlier
        | some r =>
          have hlt : r < q := by simpa [earlier, hword, hq] using hearlier
          exact (hstart r hword).trans hlt.le
    · rw [if_neg hearlier] at h
      obtain ⟨hattained, hstart, hleast⟩ := ih h
      refine ⟨hattained.imp_right ?_, hstart, List.forall_mem_cons.mpr ⟨fun r hr => ?_, hleast⟩⟩
      · rintro ⟨w, hw, hfound⟩
        exact ⟨w, List.mem_cons_of_mem _ hw, hfound⟩
      · cases hstop : stopPos with
        | none => simp [earlier, hr, hstop] at hearlier
        | some q =>
          have hle : q ≤ r := by simpa [earlier, hr, hstop] using hearlier
          exact (hstart q hstop).trans hle

theorem stopLoop_slot {r : Option ℕ}
    (h : stopLoop text size full words stopPos slot = (r, slot')) :
    slot'.generated = slot.generated ∧ slot'.nSentText = slot.nSentText := by
  induction words generalizing stopPos slot with
  | nil =>
    obtain ⟨-, rfl⟩ := Prod.mk.inj h
    exact ⟨rfl, rfl⟩
  | cons word words ih =>
    rw [stopLoop] at h
    split_ifs at h
    · obtain ⟨hgenerated, hsent⟩ := ih h
      exact ⟨hgenerated, hsent⟩
    · exact ih h
    · exact ih h

theorem stopLoop_stops (hstart : stopPos ≠ none → slot.stop = .word ∧ slot.hasNextToken = false)
    (h : stopLoop text size true words stopPos slot = (some p, slot')) :
    slot'.stop = .word ∧ slot'.hasNextToken = false := by
  induction words generalizing stopPos slot with
  | nil =>
    obtain ⟨rfl, rfl⟩ := Prod.mk.inj h
    exact hstart (Option.some_ne_none p)
  | cons word words ih =>
    rw [stopLoop, if_pos rfl] at h
    split_ifs at h
    · exact ih (fun _ => ⟨rfl, rfl⟩) h
    · exact ih hstart h

theorem stopLoop_partial : (stopLoop text size false words stopPos slot).2 = slot := by
  induction words generalizing stopPos with
  | nil => rfl
  | cons word words ih =>
    rw [stopLoop, if_neg Bool.false_ne_true]
    split_ifs
    · exact ih
    · exact ih

end

section
variable {stops : List (List UInt8)} {old piece : List UInt8} {n : ℕ} {slot slot' : Slot}

theorem window_le {w : List UInt8} {p : ℕ} (hn : n ≤ p) (hend : old.length < p + w.length) :
    ((old ++ piece).drop n).length - (w.length + piece.length) ≤ p - n := by
  rw [List.length_drop, List.length_append]
  omega

theorem stopLoop_clean (hclean : ∀ p, ¬ Occurs stops old p)
    (hn : n ≤ old.length) (hheld : Held stops (old.take n))
    (h : stopLoop ((old ++ piece).drop n) piece.length true stops none slot = (none, slot')) (p : ℕ) :
    ¬ Occurs stops (old ++ piece) p := by
  rintro ⟨w, hmem, hw⟩
  have hle := sent_le_of_occurs hclean hn hheld hmem hw
  have hend := old_lt_of_occurs hclean hmem hw
  have hnone := (stopLoop_none h).2.2 w hmem
  rw [findStop, if_pos rfl] at hnone
  refine findFrom_eq_none (Nat.sub_le _ _) hnone (p - n) (window_le hle hend) ?_
  rw [List.drop_drop, Nat.add_sub_cancel' hle]
  exact hw

theorem stopLoop_found (hclean : ∀ p, ¬ Occurs stops old p) (hn : n ≤ old.length)
    (hheld : Held stops (old.take n)) {q : ℕ}
    (h : stopLoop ((old ++ piece).drop n) piece.length true stops none slot = (some q, slot')) :
    IsLeast {p | Occurs stops (old ++ piece) p} (n + q) := by
  obtain ⟨hattained, -, hleast⟩ := stopLoop_some h
  constructor
  · obtain ⟨w, hmem, hfound⟩ := hattained.resolve_left (Option.some_ne_none q).symm
    rw [findStop, if_pos rfl] at hfound
    have hw := (findFrom_eq_some hfound).2.1
    rw [List.drop_drop] at hw
    exact ⟨w, hmem, hw⟩
  · rintro p ⟨w, hmem, hw⟩
    have hle := sent_le_of_occurs hclean hn hheld hmem hw
    have hend := old_lt_of_occurs hclean hmem hw
    have hw' : w <+: ((old ++ piece).drop n).drop (p - n) := by
      rwa [List.drop_drop, Nat.add_sub_cancel' hle]
    cases hfound : findStop ((old ++ piece).drop n) piece.length true w with
    | none =>
      rw [findStop, if_pos rfl] at hfound
      exact absurd hw' (findFrom_eq_none (Nat.sub_le _ _) hfound _ (window_le hle hend))
    | some r =>
      have hqr := hleast w hmem r hfound
      rw [findStop, if_pos rfl] at hfound
      have hrp := (findFrom_eq_some hfound).2.2 (p - n) (window_le hle hend) hw'
      omega

end

/-! ## One token -/

/-- What a slot has while the generation goes on. -/
structure Ready (params : Params) (text : List UInt8) (slot : Slot) : Prop where
  generated : slot.generated = text
  sent_le : slot.nSentText ≤ text.length
  held : Held params.antiprompt (text.take slot.nSentText)
  clean : ∀ p, ¬ Occurs params.antiprompt text p
  stop : slot.stop = .none
  next : slot.hasNextToken = true

section
variable {params : Params} {text : List UInt8} {slot : Slot} {result : TokenOutput}

def Slot.append (slot : Slot) (piece : List UInt8) : Slot :=
  { slot with generated := slot.generated ++ piece, hasNextToken := true }

theorem min_sent (h : Ready params text slot) (piece : List UInt8) :
    min slot.nSentText (text ++ piece).length = slot.nSentText :=
  Nat.min_eq_left (h.sent_le.trans (by rw [List.length_append]; omega))

theorem searchStop_found (h : Ready params text slot)
    (hocc : ∃ p, Occurs params.antiprompt (text ++ result.textToSend) p) :
    let slot' := (searchStop params (slot.append result.textToSend) result).1
    slot'.stop = .word ∧ slot'.hasNextToken = false ∧
      ∃ p, IsLeast {p | Occurs params.antiprompt (text ++ result.textToSend) p} p ∧
        slot'.generated = (text ++ result.textToSend).take p := by
  rw [searchStop, Slot.append, h.generated]
  dsimp only
  rw [min_sent h, findStoppingStrings]
  rcases hfind : stopLoop _ _ true params.antiprompt none _ with ⟨- | q, slot'⟩
  · obtain ⟨p, hp⟩ := hocc
    exact absurd hp (stopLoop_clean h.clean h.sent_le h.held hfind p)
  · have hleast := stopLoop_found h.clean h.sent_le h.held hfind
    obtain ⟨hstop, hnext⟩ := stopLoop_stops (fun he => absurd rfl he) hfind
    exact ⟨hstop, hnext, _, hleast, congrArg (List.take _) (stopLoop_slot hfind).1⟩

theorem searchStop_clean (h : Ready params text slot)
    (hclean : ∀ p, ¬ Occurs params.antiprompt (text ++ result.textToSend) p) :
    let slot' := (searchStop params (slot.append result.textToSend) result).1
    slot'.generated = text ++ result.textToSend ∧ slot'.stop = .none ∧
      slot'.hasNextToken = true ∧
      (result.isEog = false → Ready params (text ++ result.textToSend) slot') := by
  have hsent := h.sent_le
  have hlength : slot.nSentText ≤ (text ++ result.textToSend).length := by
    rw [List.length_append]
    omega
  have hheld : Held params.antiprompt ((text ++ result.textToSend).take slot.nSentText) := by
    rw [List.take_append_of_le_length h.sent_le]
    exact h.held
  have hsend : slot.nSentText + ((text ++ result.textToSend).drop slot.nSentText).length =
      (text ++ result.textToSend).length := by
    rw [List.length_drop]
    omega
  rw [searchStop, Slot.append, h.generated]
  dsimp only
  rw [min_sent h, findStoppingStrings]
  rcases hfind : stopLoop _ _ true params.antiprompt none _ with ⟨- | q, slot'⟩
  · obtain ⟨-, rfl, -⟩ := stopLoop_none hfind
    dsimp only
    cases heog : result.isEog with
    | true => exact ⟨rfl, h.stop, rfl, fun he => Bool.noConfusion he⟩
    | false =>
      rw [findStoppingStrings]
      rcases hpart : stopLoop _ _ false params.antiprompt none _ with ⟨- | q, slot'⟩
      · obtain ⟨-, rfl, hnone⟩ := stopLoop_none hpart
        have hall := held_of_no_partial hlength hheld hnone
        refine ⟨rfl, h.stop, rfl, fun _ => ⟨rfl, hsend.le, ?_, hclean, h.stop, rfl⟩⟩
        change Held params.antiprompt ((text ++ result.textToSend).take (slot.nSentText +
          ((text ++ result.textToSend).drop slot.nSentText).length))
        rwa [hsend, List.take_length]
      · obtain rfl : slot' = _ := (congrArg Prod.snd hpart).symm.trans stopLoop_partial
        exact ⟨rfl, h.stop, rfl, fun _ => ⟨rfl, hlength, hheld, hclean, h.stop, rfl⟩⟩
  · exact absurd (stopLoop_found h.clean h.sent_le h.held hfind).1 (hclean _)

theorem append_ready (h : Ready params text slot) {piece : List UInt8}
    (hclean : ∀ p, ¬ Occurs params.antiprompt (text ++ piece) p) :
    Ready params (text ++ piece) (slot.append piece) := by
  have hsent := h.sent_le
  refine ⟨congrArg (· ++ piece) h.generated, ?_, ?_, hclean, h.stop, rfl⟩
  · rw [List.length_append]
    exact hsent.trans (Nat.le_add_right _ _)
  · rw [Slot.append, List.take_append_of_le_length hsent]
    exact h.held

end

/-! ## The limits -/

/-- What a limit does to a slot: nothing of this, or it ends the generation. -/
inductive Limited (params : Params) (slot slot' : Slot) : Prop
  | same (hgenerated : slot'.generated = slot.generated) (hsent : slot'.nSentText = slot.nSentText)
      (hnext : slot'.hasNextToken = slot.hasNextToken) (hstop : slot'.stop = slot.stop)
  | ended (hgenerated : slot'.generated = slot.generated ∨
        0 < params.nIndent ∧ slot'.generated <+: slot.generated)
      (hnext : slot'.hasNextToken = false) (hstop : slot'.stop = .limit ∨ slot'.stop = .eos)

section
variable {params : Params} {slot slot' slot'' : Slot} {result : TokenOutput}

theorem Limited.refl (slot : Slot) : Limited params slot slot := .same rfl rfl rfl rfl

theorem Limited.trans (h : Limited params slot slot') (h' : Limited params slot' slot'') :
    Limited params slot slot'' := by
  cases h' with
  | same hgenerated hsent hnext hstop =>
    cases h with
    | same hg hs hn ht =>
      exact .same (hgenerated.trans hg) (hsent.trans hs) (hnext.trans hn) (hstop.trans ht)
    | ended hg hn ht => exact .ended (hgenerated ▸ hg) (hnext.trans hn) (hstop ▸ ht)
  | ended hgenerated hnext hstop =>
    refine .ended ?_ hnext hstop
    have hg : slot'.generated = slot.generated ∨
        0 < params.nIndent ∧ slot'.generated <+: slot.generated := by
      cases h with
      | same hg => exact .inl hg
      | ended hg => exact hg
    rcases hgenerated with he | ⟨hpos, hcut⟩
    · exact he ▸ hg
    · refine .inr ⟨hpos, ?_⟩
      rcases hg with he | ⟨-, hcut'⟩
      · exact he ▸ hcut
      · exact hcut.trans hcut'

theorem limitContext_limited : Limited params slot (limitContext params result slot) := by
  rw [limitContext]
  split_ifs
  · exact .ended (.inl rfl) rfl (.inl rfl)
  · exact .refl slot

theorem limitBudget_limited : Limited params slot (limitBudget params result slot) := by
  rw [limitBudget]
  split_ifs
  · exact .ended (.inl rfl) rfl (.inl rfl)
  · exact .refl slot

theorem cutLine_limited (hpos : 0 < params.nIndent) : Limited params slot (cutLine params slot) := by
  rw [cutLine]
  split_ifs
  · exact .ended (.inr ⟨hpos, List.take_prefix _ _⟩) rfl (.inl rfl)
  · exact .refl slot

theorem nextLine_limited : Limited params slot (nextLine slot) := by
  rw [nextLine]
  split
  · exact .same rfl rfl rfl rfl
  · exact .refl slot

theorem limitIndent_limited : Limited params slot (limitIndent params slot) := by
  rw [limitIndent]
  split_ifs with h
  · exact (cutLine_limited (of_decide_eq_true (Bool.and_eq_true_iff.mp h).2)).trans
      nextLine_limited
  · exact .refl slot

theorem limitTime_limited {textToSend : List UInt8} :
    Limited params slot (limitTime params result textToSend slot) := by
  rw [limitTime]
  split_ifs
  · exact .ended (.inl rfl) rfl (.inl rfl)
  · exact .same rfl rfl rfl rfl
  · exact .refl slot

theorem limitEog_limited : Limited params slot (limitEog result slot) := by
  rw [limitEog]
  split_ifs
  · exact .ended (.inl rfl) rfl (.inr rfl)
  · exact .refl slot

theorem limits_limited (params : Params) (result : TokenOutput) (textToSend : List UInt8)
    (slot : Slot) :
    Limited params slot (limits params result textToSend slot) :=
  limitContext_limited.trans (limitBudget_limited.trans (limitIndent_limited.trans
    (limitTime_limited.trans limitEog_limited)))

theorem limits_eog {textToSend : List UInt8}
    (h : (limits params result textToSend slot).hasNextToken = true) : result.isEog = false := by
  rw [limits, limitEog] at h
  split_ifs at h with heog
  exact Bool.eq_false_iff.mpr heog

theorem Limited.next (h : Limited params slot slot') (hnext : slot'.hasNextToken = true) :
    slot'.generated = slot.generated ∧ slot'.nSentText = slot.nSentText ∧
      slot.hasNextToken = true ∧ slot'.stop = slot.stop := by
  cases h with
  | same hg hs hn ht => exact ⟨hg, hs, hn ▸ hnext, ht⟩
  | ended _ hn => exact Bool.noConfusion (hn.symm.trans hnext)

theorem Ready.limited {text : List UInt8} (h : Ready params text slot)
    (hlimited : Limited params slot slot') (hnext : slot'.hasNextToken = true) :
    Ready params text slot' := by
  obtain ⟨hg, hs, -, ht⟩ := hlimited.next hnext
  refine ⟨hg.trans h.generated, hs ▸ h.sent_le, ?_, h.clean, ht.trans h.stop, hnext⟩
  rw [hs]
  exact h.held

end

/-! ## Generations -/

/-- What is left of a text, unless the limit on the indentation has cut it. -/
def Shows (params : Params) (slot : Slot) (text : List UInt8) : Prop :=
  slot.generated = text ∨ 0 < params.nIndent ∧ slot.hasNextToken = false ∧
    (slot.stop = .limit ∨ slot.stop = .eos) ∧ slot.generated <+: text

/-- What stop strings do to the text of a slot. -/
structure StopsAt (params : Params) (text : List UInt8) (slot : Slot) : Prop where
  found : (∃ p, Occurs params.antiprompt text p) → slot.hasNextToken = false ∧
    (slot.stop = .word ∨ slot.stop = .limit ∨ slot.stop = .eos) ∧
      ∃ p, IsLeast {p | Occurs params.antiprompt text p} p ∧ Shows params slot (text.take p)
  otherwise : (∀ p, ¬ Occurs params.antiprompt text p) → slot.stop ≠ .word ∧
    (slot.hasNextToken = true ∨ slot.stop = .limit ∨ slot.stop = .eos) ∧ Shows params slot text

section
variable {params : Params} {text : List UInt8} {slot slot' : Slot} {result : TokenOutput}

theorem Limited.shows (h : Limited params slot slot') : Shows params slot' slot.generated := by
  cases h with
  | same hgenerated => exact .inl hgenerated
  | ended hgenerated hnext hstop =>
    exact hgenerated.imp_right fun ⟨hpos, hcut⟩ => ⟨hpos, hnext, hstop, hcut⟩

theorem Limited.stopsAt_found (h : Limited params slot slot') (hstop : slot.stop = .word)
    (hnext : slot.hasNextToken = false) {p : ℕ}
    (hleast : IsLeast {p | Occurs params.antiprompt text p} p)
    (hgenerated : slot.generated = text.take p) : StopsAt params text slot' := by
  refine ⟨fun _ => ⟨?_, ?_, p, hleast, hgenerated ▸ h.shows⟩, fun hno => absurd hleast.1 (hno p)⟩
  · cases h with
    | same _ _ hn => exact hn.trans hnext
    | ended _ hn => exact hn
  · cases h with
    | same _ _ _ ht => exact .inl (ht.trans hstop)
    | ended _ _ ht => exact .inr ht

theorem Limited.stopsAt_clean (h : Limited params slot slot') (hstop : slot.stop = .none)
    (hnext : slot.hasNextToken = true) (hclean : ∀ p, ¬ Occurs params.antiprompt text p)
    (hgenerated : slot.generated = text) : StopsAt params text slot' := by
  refine ⟨fun ⟨p, hp⟩ => absurd hp (hclean p), fun _ => ⟨?_, ?_, hgenerated ▸ h.shows⟩⟩
  · cases h with
    | same _ _ _ ht =>
      rw [ht, hstop]
      decide
    | ended _ _ ht =>
      rcases ht with ht | ht
      · rw [ht]
        decide
      · rw [ht]
        decide
  · cases h with
    | same _ _ hn => exact .inl (hn.trans hnext)
    | ended _ _ ht => exact .inr ht

theorem processToken_step (h : Ready params text slot)
    (hskip : incomplete (text ++ result.textToSend) = true →
      ∀ p, ¬ Occurs params.antiprompt (text ++ result.textToSend) p) :
    let slot' := processToken params slot result
    StopsAt params (text ++ result.textToSend) slot' ∧
      (slot'.hasNextToken = true → Ready params (text ++ result.textToSend) slot') := by
  have hgenerated : (slot.append result.textToSend).generated = text ++ result.textToSend :=
    congrArg (· ++ result.textToSend) h.generated
  have hprocess : processToken params slot result =
      if incomplete (text ++ result.textToSend) then
        limits params result result.textToSend (slot.append result.textToSend)
      else limits params result (searchStop params (slot.append result.textToSend) result).2
        (searchStop params (slot.append result.textToSend) result).1 := by
    rw [← hgenerated]
    rfl
  rw [hprocess]
  by_cases hclean : ∀ p, ¬ Occurs params.antiprompt (text ++ result.textToSend) p
  · split_ifs with hinc
    · have hready := append_ready h hclean
      have hlimited := limits_limited params result result.textToSend
        (slot.append result.textToSend)
      exact ⟨hlimited.stopsAt_clean hready.stop hready.next hclean hready.generated,
        hready.limited hlimited⟩
    · obtain ⟨hg, hstop, hnext, hready⟩ := searchStop_clean h hclean
      exact ⟨(limits_limited _ _ _ _).stopsAt_clean hstop hnext hclean hg,
        fun hn => (hready (limits_eog hn)).limited (limits_limited _ _ _ _) hn⟩
  · obtain ⟨q, hq⟩ := not_forall_not.mp hclean
    rw [if_neg fun hinc => hclean (hskip hinc)]
    obtain ⟨hstop, hnext, p, hleast, hg⟩ := searchStop_found h ⟨q, hq⟩
    have hstops := (limits_limited params result
      (searchStop params (slot.append result.textToSend) result).2 _).stopsAt_found hstop hnext
        hleast hg
    exact ⟨hstops, fun hn => absurd (hstops.found ⟨q, hq⟩).1 (by rw [hn]; decide)⟩

end

/-- The pieces of some tokens. -/
def pieces (results : List TokenOutput) : List UInt8 := results.flatMap TokenOutput.textToSend

/-- The slot after some tokens of a generation that was going on until the last of them. -/
inductive Generates (params : Params) : List TokenOutput → Slot → Prop
  | start : Generates params [] .reset
  | step {results : List TokenOutput} {slot : Slot} (h : Generates params results slot)
      (hnext : slot.hasNextToken = true) (result : TokenOutput) :
      Generates params (results ++ [result]) (processToken params slot result)

/-- No text that ends inside of a character has a stop string. -/
def Searched (params : Params) (results : List TokenOutput) : Prop :=
  ∀ done, done <+: results → incomplete (pieces done) = true →
    ∀ p, ¬ Occurs params.antiprompt (pieces done) p

/-- No stop string is inside of another, behind its beginning and before its end. -/
def Apart (stops : List (List UInt8)) : Prop :=
  ∀ w ∈ stops, ∀ w' ∈ stops, ∀ k, 0 < k → k + w'.length < w.length → ¬ w' <+: w.drop k

/-- No limit but the stop strings has ended the generation. -/
def Unlimited (slot : Slot) : Prop := slot.stop ≠ .limit ∧ slot.stop ≠ .eos

instance (slot : Slot) : Decidable (Unlimited slot) := inferInstanceAs (Decidable (_ ∧ _))

section
variable {params : Params} {results : List TokenOutput} {slot : Slot}

theorem pieces_append (done rest : List TokenOutput) :
    pieces (done ++ rest) = pieces done ++ pieces rest := List.flatMap_append

theorem pieces_singleton (result : TokenOutput) : pieces [result] = result.textToSend :=
  List.flatMap_singleton _ _

theorem reset_ready (hwords : ∀ w ∈ params.antiprompt, w ≠ []) : Ready params [] .reset := by
  refine ⟨rfl, le_rfl, fun _ _ p hp => absurd hp (Nat.not_lt_zero p), ?_, rfl, rfl⟩
  rintro p ⟨w, hmem, hw⟩
  rw [List.drop_nil, List.prefix_nil] at hw
  exact hwords w hmem hw

theorem Generates.stopsAt (h : Generates params results slot)
    (hwords : ∀ w ∈ params.antiprompt, w ≠ []) (hskip : Searched params results) :
    StopsAt params (pieces results) slot ∧
      (slot.hasNextToken = true → Ready params (pieces results) slot) := by
  induction h with
  | start =>
    have hready := reset_ready hwords
    exact ⟨(Limited.refl .reset).stopsAt_clean rfl rfl hready.clean rfl, fun _ => hready⟩
  | @step results slot _ hnext result ih =>
    obtain ⟨-, hready⟩ := ih fun done hdone => hskip done (hdone.trans (List.prefix_append _ _))
    rw [pieces_append, pieces_singleton]
    refine processToken_step (hready hnext) fun hinc => ?_
    have hlast := hskip _ List.prefix_rfl
    rw [pieces_append, pieces_singleton] at hlast
    exact hlast hinc

theorem Generates.clean (h : Generates params results slot)
    (hwords : ∀ w ∈ params.antiprompt, w ≠ []) (hskip : Searched params results)
    {done : List TokenOutput} (hdone : done <+: results) (hne : done ≠ results) (p : ℕ) :
    ¬ Occurs params.antiprompt (pieces done) p := by
  induction h with
  | start => exact absurd (List.prefix_nil.mp hdone) hne
  | @step results slot hrun hnext result ih =>
    have hskip' : Searched params results :=
      fun done hdone => hskip done (hdone.trans (List.prefix_append _ _))
    rcases List.prefix_concat_iff.mp hdone with he | hdone
    · exact absurd he hne
    · by_cases he : done = results
      · rw [he]
        exact ((hrun.stopsAt hwords hskip').2 hnext).clean p
      · exact ih hskip' hdone he

theorem processTokens_generates (rest : List TokenOutput) {done : List TokenOutput} (h : Generates params done slot)
    (hnext : slot.hasNextToken = true) : ∃ reached, reached <+: done ++ rest ∧
      Generates params reached (processTokens params slot rest) ∧
      (reached = done ++ rest ∨ (processTokens params slot rest).hasNextToken = false) := by
  induction rest generalizing done slot with
  | nil => exact ⟨done, List.prefix_append _ _, h, .inl (List.append_nil done).symm⟩
  | cons result rest ih =>
    have hstep := h.step hnext result
    rw [processTokens]
    split_ifs with hgoes
    · obtain ⟨reached, hpre, hrun, hend⟩ := ih hstep hgoes
      rw [List.append_assoc, List.singleton_append] at hpre hend
      exact ⟨reached, hpre, hrun, hend⟩
    · exact ⟨done ++ [result], ⟨rest, List.append_assoc done [result] rest⟩, hstep,
        .inr (Bool.eq_false_iff.mpr hgoes)⟩

theorem processTokens_generated (hwords : ∀ w ∈ params.antiprompt, w ≠ [])
    (hskip : Searched params results)
    (hfree : Unlimited (processTokens params .reset results)) :
    ((∀ p, ¬ Occurs params.antiprompt (pieces results) p) ∧
        (processTokens params .reset results).generated = pieces results) ∨
      ∃ text p, text <+: pieces results ∧ IsLeast {p | Occurs params.antiprompt text p} p ∧
        (processTokens params .reset results).generated = (pieces results).take p := by
  obtain ⟨reached, hpre, hrun, hend⟩ :=
    processTokens_generates results (.start : Generates params [] .reset) rfl
  rw [List.nil_append] at hpre hend
  have hshows : ∀ text, Shows params (processTokens params .reset results) text →
      (processTokens params .reset results).generated = text := by
    rintro text (hg | ⟨-, -, hstop, -⟩)
    · exact hg
    · exact absurd hstop (not_or.mpr hfree)
  obtain ⟨hstops, -⟩ := hrun.stopsAt hwords fun done hdone => hskip done (hdone.trans hpre)
  by_cases hocc : ∃ p, Occurs params.antiprompt (pieces reached) p
  · obtain ⟨-, -, p, hleast, hgenerated⟩ := hstops.found hocc
    obtain ⟨w, hmem, hw⟩ := hleast.1
    have hend := length_of_prefix_drop (hwords w hmem) hw
    obtain ⟨rest, rfl⟩ := hpre
    rw [pieces_append]
    refine .inr ⟨pieces reached, p, List.prefix_append _ _, hleast, ?_⟩
    rw [hshows _ hgenerated, List.take_append_of_le_length (by omega)]
  · have hclean := not_exists.mp hocc
    obtain ⟨-, hstop, hgenerated⟩ := hstops.otherwise hclean
    rcases hend with rfl | hnext
    · exact .inl ⟨hclean, hshows _ hgenerated⟩
    · rw [hnext] at hstop
      exact absurd (hstop.resolve_left Bool.false_ne_true) (not_or.mpr hfree)

end

theorem occurs_of_isPrefix {stops : List (List UInt8)} {text text' : List UInt8} {p : ℕ}
    (hpre : text <+: text') (h : Occurs stops text p) : Occurs stops text' p := by
  obtain ⟨w, hmem, hw⟩ := h
  exact ⟨w, hmem, hw.trans (hpre.drop p)⟩

theorem Apart.least_eq {stops : List (List UInt8)} (hapart : Apart stops)
    (hwords : ∀ w ∈ stops, w ≠ []) {text text' : List UInt8} (hpre : text <+: text') {p p' : ℕ}
    (h : IsLeast {p | Occurs stops text p} p) (h' : IsLeast {p | Occurs stops text' p} p') :
    p = p' := by
  have hle : p' ≤ p := h'.2 (occurs_of_isPrefix hpre h.1)
  refine Nat.le_antisymm ?_ hle
  by_contra hlt
  obtain ⟨w, hmem, hw⟩ := h.1
  obtain ⟨w', hmem', hw'⟩ := h'.1
  have hend := length_of_prefix_drop (hwords w hmem) hw
  have hlong : text.length < p' + w'.length := by
    by_contra hshort
    refine hlt (h.2 ⟨w', hmem', ?_⟩)
    exact List.prefix_of_prefix_length_le hw' (hpre.drop p') (by rw [List.length_drop]; omega)
  refine hapart w' hmem' w hmem (p - p') (by omega) (by omega) ?_
  have hdrop : w'.drop (p - p') <+: text'.drop p := by
    have := hw'.drop (p - p')
    rwa [List.drop_drop, Nat.add_sub_cancel' hle] at this
  exact List.prefix_of_prefix_length_le (hw.trans (hpre.drop p)) hdrop
    (by rw [List.length_drop]; omega)

/-- A generation ends at the first token behind which there is a stop string, with the text before
the leftmost; where no stop string is inside of another this is the same for all ways to cut the
text. -/
theorem processToken_stops (params : Params) (hwords : ∀ w ∈ params.antiprompt, w ≠ []) :
    (∀ results slot, Generates params results slot → Searched params results →
      StopsAt params (pieces results) slot ∧
        ∀ done, done <+: results → done ≠ results →
          ∀ p, ¬ Occurs params.antiprompt (pieces done) p) ∧
    (Apart params.antiprompt → ∀ results results', pieces results = pieces results' →
      Searched params results → Searched params results' →
      Unlimited (processTokens params .reset results) →
      Unlimited (processTokens params .reset results') →
        (processTokens params .reset results).generated =
          (processTokens params .reset results').generated) := by
  refine ⟨fun results slot hrun hskip => ⟨(hrun.stopsAt hwords hskip).1,
    fun done hdone hne => hrun.clean hwords hskip hdone hne⟩, ?_⟩
  intro hapart results results' htext hskip hskip' hfree hfree'
  rcases processTokens_generated hwords hskip hfree with
    ⟨hclean, hg⟩ | ⟨text, p, hpre, hleast, hg⟩
  · rcases processTokens_generated hwords hskip' hfree' with ⟨-, hg'⟩ | ⟨text', p', hpre', h', -⟩
    · rw [hg, hg', htext]
    · exact absurd (occurs_of_isPrefix (htext ▸ hpre') h'.1) (hclean p')
  · rcases processTokens_generated hwords hskip' hfree' with
      ⟨hclean, -⟩ | ⟨text', p', hpre', hleast', hg'⟩
    · exact absurd (occurs_of_isPrefix (htext ▸ hpre) hleast.1) (hclean p)
    · rw [← htext] at hpre'
      have hp : p = p' := by
        rcases List.prefix_or_prefix_of_prefix hpre hpre' with hle | hle
        · exact hapart.least_eq hwords hle hleast hleast'
        · exact (hapart.least_eq hwords hle hleast' hleast).symm
      rw [hg, hg', hp, htext]

/-- Stop strings with one inside of the other. -/
def nestedParams : Params := ⟨[[1, 2, 3, 4], [2, 3]], -1, 0, 0, true, 100⟩

/-- A token of a generation that no limit is near. -/
def plainToken (piece : List UInt8) : TokenOutput := ⟨piece, false, 10, 1, 0⟩

/-- The text of a generation depends on how it was cut: `bc` ends it before `abcd` is there. -/
theorem processTokens_nested :
    pieces [plainToken [1, 2, 3, 4]] = pieces [plainToken [1, 2], plainToken [3], plainToken [4]] ∧
    (processTokens nestedParams .reset [plainToken [1, 2, 3, 4]]).generated = [] ∧
    (processTokens nestedParams .reset
      [plainToken [1, 2], plainToken [3], plainToken [4]]).generated = [1] ∧
    (processTokens nestedParams .reset [plainToken [1, 2, 3, 4]]).stop = .word ∧
    (processTokens nestedParams .reset
      [plainToken [1, 2], plainToken [3], plainToken [4]]).stop = .word := by
  decide

def apartParams : Params := ⟨[[1, 2], [2, 3]], -1, 0, 0, true, 100⟩

theorem apartParams_apart : Apart apartParams.antiprompt := by
  have hlength : ∀ w ∈ apartParams.antiprompt, w.length = 2 := by decide
  intro w hw w' hw' k hk hlt
  rw [hlength w hw, hlength w' hw'] at hlt
  omega

theorem searched_of_inits {params : Params} {results : List TokenOutput}
    (h : ∀ done ∈ results.inits, incomplete (pieces done) = false) : Searched params results :=
  fun done hdone hinc =>
    Bool.noConfusion ((h done ((List.mem_inits _ _).mpr hdone)).symm.trans hinc)

theorem processToken_stops_apart :
    StopsAt apartParams [1, 2] (processToken apartParams
      (processToken apartParams .reset (plainToken [1])) (plainToken [2])) ∧
    (processTokens apartParams .reset [plainToken [1, 2, 3]]).generated =
      (processTokens apartParams .reset
        [plainToken [1], plainToken [2], plainToken [3]]).generated := by
  obtain ⟨hrun, hsame⟩ := processToken_stops apartParams (by decide)
  constructor
  · exact (hrun [plainToken [1], plainToken [2]] _
      ((Generates.start.step rfl (plainToken [1])).step (by decide) (plainToken [2]))
      (searched_of_inits (by decide))).1
  · exact hsame apartParams_apart _ _ rfl (searched_of_inits (by decide))
      (searched_of_inits (by decide)) (by decide) (by decide)

end StopStrings
end RocmFpx
