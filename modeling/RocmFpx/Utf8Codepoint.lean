import RocmFpx.Utf8Boundary
import Mathlib.Data.List.GetD

/-!
Reading one character of a UTF-8 text (`common_parse_utf8_codepoint`). What has been decided on a
text is not changed by the bytes behind it.
-/

namespace RocmFpx

inductive Utf8Status
  | success
  | incomplete
  | invalid
  deriving DecidableEq

/-- `utf8_parse_result`. -/
structure Utf8Result where
  status : Utf8Status
  codepoint : ℕ
  bytesConsumed : ℕ

/-- The continuation bytes from byte `i` of the character on, `k` of them. -/
def utf8Tail (input : List UInt8) (offset : ℕ) : ℕ → ℕ → ℕ → Utf8Result
  | i, 0, acc => ⟨.success, acc, i⟩
  | i, k + 1, acc =>
    match input[offset + i]? with
    | none => ⟨.incomplete, 0, i⟩
    | some b =>
      if isContinuation b then utf8Tail input offset (i + 1) k (acc * 64 + b.toNat % 64)
      else ⟨.invalid, 0, i⟩

/-- `common_parse_utf8_codepoint`. -/
def parseUtf8Codepoint (input : List UInt8) (offset : ℕ) : Utf8Result :=
  match input[offset]? with
  | none => ⟨.incomplete, 0, 0⟩
  | some b =>
    if b.toNat < 0x80 then ⟨.success, b.toNat, 1⟩
    else if b.toNat < 0xC0 then ⟨.invalid, 0, 1⟩
    else if b.toNat < 0xE0 then utf8Tail input offset 1 1 (b.toNat % 32)
    else if b.toNat < 0xF0 then utf8Tail input offset 1 2 (b.toNat % 16)
    else if b.toNat < 0xF8 then utf8Tail input offset 1 3 (b.toNat % 8)
    else ⟨.invalid, 0, 1⟩

variable {u v w : List UInt8} {offset i k acc : ℕ}

theorem getElem?_extend (h : u <+: w) {b : UInt8} (hb : u[offset]? = some b) :
    w[offset]? = some b := by
  obtain ⟨v, rfl⟩ := h
  rw [List.getElem?_append_left (List.getElem?_eq_some_iff.mp hb).1, hb]

theorem utf8Tail_stable (h : u <+: w) (hs : (utf8Tail u offset i k acc).status ≠ .incomplete) :
    utf8Tail w offset i k acc = utf8Tail u offset i k acc := by
  induction k generalizing i acc with
  | zero => rfl
  | succ k ih =>
    rw [utf8Tail] at hs ⊢
    rw [utf8Tail]
    cases hb : u[offset + i]? with
    | none =>
      rw [hb] at hs
      exact absurd rfl hs
    | some b =>
      rw [hb] at hs
      simp only [getElem?_extend h hb] at hs ⊢
      split_ifs at hs ⊢
      · exact ih hs
      · rfl

/-- A character that has been read, or found wrong, stays so. -/
theorem parseUtf8Codepoint_stable (h : u <+: w)
    (hs : (parseUtf8Codepoint u offset).status ≠ .incomplete) :
    parseUtf8Codepoint w offset = parseUtf8Codepoint u offset := by
  rw [parseUtf8Codepoint] at hs ⊢
  rw [parseUtf8Codepoint]
  cases hb : u[offset]? with
  | none =>
    rw [hb] at hs
    exact absurd rfl hs
  | some b =>
    rw [hb] at hs
    simp only [getElem?_extend h hb] at hs ⊢
    split_ifs at hs ⊢
    all_goals first
      | rfl
      | exact utf8Tail_stable h hs

theorem utf8Tail_consumed (hi : offset + i ≤ u.length) :
    i ≤ (utf8Tail u offset i k acc).bytesConsumed ∧
      offset + (utf8Tail u offset i k acc).bytesConsumed ≤ u.length := by
  induction k generalizing i acc with
  | zero => exact ⟨le_rfl, hi⟩
  | succ k ih =>
    rw [utf8Tail]
    cases hb : u[offset + i]? with
    | none => exact ⟨le_rfl, hi⟩
    | some b =>
      have hlt := (List.getElem?_eq_some_iff.mp hb).1
      simp only
      split_ifs
      · obtain ⟨h1, h2⟩ := @ih (i + 1) (acc * 64 + b.toNat % 64) hlt
        exact ⟨(Nat.le_succ i).trans h1, h2⟩
      · exact ⟨le_rfl, hi⟩

/-- In front of the end at least one byte is used up, and none behind the end. -/
theorem parseUtf8Codepoint_consumed (h : offset < u.length) :
    1 ≤ (parseUtf8Codepoint u offset).bytesConsumed ∧
      offset + (parseUtf8Codepoint u offset).bytesConsumed ≤ u.length := by
  rw [parseUtf8Codepoint, List.getElem?_eq_getElem h]
  simp only
  split_ifs
  all_goals first
    | exact ⟨le_rfl, h⟩
    | exact utf8Tail_consumed h

theorem parseUtf8Codepoint_end (h : u.length ≤ offset) :
    (parseUtf8Codepoint u offset).status = .incomplete := by
  rw [parseUtf8Codepoint, List.getElem?_eq_none h]

theorem lt_of_parseUtf8Codepoint (h : (parseUtf8Codepoint u offset).status ≠ .incomplete) :
    offset < u.length :=
  not_le.mp fun hle => h (parseUtf8Codepoint_end hle)

end RocmFpx
