import Mathlib.Data.List.Infix
import RocmFpx.PartialUtf8

/-!
Character boundaries of a text that arrives in pieces. `common_utf8_is_complete` looks at one piece
alone; the piece tells where the text stands if it holds the first byte of a character, and only
then.
-/

namespace RocmFpx

/-- `(c & 0xC0) == 0x80` -/
def isContinuation (c : UInt8) : Bool := c.toNat / 64 == 2

/-- The length of the character that this byte begins. -/
def expectedLength (c : UInt8) : ℕ :=
  if 0xF0 ≤ c.toNat then 4 else if 0xE0 ≤ c.toNat then 3 else if 0xC0 ≤ c.toNat then 2 else 1

/-- The loop of `common_utf8_is_complete`, from the last byte back. -/
def utf8CompleteFrom : ℕ → List UInt8 → Bool
  | _, [] => false
  | i, c :: rest =>
    if 4 < i then false
    else if isContinuation c then utf8CompleteFrom (i + 1) rest
    else decide (expectedLength c ≤ i)

/-- `common_utf8_is_complete`. -/
def utf8IsComplete (s : List UInt8) : Bool := s.isEmpty || utf8CompleteFrom 1 s.reverse

theorem utf8CompleteFrom_continuation {i : ℕ} {s : List UInt8} (hs : ∀ b ∈ s, isContinuation b) :
    utf8CompleteFrom i s = false := by
  induction s generalizing i with
  | nil => rfl
  | cons c rest ih =>
    rw [utf8CompleteFrom, if_pos (hs c List.mem_cons_self),
      ih fun b hb => hs b (List.mem_cons_of_mem c hb), ite_self]

theorem utf8CompleteFrom_append {i : ℕ} {s rest : List UInt8} {c : UInt8}
    (hs : ∀ b ∈ s, isContinuation b) (hc : isContinuation c = false) :
    utf8CompleteFrom i (s ++ c :: rest) =
      decide (i + s.length ≤ 4 ∧ expectedLength c ≤ i + s.length) := by
  induction s generalizing i with
  | nil =>
    rw [List.nil_append, utf8CompleteFrom, if_neg (Bool.eq_false_iff.mp hc)]
    simp only [List.length_nil, Nat.add_zero]
    split_ifs with h
    · simp [not_le.mpr h]
    · simp [not_lt.mp h]
  | cons b s ih =>
    rw [List.cons_append, utf8CompleteFrom, if_pos (hs b List.mem_cons_self),
      ih fun b hb => hs b (List.mem_cons_of_mem _ hb), List.length_cons]
    have hlen : i + 1 + s.length = i + (s.length + 1) := by omega
    rw [hlen]
    split_ifs with h
    · simp only [Bool.false_eq, decide_eq_false_iff_not]
      omega
    · rfl

theorem utf8IsComplete_continuation {s : List UInt8} (hs : ∀ b ∈ s, isContinuation b) :
    utf8IsComplete s = s.isEmpty := by
  rw [utf8IsComplete, utf8CompleteFrom_continuation, Bool.or_false]
  exact fun b hb => hs b (List.mem_reverse.mp hb)

theorem utf8IsComplete_append {x s : List UInt8} {c : UInt8} (hs : ∀ b ∈ s, isContinuation b)
    (hc : isContinuation c = false) :
    utf8IsComplete (x ++ c :: s) = decide (s.length < 4 ∧ expectedLength c ≤ s.length + 1) := by
  have hrev : (x ++ c :: s).reverse = s.reverse ++ c :: x.reverse := by
    rw [List.reverse_append, List.reverse_cons, List.append_assoc, List.singleton_append]
  rw [utf8IsComplete, hrev,
    utf8CompleteFrom_append (fun b hb => hs b (List.mem_reverse.mp hb)) hc, List.length_reverse]
  have hne : (x ++ c :: s).isEmpty = false := by
    rw [List.isEmpty_eq_false_iff]
    exact List.append_ne_nil_of_right_ne_nil _ (List.cons_ne_nil _ _)
  rw [hne, Bool.false_or]
  refine decide_eq_decide.mpr ?_
  omega

/-! ## Texts -/

/-- The text stands at a character boundary: it is valid as far as it goes. -/
def AtBoundary (text : List UInt8) : Prop := ∃ cs : List Char, PartialUtf8.encode cs = text

/-- The first bytes of a character, but not all of them. -/
structure IsCut (c : UInt8) (s : List UInt8) : Prop where
  lead : isContinuation c = false
  tail : ∀ b ∈ s, isContinuation b
  short : s.length + 1 < expectedLength c

theorem isContinuation_ofNat {u : ℕ} (h : u < 64) : isContinuation (UInt8.ofNat (u + 0x80)) := by
  rw [isContinuation, PartialUtf8.toNat_byte (by omega), beq_iff_eq]
  omega

theorem lead_ofNat {u n : ℕ} (h : u < 256) (hcont : u / 64 ≠ 2)
    (hn : (if 0xF0 ≤ u then 4 else if 0xE0 ≤ u then 3 else if 0xC0 ≤ u then 2 else 1) = n) :
    isContinuation (UInt8.ofNat u) = false ∧ expectedLength (UInt8.ofNat u) = n := by
  rw [isContinuation, expectedLength, PartialUtf8.toNat_byte h]
  exact ⟨beq_eq_false_iff_ne.mpr hcont, hn⟩

/-- A character is a first byte that tells its length and continuation bytes. -/
theorem encodeChar_shape (c : Char) :
    ∃ b s, String.utf8EncodeChar c = b :: s ∧ isContinuation b = false ∧
      (∀ x ∈ s, isContinuation x) ∧ s.length + 1 = expectedLength b ∧ s.length < 4 := by
  have hmod : ∀ u, isContinuation (UInt8.ofNat (u % 0x40 + 0x80)) :=
    fun u => isContinuation_ofNat (Nat.mod_lt _ (by decide))
  fun_cases String.utf8EncodeChar c with
  | case1 u h =>
    obtain ⟨hb, hn⟩ := lead_ofNat (u := u) (n := 1) (by omega) (by omega)
      (by rw [if_neg (by omega), if_neg (by omega), if_neg (by omega)])
    exact ⟨_, [], rfl, hb, fun x hx => absurd hx List.not_mem_nil, hn.symm, by simp⟩
  | case2 u h h' =>
    obtain ⟨hb, hn⟩ := lead_ofNat (u := u / 64 % 0x20 + 0xc0) (n := 2) (by omega) (by omega)
      (by rw [if_neg (by omega), if_neg (by omega), if_pos (by omega)])
    refine ⟨_, _, rfl, hb, ?_, hn.symm, by simp⟩
    simp only [List.forall_mem_cons, hmod, List.not_mem_nil, false_implies, implies_true, and_self]
  | case3 u h h' h'' =>
    obtain ⟨hb, hn⟩ := lead_ofNat (u := u / 4096 % 0x10 + 0xe0) (n := 3) (by omega) (by omega)
      (by rw [if_neg (by omega), if_pos (by omega)])
    refine ⟨_, _, rfl, hb, ?_, hn.symm, by simp⟩
    simp only [List.forall_mem_cons, hmod, List.not_mem_nil, false_implies, implies_true, and_self]
  | case4 u h h' h'' =>
    obtain ⟨hb, hn⟩ := lead_ofNat (u := u / 262144 % 0x08 + 0xf0) (n := 4) (by omega) (by omega)
      (by rw [if_pos (by omega)])
    refine ⟨_, _, rfl, hb, ?_, hn.symm, by simp⟩
    simp only [List.forall_mem_cons, hmod, List.not_mem_nil, false_implies, implies_true, and_self]

theorem encode_cons (c : Char) (cs : List Char) :
    PartialUtf8.encode (c :: cs) = String.utf8EncodeChar c ++ PartialUtf8.encode cs := rfl

theorem encode_concat (cs : List Char) (c : Char) :
    PartialUtf8.encode (cs ++ [c]) = PartialUtf8.encode cs ++ String.utf8EncodeChar c := by
  rw [PartialUtf8.encode, PartialUtf8.encode, List.flatMap_append, List.flatMap_singleton]

theorem prefix_split {cs : List Char} {p q : List UInt8} (h : p ++ q = PartialUtf8.encode cs) :
    ∃ ds part, p = PartialUtf8.encode ds ++ part ∧
      (part = [] ∨ ∃ b s, part = b :: s ∧ IsCut b s) := by
  induction cs generalizing p with
  | nil =>
    obtain ⟨rfl, -⟩ := List.append_eq_nil_iff.mp h
    exact ⟨[], [], rfl, Or.inl rfl⟩
  | cons c cs ih =>
    rw [encode_cons] at h
    obtain ⟨b, s, hc, hb, hs, hlen, -⟩ := encodeChar_shape c
    obtain ⟨x, hx, -⟩ | ⟨x, rfl, hx⟩ := List.append_eq_append_iff.mp h
    · by_cases hx0 : x = []
      · refine ⟨[c], [], ?_, Or.inl rfl⟩
        rw [hx0, List.append_nil] at hx
        rw [List.append_nil, encode_cons, hx]
        exact (List.append_nil _).symm
      · cases p with
        | nil => exact ⟨[], [], rfl, Or.inl rfl⟩
        | cons b' p =>
          rw [hc, List.cons_append, List.cons.injEq] at hx
          obtain ⟨rfl, rfl⟩ := hx
          refine ⟨[], b :: p, rfl, Or.inr ⟨b, p, rfl, hb, ?_, ?_⟩⟩
          · exact fun x hx => hs x (List.mem_append_left _ hx)
          · have := List.length_pos_iff.mpr hx0
            rw [List.length_append] at hlen
            omega
    · obtain ⟨ds, part, rfl, hpart⟩ := ih hx.symm
      refine ⟨c :: ds, part, ?_, hpart⟩
      rw [encode_cons, List.append_assoc]

theorem last_lead_unique {x y l m : List UInt8} {a b : UInt8} (h : x ++ a :: l = y ++ b :: m)
    (ha : isContinuation a = false) (hb : isContinuation b = false)
    (hl : ∀ c ∈ l, isContinuation c) (hm : ∀ c ∈ m, isContinuation c) : a = b ∧ l = m := by
  have hnot : ∀ {z l m : List UInt8} {a b : UInt8}, isContinuation b = false →
      (∀ c ∈ l, isContinuation c) → a :: l = z ++ b :: m → a = b ∧ l = m := by
    intro z l m a b hb hl h
    cases z with
    | nil => exact List.cons.inj h
    | cons z zs =>
      have hmem : b ∈ l := by
        rw [(List.cons.inj h).2]
        exact List.mem_append_right _ List.mem_cons_self
      exact absurd (hl b hmem) (by rw [hb]; exact Bool.false_ne_true)
  obtain ⟨z, -, hz⟩ | ⟨z, -, hz⟩ := List.append_eq_append_iff.mp h
  · exact hnot hb hl hz
  · exact (hnot ha hm hz).imp Eq.symm Eq.symm

theorem not_atBoundary_cut {ds : List Char} {b : UInt8} {s : List UInt8} (h : IsCut b s) :
    ¬ AtBoundary (PartialUtf8.encode ds ++ b :: s) := by
  rintro ⟨cs, hcs⟩
  obtain rfl | ⟨es, c, rfl⟩ := cs.eq_nil_or_concat'
  · exact absurd hcs.symm (List.append_ne_nil_of_right_ne_nil _ (List.cons_ne_nil _ _))
  · obtain ⟨b', s', hc, hb', hs', hlen, -⟩ := encodeChar_shape c
    rw [encode_concat, hc] at hcs
    obtain ⟨rfl, rfl⟩ := last_lead_unique hcs hb' h.lead hs' h.tail
    exact absurd hlen h.short.ne

theorem utf8IsComplete_iff {pre piece rest : List UInt8} (hvalid : AtBoundary (pre ++ piece ++ rest))
    (hlead : ¬ ∀ b ∈ piece, isContinuation b) :
    utf8IsComplete piece ↔ AtBoundary (pre ++ piece) := by
  obtain ⟨cs, hcs⟩ := hvalid
  obtain ⟨ds, part, hsplit, hpart⟩ := prefix_split hcs.symm
  -- the piece reaches back to the last first byte of a character
  have hreach : ∀ {x s : List UInt8} {b : UInt8}, pre ++ piece = x ++ b :: s →
      (∀ c ∈ s, isContinuation c) → ∃ y, piece = y ++ b :: s := by
    intro x s b h hs
    obtain ⟨z, -, hz⟩ | ⟨z, -, hz⟩ := List.append_eq_append_iff.mp h
    · exact ⟨z, hz⟩
    · cases z with
      | nil => exact ⟨[], hz.symm⟩
      | cons z zs =>
        have hsuf : piece <:+ s := ⟨zs, (List.cons.inj hz).2.symm⟩
        exact absurd (fun c hc => hs c (hsuf.subset hc)) hlead
  obtain rfl | ⟨b, s, rfl, hcut⟩ := hpart
  · rw [List.append_nil] at hsplit
    have hbound : AtBoundary (pre ++ piece) := ⟨ds, hsplit.symm⟩
    refine iff_of_true ?_ hbound
    obtain rfl | ⟨es, c, rfl⟩ := ds.eq_nil_or_concat'
    · obtain ⟨-, rfl⟩ := List.append_eq_nil_iff.mp hsplit
      exact absurd (fun b hb => absurd hb List.not_mem_nil) hlead
    · obtain ⟨b, s, hc, hb, hs, hlen, hlt⟩ := encodeChar_shape c
      rw [encode_concat, hc] at hsplit
      obtain ⟨y, rfl⟩ := hreach hsplit hs
      rw [utf8IsComplete_append hs hb]
      exact decide_eq_true ⟨hlt, hlen.ge⟩
  · refine iff_of_false ?_ (hsplit ▸ not_atBoundary_cut hcut)
    obtain ⟨y, rfl⟩ := hreach hsplit hcut.tail
    rw [utf8IsComplete_append hcut.tail hcut.lead, decide_eq_true_eq]
    exact fun h => absurd h.2 (not_le.mpr hcut.short)

end RocmFpx
