import Mathlib.Data.List.Nodup
import Mathlib.Data.Nat.Bitwise

/-!
Readers of byte strings that may fail, and writers beside them. A reader takes bytes from the
front; `Reads r bs a` says that it takes `bs` for `a` whatever follows, `Yields r P` that all it
ever returns satisfies `P`.
-/

namespace RocmFpx

abbrev ByteReader (ε : Type) := StateT (List UInt8) (Except ε)

namespace ByteReader

variable {ε α β : Type}

/-! ## Numbers -/

/-- The `w` bytes of `n`, least significant first; what does not fit is dropped. -/
def leBytes : ℕ → ℕ → List UInt8
  | 0, _ => []
  | w + 1, n => UInt8.ofNat n :: leBytes w (n / 256)

def ofLeBytes : List UInt8 → ℕ
  | [] => 0
  | b :: bs => b.toNat + 256 * ofLeBytes bs

@[simp] theorem leBytes_length (w n : ℕ) : (leBytes w n).length = w := by
  induction w generalizing n with
  | zero => rfl
  | succ w ih => rw [leBytes, List.length_cons, ih]

theorem ofLeBytes_leBytes {w n : ℕ} (h : n < 256 ^ w) : ofLeBytes (leBytes w n) = n := by
  induction w generalizing n with
  | zero => exact (Nat.lt_one_iff.mp h).symm
  | succ w ih =>
    have hrest : n / 256 < 256 ^ w := Nat.div_lt_of_lt_mul (by rwa [pow_succ'] at h)
    rw [leBytes, ofLeBytes, ih hrest, UInt8.toNat_ofNat']
    omega

theorem ofLeBytes_lt (bs : List UInt8) : ofLeBytes bs < 256 ^ bs.length := by
  induction bs with
  | nil => exact Nat.one_pos
  | cons b bs ih =>
    have hb := b.toNat_lt
    rw [ofLeBytes, List.length_cons, pow_succ']
    omega

/-! ## Readers -/

def fail (e : ε) : ByteReader ε α := fun _ => .error e

def check (p : Prop) [Decidable p] (e : ε) : ByteReader ε Unit :=
  if p then pure () else fail e

/-- The number of bytes that are left. -/
def remaining : ByteReader ε ℕ := fun bs => .ok (bs.length, bs)

def readBytes (e : ε) (n : ℕ) : ByteReader ε (List UInt8) := fun bs =>
  if n ≤ bs.length then .ok (bs.take n, bs.drop n) else .error e

/-- An unsigned number of `w` bytes. -/
def readNat (e : ε) (w : ℕ) : ByteReader ε ℕ := do
  let bs ← readBytes e w
  pure (ofLeBytes bs)

def readMany (r : ByteReader ε α) : ℕ → ByteReader ε (List α)
  | 0 => pure []
  | n + 1 => do
    let a ← r
    let as ← readMany r n
    pure (a :: as)

/-- Reads items one by one, each in the light of the keys seen before it. -/
def readSeen (key : α → β) (r : List β → ByteReader ε α) : ℕ → List β → ByteReader ε (List α)
  | 0, _ => pure []
  | n + 1, seen => do
    let a ← r seen
    let as ← readSeen key r n (key a :: seen)
    pure (a :: as)

theorem bind_ok {r : ByteReader ε α} {f : α → ByteReader ε β} {bs rest : List UInt8} {b : β} :
    (r >>= f) bs = .ok (b, rest) ↔ ∃ a mid, r bs = .ok (a, mid) ∧ f a mid = .ok (b, rest) := by
  change (r bs).bind (fun p => f p.1 p.2) = _ ↔ _
  cases r bs with
  | error e => simp [Except.bind]
  | ok p =>
    obtain ⟨a, mid⟩ := p
    simp [Except.bind]

theorem pure_ok {a b : α} {bs rest : List UInt8} :
    (pure a : ByteReader ε α) bs = .ok (b, rest) ↔ a = b ∧ bs = rest := by
  change Except.ok (a, bs) = _ ↔ _
  rw [Except.ok.injEq, Prod.mk.injEq]

theorem check_ok {p : Prop} [Decidable p] {e : ε} {u : Unit} {bs rest : List UInt8} :
    check p e bs = .ok (u, rest) ↔ p ∧ bs = rest := by
  unfold check
  split_ifs with hp
  · rw [pure_ok]
    exact and_congr_left' (iff_of_true rfl hp)
  · simp [fail, hp]

/-! ## What a reader returns -/

def Yields (r : ByteReader ε α) (P : α → Prop) : Prop :=
  ∀ bs a rest, r bs = .ok (a, rest) → P a

theorem yields_pure {a : α} {P : α → Prop} (h : P a) : Yields (pure a : ByteReader ε α) P :=
  fun _ _ _ hr => (pure_ok.1 hr).1 ▸ h

theorem Yields.bind {r : ByteReader ε α} {f : α → ByteReader ε β} {P : α → Prop} {Q : β → Prop}
    (hr : Yields r P) (hf : ∀ a, P a → Yields (f a) Q) : Yields (r >>= f) Q := by
  intro bs b rest h
  obtain ⟨a, mid, ha, hb⟩ := bind_ok.1 h
  exact hf a (hr bs a mid ha) mid b rest hb

theorem yields_any (r : ByteReader ε α) : Yields r fun _ => True := fun _ _ _ _ => trivial

theorem yields_check (p : Prop) [Decidable p] (e : ε) : Yields (check p e) fun _ => p :=
  fun _ _ _ h => (check_ok.1 h).1

theorem yields_fail (e : ε) (P : α → Prop) : Yields (fail e : ByteReader ε α) P := nofun

theorem Yields.readMany {r : ByteReader ε α} {P : α → Prop} (h : Yields r P) (n : ℕ) :
    Yields (readMany r n) fun as => as.length = n ∧ ∀ a ∈ as, P a := by
  induction n with
  | zero => exact yields_pure ⟨rfl, fun a ha => absurd ha List.not_mem_nil⟩
  | succ n ih =>
    refine h.bind fun a ha => ih.bind fun as has => yields_pure ?_
    exact ⟨congrArg (· + 1) has.1, List.forall_mem_cons.mpr ⟨ha, has.2⟩⟩

theorem Yields.readSeen {key : α → β} {r : List β → ByteReader ε α} {P : α → Prop}
    (h : ∀ seen, Yields (r seen) fun a => P a ∧ key a ∉ seen) (n : ℕ) (seen : List β) :
    Yields (readSeen key r n seen) fun as => as.length = n ∧ (∀ a ∈ as, P a) ∧
      (as.map key).Nodup ∧ ∀ a ∈ as, key a ∉ seen := by
  induction n generalizing seen with
  | zero =>
    have hnone (P : α → Prop) : ∀ a ∈ ([] : List α), P a := fun a ha => absurd ha List.not_mem_nil
    exact yields_pure ⟨rfl, hnone _, List.nodup_nil, hnone _⟩
  | succ n ih =>
    refine (h seen).bind fun a ⟨hP, hnew⟩ => (ih _).bind fun as ⟨hlen, hall, hnodup, hseen⟩ => ?_
    refine yields_pure ⟨congrArg (· + 1) hlen, List.forall_mem_cons.mpr ⟨hP, hall⟩, ?_, ?_⟩
    · refine List.nodup_cons.mpr ⟨fun hmem => ?_, hnodup⟩
      obtain ⟨b, hb, hkey⟩ := List.mem_map.mp hmem
      exact hseen b hb (hkey ▸ List.mem_cons_self)
    · exact List.forall_mem_cons.mpr ⟨hnew, fun b hb hmem => hseen b hb (List.mem_cons_of_mem _ hmem)⟩

/-! ## How a reader fails -/

def Avoids (e : ε) (r : ByteReader ε α) : Prop := ∀ bs, r bs ≠ .error e

variable {e e' : ε}

theorem avoids_pure (a : α) : Avoids e (pure a : ByteReader ε α) := fun _ h => nomatch h

theorem bind_error {r : ByteReader ε α} {f : α → ByteReader ε β} {bs : List UInt8} :
    (r >>= f) bs = .error e ↔
      r bs = .error e ∨ ∃ a mid, r bs = .ok (a, mid) ∧ f a mid = .error e := by
  change (r bs).bind (fun p => f p.1 p.2) = _ ↔ _
  cases r bs with
  | error e' => simp [Except.bind]
  | ok p =>
    obtain ⟨a, mid⟩ := p
    simp [Except.bind]

theorem Avoids.bind {r : ByteReader ε α} {f : α → ByteReader ε β} (hr : Avoids e r)
    (hf : ∀ a, Avoids e (f a)) : Avoids e (r >>= f) := by
  intro bs h
  rcases bind_error.1 h with h | ⟨a, mid, -, h⟩
  · exact hr bs h
  · exact hf a mid h

theorem Avoids.readMany {r : ByteReader ε α} (h : Avoids e r) (n : ℕ) :
    Avoids e (readMany r n) := by
  induction n with
  | zero => exact avoids_pure []
  | succ n ih => exact h.bind fun a => ih.bind fun as => avoids_pure (a :: as)

theorem Avoids.readSeen {key : α → β} {r : List β → ByteReader ε α} (h : ∀ seen, Avoids e (r seen))
    (n : ℕ) (seen : List β) : Avoids e (readSeen key r n seen) := by
  induction n generalizing seen with
  | zero => exact avoids_pure []
  | succ n ih => exact (h seen).bind fun a => (ih _).bind fun as => avoids_pure (a :: as)

/-! ## What a reader takes -/

def Reads (r : ByteReader ε α) (bs : List UInt8) (a : α) : Prop :=
  ∀ rest, r (bs ++ rest) = .ok (a, rest)

theorem reads_pure (a : α) : Reads (pure a : ByteReader ε α) [] a := fun _ => rfl

theorem Reads.bind {r : ByteReader ε α} {f : α → ByteReader ε β} {bs cs : List UInt8} {a : α}
    {b : β} (hr : Reads r bs a) (hf : Reads (f a) cs b) : Reads (r >>= f) (bs ++ cs) b :=
  fun rest => bind_ok.2 ⟨a, cs ++ rest, by rw [List.append_assoc, hr], hf rest⟩

theorem Reads.map {r : ByteReader ε α} {bs : List UInt8} {a : α} (h : Reads r bs a) (g : α → β) :
    Reads (do let x ← r; pure (g x)) bs (g a) := fun rest =>
  bind_ok.2 ⟨a, rest, h rest, rfl⟩

theorem reads_check {p : Prop} [Decidable p] {e : ε} (hp : p) : Reads (check p e) [] () := by
  unfold check
  rw [if_pos hp]
  exact reads_pure ()

/-- The number of bytes that are left, of which there may be more. -/
theorem reads_remaining {f : ℕ → ByteReader ε α} {bs : List UInt8} {a : α}
    (hf : ∀ n, bs.length ≤ n → Reads (f n) bs a) : Reads (do let n ← remaining; f n) bs a :=
  fun rest => bind_ok.2 ⟨_, _, rfl, hf _ (by simp) rest⟩

theorem Reads.check {p : Prop} [Decidable p] {e : ε} {f : ByteReader ε α} {bs : List UInt8} {a : α}
    (hp : p) (hf : Reads f bs a) : Reads (do check p e; f) bs a :=
  fun rest => bind_ok.2 ⟨(), _, check_ok.2 ⟨hp, rfl⟩, hf rest⟩

theorem reads_enough {p : ℕ → Prop} [DecidablePred p] {e : ε} {f : ByteReader ε α}
    {bs : List UInt8} {a : α} (hp : ∀ n, bs.length ≤ n → p n) (hf : Reads f bs a) :
    Reads (do let n ← remaining; check (p n) e; f) bs a :=
  reads_remaining fun n hn => hf.check (hp n hn)

theorem reads_bytes (e : ε) (bs : List UInt8) : Reads (readBytes e bs.length) bs bs := fun rest => by
  rw [readBytes, if_pos (by simp), List.take_left, List.drop_left]

theorem reads_nat {e : ε} {w n : ℕ} (h : n < 256 ^ w) : Reads (readNat e w) (leBytes w n) n := by
  have hbytes := reads_bytes e (leBytes w n)
  rw [leBytes_length] at hbytes
  have hread := hbytes.map ofLeBytes
  rwa [ofLeBytes_leBytes h] at hread

theorem Reads.readMany {r : ByteReader ε α} {w : α → List UInt8} {as : List α}
    (h : ∀ a ∈ as, Reads r (w a) a) : Reads (readMany r as.length) (as.flatMap w) as := by
  induction as with
  | nil => exact reads_pure []
  | cons a as ih =>
    obtain ⟨ha, has⟩ := List.forall_mem_cons.mp h
    exact ha.bind ((ih has).map (a :: ·))

end ByteReader
end RocmFpx
