import RocmFpx.ByteReader

/-!
Programs that read bytes, apart from where the bytes come from. A program asks for bytes, or
whether enough of them are left. `onBytes` runs it on a byte string; what it makes of a string
it makes of every longer one.
-/

namespace RocmFpx

open ByteReader

inductive ReadProgram (ε α : Type) where
  | done (a : α)
  | fail (e : ε)
  | require (e : ε) (n : ℕ) (k : ReadProgram ε α)
  | read (e : ε) (n : ℕ) (k : List UInt8 → ReadProgram ε α)

namespace ReadProgram

variable {ε α β : Type}

def bind : ReadProgram ε α → (α → ReadProgram ε β) → ReadProgram ε β
  | done a, f => f a
  | fail e, _ => fail e
  | require e n k, f => require e n (k.bind f)
  | read e n k, f => read e n fun bs => (k bs).bind f

instance : Monad (ReadProgram ε) where
  pure := done
  bind := bind

/-! ## Programs -/

def check (p : Prop) [Decidable p] (e : ε) : ReadProgram ε Unit := if p then done () else fail e

def readBytes (e : ε) (n : ℕ) : ReadProgram ε (List UInt8) := read e n done

def readNat (e : ε) (w : ℕ) : ReadProgram ε ℕ := do
  let bs ← readBytes e w
  pure (ofLeBytes bs)

def readMany (r : ReadProgram ε α) : ℕ → ReadProgram ε (List α)
  | 0 => pure []
  | n + 1 => do
    let a ← r
    let as ← readMany r n
    pure (a :: as)

/-- Reads items one by one, each in the light of the keys seen before it. -/
def readSeen (key : α → β) (r : List β → ReadProgram ε α) : ℕ → List β → ReadProgram ε (List α)
  | 0, _ => pure []
  | n + 1, seen => do
    let a ← r seen
    let as ← readSeen key r n (key a :: seen)
    pure (a :: as)

/-! ## On a byte string -/

def onBytes : ReadProgram ε α → ByteReader ε α
  | done a => pure a
  | fail e => ByteReader.fail e
  | require e n k => do
    let left ← remaining
    ByteReader.check (n ≤ left) e
    k.onBytes
  | read e n k => do
    let bs ← ByteReader.readBytes e n
    (k bs).onBytes

theorem onBytes_require (e : ε) (n : ℕ) (k : ReadProgram ε α) (bs : List UInt8) :
    (require e n k).onBytes bs = if n ≤ bs.length then k.onBytes bs else .error e := by
  change (ByteReader.check (n ≤ bs.length) e >>= fun _ => k.onBytes) bs = _
  unfold ByteReader.check
  split_ifs <;> rfl

theorem onBytes_read (e : ε) (n : ℕ) (k : List UInt8 → ReadProgram ε α) (bs : List UInt8) :
    (read e n k).onBytes bs =
      if n ≤ bs.length then (k (bs.take n)).onBytes (bs.drop n) else .error e := by
  change (ByteReader.readBytes e n bs).bind _ = _
  unfold ByteReader.readBytes
  split_ifs <;> rfl

theorem fail_bind (e : ε) (f : α → ByteReader ε β) :
    (ByteReader.fail e : ByteReader ε α) >>= f = ByteReader.fail e := rfl

theorem onBytes_bind (p : ReadProgram ε α) (f : α → ReadProgram ε β) :
    (p >>= f).onBytes = p.onBytes >>= fun a => (f a).onBytes := by
  induction p with
  | done a => exact (pure_bind a fun a => (f a).onBytes).symm
  | fail e => exact (fail_bind e _).symm
  | require e n k ih =>
    change onBytes (require e n (k >>= f)) = _
    simp only [onBytes, bind_assoc, ih]
  | read e n k ih =>
    change onBytes (read e n fun bs => k bs >>= f) = _
    simp only [onBytes, bind_assoc, ih]

theorem onBytes_pure (a : α) : (pure a : ReadProgram ε α).onBytes = pure a := rfl

theorem onBytes_check (p : Prop) [Decidable p] (e : ε) :
    (check p e).onBytes = ByteReader.check p e := by
  unfold check ByteReader.check
  split_ifs <;> rfl

theorem onBytes_readBytes (e : ε) (n : ℕ) :
    (readBytes e n).onBytes = ByteReader.readBytes e n := by
  simp only [readBytes, onBytes, bind_pure]

theorem onBytes_readNat (e : ε) (w : ℕ) : (readNat e w).onBytes = ByteReader.readNat e w := by
  rw [readNat, onBytes_bind, onBytes_readBytes]
  rfl

theorem onBytes_readMany {r : ReadProgram ε α} {r' : ByteReader ε α} (h : r.onBytes = r') (n : ℕ) :
    (readMany r n).onBytes = ByteReader.readMany r' n := by
  induction n with
  | zero => rfl
  | succ n ih => simp only [readMany, ByteReader.readMany, onBytes_bind, onBytes_pure, ih, h]

theorem onBytes_readSeen {key : α → β} {r : List β → ReadProgram ε α} {r' : List β → ByteReader ε α}
    (h : ∀ seen, (r seen).onBytes = r' seen) (n : ℕ) (seen : List β) :
    (readSeen key r n seen).onBytes = ByteReader.readSeen key r' n seen := by
  induction n generalizing seen with
  | zero => rfl
  | succ n ih => simp only [readSeen, ByteReader.readSeen, onBytes_bind, onBytes_pure, ih, h]

theorem onBytes_append (p : ReadProgram ε α) {bs rest : List UInt8} {a : α}
    (h : p.onBytes bs = .ok (a, rest)) (more : List UInt8) :
    p.onBytes (bs ++ more) = .ok (a, rest ++ more) := by
  induction p generalizing bs with
  | done b =>
    obtain ⟨rfl, rfl⟩ := pure_ok.1 h
    rfl
  | fail e => nomatch h
  | require e n k ih =>
    rw [onBytes_require] at h ⊢
    split_ifs at h with hle
    rw [if_pos (by rw [List.length_append]; exact Nat.le_add_right_of_le hle), ih h]
  | read e n k ih =>
    rw [onBytes_read] at h ⊢
    split_ifs at h with hle
    rw [if_pos (by rw [List.length_append]; exact Nat.le_add_right_of_le hle),
      List.take_append_of_le_length hle, List.drop_append_of_le_length hle, ih _ h]

end ReadProgram
end RocmFpx
