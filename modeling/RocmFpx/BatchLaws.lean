import RocmFpx.BatchSplit

/-!
The arrays of an accepted batch, entry by entry, and the rows of the ubatches made from
them.
-/

namespace RocmFpx

open FlatRows

variable {E : Type*} {inp : BatchExt E}

namespace BatchExt

/-! ## Kinds of entries -/

theorem contentOk_iff (allowMixed : Bool) : inp.contentOk allowMixed = true ↔
    (∀ t ∈ inp.tokens, (t.isTok = true ∨ t.hasEmbd = true) ∧ t.hasState = inp.hasState) ∧
      (inp.nBoth = 0 ∨ inp.nBoth = inp.nTok) ∧ (inp.mixed = true → allowMixed = true) := by
  simp [contentOk, and_assoc, or_iff_not_imp_left]

theorem nTokOnly_pos : 0 < inp.nTokOnly ↔ ∃ t ∈ inp.tokens, t.isTok = true ∧ t.hasEmbd = false := by
  simp [nTokOnly, List.countP_pos_iff]

theorem nEmbdOnly_pos : 0 < inp.nEmbdOnly ↔ ∃ t ∈ inp.tokens, t.hasEmbd = true ∧ t.isTok = false := by
  simp [nEmbdOnly, List.countP_pos_iff]

theorem nBoth_pos : 0 < inp.nBoth ↔ ∃ t ∈ inp.tokens, t.isTok = true ∧ t.hasEmbd = true := by
  simp [nBoth, List.countP_pos_iff]

theorem hasToken_iff : inp.hasToken = true ↔ 0 < inp.nTokOnly ∨ 0 < inp.nBoth := by
  simp [hasToken]

theorem hasEmbd_iff : inp.hasEmbd = true ↔ 0 < inp.nEmbdOnly ∨ 0 < inp.nBoth := by
  simp [hasEmbd]

theorem mixed_iff : inp.mixed = true ↔ 0 < inp.nTokOnly ∧ 0 < inp.nEmbdOnly := by
  simp [mixed]

/-- The entries are tokens and embeddings in turn, or they all have the same parts. -/
structure Kinds (inp : BatchExt E) : Prop where
  mixed : inp.mixed = true → ∀ t ∈ inp.tokens, t.hasEmbd = !t.isTok
  token : inp.mixed = false → ∀ t ∈ inp.tokens, t.isTok = inp.hasToken
  embd : inp.mixed = false → ∀ t ∈ inp.tokens, t.hasEmbd = inp.hasEmbd
  hasToken : ∀ t ∈ inp.tokens, t.isTok = true → inp.hasToken = true
  hasEmbd : ∀ t ∈ inp.tokens, t.hasEmbd = true → inp.hasEmbd = true

theorem hasToken_of_isTok {t : BatchToken} (ht : t ∈ inp.tokens) (h : t.isTok = true) :
    inp.hasToken = true := by
  rw [hasToken_iff, nTokOnly_pos, nBoth_pos]
  cases he : t.hasEmbd with
  | false => exact .inl ⟨t, ht, h, he⟩
  | true => exact .inr ⟨t, ht, h, he⟩

theorem hasEmbd_of_hasEmbd {t : BatchToken} (ht : t ∈ inp.tokens) (h : t.hasEmbd = true) :
    inp.hasEmbd = true := by
  rw [hasEmbd_iff, nEmbdOnly_pos, nBoth_pos]
  cases he : t.isTok with
  | false => exact .inl ⟨t, ht, h, he⟩
  | true => exact .inr ⟨t, ht, he, h⟩

theorem kinds {allowMixed : Bool} (h : inp.contentOk allowMixed = true) : inp.Kinds := by
  obtain ⟨hkind, hboth, -⟩ := (contentOk_iff allowMixed).mp h
  have hsome : ∀ t ∈ inp.tokens, t.isTok = false → t.hasEmbd = true := fun t ht hf =>
    (hkind t ht).1.resolve_left (by rw [hf]; exact Bool.false_ne_true)
  have hall : 0 < inp.nBoth → ∀ t ∈ inp.tokens, t.isTok = true ∧ t.hasEmbd = true := by
    intro hpos t ht
    have hlen : inp.nBoth = inp.tokens.length := hboth.resolve_left (by omega)
    simpa using List.countP_eq_length.mp hlen t ht
  refine ⟨fun hmixed t ht => ?_, fun hmixed t ht => ?_, fun hmixed t ht => ?_,
    fun t ht => hasToken_of_isTok ht, fun t ht => hasEmbd_of_hasEmbd ht⟩
  · obtain ⟨htok, -⟩ := mixed_iff.1 hmixed
    obtain ⟨u, hu, -, hue⟩ := nTokOnly_pos.1 htok
    have hnone : ¬0 < inp.nBoth := fun hpos => Bool.false_ne_true (hue.symm.trans (hall hpos u hu).2)
    cases hk : t.isTok with
    | false => exact hsome t ht hk
    | true =>
      rw [Bool.not_true, ← Bool.not_eq_true]
      exact fun he => hnone (nBoth_pos.2 ⟨t, ht, hk, he⟩)
  · rw [← Bool.not_eq_true, mixed_iff] at hmixed
    cases hk : t.isTok with
    | true => exact (hasToken_of_isTok ht hk).symm
    | false =>
      symm
      rw [← Bool.not_eq_true, hasToken_iff]
      rintro (hpos | hpos)
      · exact hmixed ⟨hpos, nEmbdOnly_pos.2 ⟨t, ht, hsome t ht hk, hk⟩⟩
      · exact Bool.false_ne_true (hk.symm.trans (hall hpos t ht).1)
  · rw [← Bool.not_eq_true, mixed_iff] at hmixed
    cases he : t.hasEmbd with
    | true => exact (hasEmbd_of_hasEmbd ht he).symm
    | false =>
      have hk : t.isTok = true := by
        by_contra hne
        rw [Bool.not_eq_true] at hne
        exact Bool.false_ne_true (he.symm.trans (hsome t ht hne))
      symm
      rw [← Bool.not_eq_true, hasEmbd_iff]
      rintro (hpos | hpos)
      · exact hmixed ⟨nTokOnly_pos.2 ⟨t, ht, hk, he⟩, hpos⟩
      · exact Bool.false_ne_true (he.symm.trans (hall hpos t ht).2)

/-! ## The flat arrays -/

end BatchExt

namespace BatchAllocr

variable [Zero E] {nPosPerEmbd : ℕ} {allowMixed outputAll : Bool} {b : BatchAllocr E}

open BatchExt

/-! ## What `init` prepares -/

/-- The arrays agree with the entries. -/
structure Prepared (inp : BatchExt E) (nPosPerEmbd : ℕ) (outputAll : Bool) (b : BatchAllocr E) :
    Prop where
  kinds : inp.Kinds
  nonempty : inp.tokens ≠ []
  sections : b.nPosPerEmbd = nPosPerEmbd
  nEmbd : b.nEmbd = inp.rowWidth
  nTokens : b.nTokens = inp.nTok
  token : b.token = if inp.hasToken then some inp.tokenVec else none
  embd : b.embd = if inp.hasEmbd then some inp.embdVec else none
  pos : b.pos = inp.posVec nPosPerEmbd
  seqId : b.seqId = inp.tokens.map BatchToken.seqIds
  logits : b.logits = inp.outputVec outputAll
  isEmbdVec : b.isEmbdVec = inp.isEmbdVec
  seqSet : b.seqSet = inp.tokens.map fun t => t.seqIds.toFinset
  accepted : inp.checkSubsets.isSome = true

theorem init_prepared (h : init nPosPerEmbd allowMixed inp outputAll = some b) :
    Prepared inp nPosPerEmbd outputAll b := by
  rw [init] at h
  by_cases hacc : inp.accepts nPosPerEmbd allowMixed = true
  swap
  · rw [if_neg hacc] at h
    cases h
  rw [if_pos hacc] at h
  obtain rfl := Option.some.inj h
  simp only [accepts, Bool.and_eq_true, decide_eq_true_eq] at hacc
  obtain ⟨⟨⟨⟨⟨⟨⟨hne, -⟩, hcontent⟩, -⟩, -⟩, -⟩, -⟩, hsubsets⟩ := hacc
  exact ⟨BatchExt.kinds hcontent, hne, rfl, rfl, rfl, rfl, rfl, rfl, rfl, rfl, rfl, rfl, hsubsets⟩

namespace Prepared

variable (h : Prepared inp nPosPerEmbd outputAll b)
include h

theorem seqSetAt {i : ℕ} {t : BatchToken} (ht : inp.tokens[i]? = some t) :
    b.seqSetAt i = t.seqIds.toFinset := by
  rw [BatchAllocr.seqSetAt, h.seqSet, List.getD_eq_getElem?_getD, List.getElem?_map, ht]
  rfl

theorem seqSetAt_ne {i : ℕ} (hi : i < b.nTokens) : b.seqSetAt i ≠ ∅ := by
  rw [h.nTokens] at hi
  rw [h.seqSetAt (List.getElem?_eq_getElem hi), ne_eq, List.toFinset_eq_empty_iff]
  exact (inp.tokens[i]).seqIds_ne

theorem isOutput {i : ℕ} {t : BatchToken} (ht : inp.tokens[i]? = some t) :
    b.isOutput i = (t.output || outputAll) := by
  rw [BatchAllocr.isOutput, h.logits, outputVec, List.getD_eq_getElem?_getD, List.getElem?_map, ht,
    Option.map_some, Option.getD_some]
  cases t.output || outputAll <;> rfl

variable {idxs : List ℕ} {nSeqs k i : ℕ} {equalSeqs : Bool} {t : BatchToken}

end Prepared

end BatchAllocr
end RocmFpx
