import RocmFpx.LongestAffix
import RocmFpx.OffsetTable
import RocmFpx.Plamo2Tokenizer

/-!
The table that `build` leaves: which suffixes there are, in which order, and what their ids are.
-/

namespace RocmFpx
namespace Plamo2

open Unicode

/-! ## Code points -/

def Valid (cpts : List ℕ) : Prop := ∀ c ∈ cpts, c ≤ maxCpt

theorem Valid.tail {c : ℕ} {w : List ℕ} (h : Valid (c :: w)) : Valid w :=
  (List.forall_mem_cons.mp h).2

theorem Valid.of_prefix {w u : List ℕ} (h : Valid u) (hw : w <+: u) : Valid w :=
  fun c hc => h c (hw.subset hc)

theorem Valid.of_suffix {w u : List ℕ} (h : Valid u) (hw : w <:+ u) : Valid w :=
  fun c hc => h c (hw.subset hc)

theorem cptsFromUtf8_encode {w : List ℕ} (h : Valid w) : cptsFromUtf8 (encode w) = w :=
  cptsFromUtf8_flatMap h

theorem encode_inj {w w' : List ℕ} (h : Valid w) (h' : Valid w') (heq : encode w = encode w') :
    w = w' := by
  rw [← cptsFromUtf8_encode h, heq, cptsFromUtf8_encode h']

theorem encode_cons (c : ℕ) (w : List ℕ) : encode (c :: w) = utf8Bytes c ++ encode w :=
  List.flatMap_cons

theorem encode_append (w w' : List ℕ) : encode (w ++ w') = encode w ++ encode w' :=
  List.flatMap_append

theorem encode_ne_nil {w : List ℕ} (h : w ≠ []) : encode w ≠ [] := by
  obtain ⟨c, w, rfl⟩ := List.exists_cons_of_ne_nil h
  rw [encode_cons]
  exact List.append_ne_nil_of_left_ne_nil (utf8Bytes_ne_nil c) _

/-- What the loader of a vocabulary promises, with token texts that are UTF-8 and scores that are
better than the one of an unknown token. -/
structure WellFormed (vocab : List TokenData) : Prop where
  unique : (vocab.map TokenData.text).Nodup
  nonempty : ∀ entry ∈ vocab, entry.text ≠ []
  scored : ∀ entry ∈ vocab, entry.isByte = false → ∃ s, entry.score = some s ∧ UNKNOWN_SCORE < s
  utf8 : ∀ entry ∈ vocab, entry.isByte = false → ∃ w, Valid w ∧ entry.text = encode w

/-! ## Suffixes -/

theorem mem_properSuffixes {w x : List ℕ} :
    x ∈ properSuffixes w ↔ x ≠ [] ∧ x <:+ w ∧ x ≠ w := by
  induction w with
  | nil =>
    refine iff_of_false List.not_mem_nil fun h => h.1 (List.suffix_nil.mp h.2.1)
  | cons c w ih =>
    rw [properSuffixes, List.suffix_cons_iff]
    split_ifs with hw
    · obtain rfl := hw
      refine iff_of_false List.not_mem_nil ?_
      rintro ⟨hne, heq | hsuffix, hproper⟩
      · exact hproper heq
      · exact hne (List.suffix_nil.mp hsuffix)
    · rw [List.mem_cons, ih]
      constructor
      · rintro (rfl | ⟨hne, hsuffix, -⟩)
        · exact ⟨hw, .inr List.suffix_rfl, fun h => List.cons_ne_self c x h.symm⟩
        · refine ⟨hne, .inr hsuffix, ?_⟩
          rintro rfl
          have := hsuffix.length_le
          simp at this
      · rintro ⟨hne, heq | hsuffix, hproper⟩
        · exact absurd heq hproper
        · by_cases hx : x = w
          · exact .inl hx
          · exact .inr ⟨hne, hsuffix, hx⟩

theorem lookup_addSuffix (scores : Scores) (suffix text : Text) :
    (addSuffix scores suffix).lookup text =
      if scores.lookup text = none ∧ text = suffix then some none else scores.lookup text := by
  rw [addSuffix]
  by_cases hnone : (scores.lookup suffix).isNone
  · rw [if_pos hnone]
    by_cases heq : text = suffix
    · rw [heq, AList.lookup_insert, if_pos ⟨Option.isNone_iff_eq_none.mp hnone, rfl⟩]
    · rw [AList.lookup_insert_ne heq, if_neg fun h => heq h.2]
  · rw [if_neg hnone, if_neg]
    rintro ⟨h, rfl⟩
    exact hnone (Option.isNone_iff_eq_none.mpr h)

theorem lookup_foldl_addSuffix (suffixes : List Text) (scores : Scores) (text : Text) :
    (suffixes.foldl addSuffix scores).lookup text =
      if scores.lookup text = none ∧ text ∈ suffixes then some none else scores.lookup text := by
  induction suffixes generalizing scores with
  | nil => rw [if_neg fun h => List.not_mem_nil h.2]; rfl
  | cons suffix suffixes ih =>
    simp only [List.foldl_cons, ih, lookup_addSuffix, List.mem_cons]
    by_cases hnone : scores.lookup text = none
    · by_cases heq : text = suffix
      · simp [hnone, heq]
      · simp [hnone, heq]
    · simp [hnone]

/-- The texts that a token adds besides its own. -/
def suffixTexts (entry : TokenData) : List Text :=
  (properSuffixes (cptsFromUtf8 entry.text)).map encode

theorem lookup_addToken {entry : TokenData} (hbyte : entry.isByte = false) (scores : Scores)
    (text : Text) : (addToken scores entry).lookup text =
      if text = entry.text then some entry.score
      else if scores.lookup text = none ∧ text ∈ suffixTexts entry then some none
      else scores.lookup text := by
  rw [addToken, hbyte, if_neg Bool.false_ne_true, lookup_foldl_addSuffix]
  by_cases heq : text = entry.text
  · rw [heq, AList.lookup_insert, if_pos rfl, if_neg fun h => nomatch h.1]
  · rw [AList.lookup_insert_ne heq, if_neg heq]
    rfl

theorem addToken_byte {entry : TokenData} (hbyte : entry.isByte = true) (scores : Scores) :
    addToken scores entry = scores := if_pos hbyte

theorem suffixToScore_concat (vocab : List TokenData) (entry : TokenData) :
    suffixToScore (vocab ++ [entry]) = addToken (suffixToScore vocab) entry := by
  rw [suffixToScore, List.foldl_concat]
  rfl

theorem lookup_isSome_iff (vocab : List TokenData) (text : Text) :
    ((suffixToScore vocab).lookup text).isSome ↔
      ∃ entry ∈ vocab, entry.isByte = false ∧ (text = entry.text ∨ text ∈ suffixTexts entry) := by
  induction vocab using List.reverseRecOn with
  | nil => simp [suffixToScore]
  | append_singleton vocab entry ih =>
    rw [suffixToScore_concat]
    simp only [List.mem_append, List.mem_singleton, or_and_right, exists_or, exists_eq_left]
    rw [← ih]
    cases hbyte : entry.isByte with
    | true => rw [addToken_byte hbyte]; simp
    | false =>
      rw [lookup_addToken hbyte]
      by_cases heq : text = entry.text
      · simp [heq]
      · by_cases hmem : text ∈ suffixTexts entry
        · by_cases hnone : (suffixToScore vocab).lookup text = none
          · simp [heq, hmem, hnone]
          · simp [heq, hmem, hnone, Option.isSome_iff_ne_none]
        · simp [heq, hmem]

theorem lookup_token {vocab : List TokenData} (hunique : (vocab.map TokenData.text).Nodup)
    {entry : TokenData} (hentry : entry ∈ vocab) (hbyte : entry.isByte = false) :
    (suffixToScore vocab).lookup entry.text = some entry.score := by
  induction vocab using List.reverseRecOn with
  | nil => cases hentry
  | append_singleton vocab last ih =>
    rw [List.map_append, List.nodup_append] at hunique
    obtain ⟨hunique, -, hdisjoint⟩ := hunique
    rw [suffixToScore_concat]
    rcases List.mem_append.mp hentry with hentry | hlast
    · have hne : entry.text ≠ last.text := hdisjoint _ (List.mem_map_of_mem hentry) _ (by simp)
      cases hlast : last.isByte with
      | true => rw [addToken_byte hlast, ih hunique hentry]
      | false =>
        rw [lookup_addToken hlast, if_neg hne, ih hunique hentry, if_neg fun h => nomatch h.1]
    · obtain rfl := List.mem_singleton.mp hlast
      rw [lookup_addToken hbyte, if_pos rfl]

theorem exists_token_of_lookup {vocab : List TokenData} {text : Text} {s : ℤ}
    (h : (suffixToScore vocab).lookup text = some (some s)) :
    ∃ entry ∈ vocab, entry.isByte = false ∧ entry.text = text := by
  induction vocab using List.reverseRecOn with
  | nil => simp [suffixToScore] at h
  | append_singleton vocab last ih =>
    rw [suffixToScore_concat] at h
    have hprev : (suffixToScore vocab).lookup text = some (some s) →
        ∃ entry ∈ vocab ++ [last], entry.isByte = false ∧ entry.text = text := fun h => by
      obtain ⟨entry, hentry, hrest⟩ := ih h
      exact ⟨entry, List.mem_append_left _ hentry, hrest⟩
    cases hlast : last.isByte with
    | true =>
      rw [addToken_byte hlast] at h
      exact hprev h
    | false =>
      rw [lookup_addToken hlast] at h
      split_ifs at h with heq hnone
      · exact ⟨last, by simp, hlast, heq.symm⟩
      · cases h
      · exact hprev h

end Plamo2
end RocmFpx

/-!
The order of the suffixes and the table laid out along it. A suffix comes behind what remains of it
without its first code point, so the ids that `addId` asks for are already there.
-/

namespace RocmFpx
namespace Plamo2

open Unicode LongestPrefix OffsetTable

/-! ## Known words -/

instance (w : List ℕ) : Decidable (Valid w) := inferInstanceAs (Decidable (∀ c ∈ w, c ≤ maxCpt))

/-- The empty word and the suffixes of tokens. -/
def Known (scores : Scores) (w : List ℕ) : Prop :=
  Valid w ∧ (w = [] ∨ (scores.lookup (encode w)).isSome)

instance (scores : Scores) : DecidablePred (Known scores) :=
  fun w => inferInstanceAs (Decidable (Valid w ∧ (w = [] ∨ (scores.lookup (encode w)).isSome)))

theorem valid_nil : Valid [] := fun _ h => nomatch h

theorem known_nil (scores : Scores) : Known scores [] := ⟨valid_nil, .inl rfl⟩

section
variable {vocab : List TokenData} (hvocab : WellFormed vocab)

include hvocab

theorem exists_suffix_of_isSome {text : Text} (h : ((suffixToScore vocab).lookup text).isSome) :
    ∃ entry ∈ vocab, entry.isByte = false ∧ ∃ e w, Valid e ∧ entry.text = encode e ∧ w ≠ [] ∧
      w <:+ e ∧ text = encode w := by
  obtain ⟨entry, hentry, hbyte, htext⟩ := (lookup_isSome_iff vocab text).mp h
  obtain ⟨e, hvalid, he⟩ := hvocab.utf8 entry hentry hbyte
  refine ⟨entry, hentry, hbyte, e, ?_⟩
  rcases htext with rfl | hmem
  · refine ⟨e, hvalid, he, ?_, List.suffix_rfl, he⟩
    rintro rfl
    exact hvocab.nonempty entry hentry he
  · rw [suffixTexts, he, cptsFromUtf8_encode hvalid] at hmem
    obtain ⟨w, hw, rfl⟩ := List.mem_map.mp hmem
    obtain ⟨hne, hsuffix, -⟩ := mem_properSuffixes.1 hw
    exact ⟨w, hvalid, he, hne, hsuffix, rfl⟩

omit hvocab in
theorem isSome_of_suffix {entry : TokenData} (hentry : entry ∈ vocab)
    (hbyte : entry.isByte = false) {e w : List ℕ} (hvalid : Valid e) (he : entry.text = encode e)
    (hne : w ≠ []) (hsuffix : w <:+ e) : ((suffixToScore vocab).lookup (encode w)).isSome := by
  refine (lookup_isSome_iff vocab _).mpr ⟨entry, hentry, hbyte, ?_⟩
  by_cases heq : w = e
  · exact .inl (by rw [heq, he])
  · refine .inr ?_
    rw [suffixTexts, he, cptsFromUtf8_encode hvalid]
    exact List.mem_map_of_mem (mem_properSuffixes.2 ⟨hne, hsuffix, heq⟩)

theorem known_of_isSome {text : Text} (h : ((suffixToScore vocab).lookup text).isSome) :
    ∃ w, Known (suffixToScore vocab) w ∧ w ≠ [] ∧ text = encode w := by
  obtain ⟨entry, hentry, hbyte, e, w, hvalid, he, hne, hsuffix, rfl⟩ :=
    exists_suffix_of_isSome hvocab h
  exact ⟨w, ⟨hvalid.of_suffix hsuffix, .inr h⟩, hne, rfl⟩

theorem known_suffixClosed : SuffixClosed (Known (suffixToScore vocab)) where
  nil_mem := known_nil _
  of_cons c w hknown := by
    refine ⟨hknown.1.tail, ?_⟩
    by_cases hw : w = []
    · exact .inl hw
    · have hsome := hknown.2.resolve_left (List.cons_ne_nil c w)
      obtain ⟨entry, hentry, hbyte, e, x, hvalid, he, -, hsuffix, heq⟩ :=
        exists_suffix_of_isSome hvocab hsome
      obtain rfl := encode_inj hknown.1 (hvalid.of_suffix hsuffix) heq
      exact .inr (isSome_of_suffix hentry hbyte hvalid he hw
        ((List.suffix_cons c w).trans hsuffix))

end

/-! ## The order of the suffixes -/

/-- The suffixes as words of code points. -/
def suffixWords (scores : Scores) : List (List ℕ) := (sortedSuffixes scores).map cptsFromUtf8

theorem mem_sortedSuffixes {scores : Scores} {text : Text} :
    text ∈ sortedSuffixes scores ↔ text = [] ∨ (scores.lookup text).isSome := by
  rw [sortedSuffixes, List.mem_insertionSort, List.mem_append, List.mem_singleton,
    ← AList.mem_keys, AList.lookup_isSome, or_comm]

theorem pairwise_sortedSuffixes (scores : Scores) :
    (sortedSuffixes scores).Pairwise fun a b => a.reverse ≤ b.reverse := by
  have htotal : Std.Total fun a b : Text => a.reverse ≤ b.reverse :=
    ⟨fun a b => List.le_total a.reverse b.reverse⟩
  have htrans : IsTrans Text fun a b : Text => a.reverse ≤ b.reverse :=
    ⟨fun _ _ _ => List.le_trans⟩
  exact List.pairwise_insertionSort _ _

theorem not_reverse_le {w : List ℕ} (c : ℕ) :
    ¬(encode (c :: w)).reverse ≤ (encode w).reverse := by
  intro hle
  rw [encode_cons, List.reverse_append] at hle
  have heq := List.le_antisymm hle List.le_append_left
  exact utf8Bytes_ne_nil c (List.reverse_eq_nil_iff.mp (List.append_right_eq_self.mp heq))

section
variable {vocab : List TokenData} (hvocab : WellFormed vocab)

include hvocab

theorem exists_known_of_mem {text : Text} (h : text ∈ sortedSuffixes (suffixToScore vocab)) :
    ∃ w, Known (suffixToScore vocab) w ∧ text = encode w := by
  rcases mem_sortedSuffixes.1 h with rfl | hsome
  · exact ⟨[], known_nil _, rfl⟩
  · obtain ⟨w, hknown, -, htext⟩ := known_of_isSome hvocab hsome
    exact ⟨w, hknown, htext⟩

theorem sortedSuffixes_eq :
    sortedSuffixes (suffixToScore vocab) = (suffixWords (suffixToScore vocab)).map encode := by
  rw [suffixWords, List.map_map]
  refine ((List.map_congr_left fun text htext => ?_).trans (List.map_id _)).symm
  obtain ⟨w, hknown, rfl⟩ := exists_known_of_mem hvocab htext
  exact congrArg encode (cptsFromUtf8_encode hknown.1)

theorem mem_suffixWords {w : List ℕ} :
    w ∈ suffixWords (suffixToScore vocab) ↔ Known (suffixToScore vocab) w := by
  rw [suffixWords, List.mem_map]
  constructor
  · rintro ⟨text, htext, rfl⟩
    obtain ⟨w, hknown, rfl⟩ := exists_known_of_mem hvocab htext
    rwa [cptsFromUtf8_encode hknown.1]
  · intro hknown
    refine ⟨encode w, mem_sortedSuffixes.2 ?_, cptsFromUtf8_encode hknown.1⟩
    exact hknown.2.imp_left fun hw => by rw [hw]; rfl

theorem nodup_suffixWords : (suffixWords (suffixToScore vocab)).Nodup := by
  have hempty : [] ∉ (suffixToScore vocab).keys := fun hmem => by
    obtain ⟨w, -, hne, hw⟩ := known_of_isSome hvocab
      (AList.lookup_isSome.mpr (AList.mem_keys.mpr hmem))
    exact encode_ne_nil hne hw.symm
  have hnodup : (sortedSuffixes (suffixToScore vocab)).Nodup := by
    refine (List.perm_insertionSort _ _).nodup_iff.mpr ?_
    exact List.nodup_append.mpr ⟨AList.keys_nodup _, List.nodup_singleton _,
      fun a ha b hb hab => hempty (List.mem_singleton.mp hb ▸ hab ▸ ha)⟩
  refine List.Nodup.of_map encode ?_
  rwa [← sortedSuffixes_eq hvocab]

theorem mem_before {before after : List (List ℕ)} {c : ℕ} {w : List ℕ}
    (h : suffixWords (suffixToScore vocab) = before ++ (c :: w) :: after) : w ∈ before := by
  have hmem : c :: w ∈ suffixWords (suffixToScore vocab) := by rw [h]; simp
  have hw := (mem_suffixWords hvocab).mpr
    ((known_suffixClosed hvocab).of_cons c w ((mem_suffixWords hvocab).mp hmem))
  have hsorted := pairwise_sortedSuffixes (suffixToScore vocab)
  rw [sortedSuffixes_eq hvocab, List.pairwise_map] at hsorted
  rw [h] at hw hsorted
  rcases List.mem_append.mp hw with hw | hw
  · exact hw
  · rcases List.mem_cons.mp hw with hw | hw
    · exact absurd hw.symm (List.cons_ne_self c w)
    · have hle := (List.pairwise_cons.mp (List.pairwise_append.mp hsorted).2.1).1 w hw
      exact absurd hle (not_reverse_le c)

theorem exists_suffixWords_eq_cons :
    ∃ words, suffixWords (suffixToScore vocab) = [] :: words := by
  have hmem := (mem_suffixWords hvocab).mpr (known_nil _)
  obtain ⟨w, words, heq⟩ := List.exists_cons_of_ne_nil (List.ne_nil_of_mem hmem)
  cases w with
  | nil => exact ⟨words, heq⟩
  | cons c w =>
    have hbefore : suffixWords (suffixToScore vocab) = [] ++ (c :: w) :: words := heq
    exact nomatch mem_before hvocab hbefore

end

/-! ## The ids -/

/-- The number of rows of a suffix. -/
def rowCount (scores : Scores) (w : List ℕ) : ℕ := (piecesOf scores (encode w)).length + 1

theorem rowCount_pos (scores : Scores) (w : List ℕ) : 0 < rowCount scores w := Nat.succ_pos _

/-- The id of a suffix. -/
def idOf (scores : Scores) (w : List ℕ) : ℕ := offset (rowCount scores) (suffixWords scores) w

/-- What the ids are once the suffixes of a list have theirs. -/
structure Assigned (scores : Scores) (words : List (List ℕ)) (ids : Ids) : Prop where
  numPieces : ids.numPieces = (words.map (rowCount scores)).sum
  suffixToId : ∀ w ∈ words, ids.suffixToId (encode w) = idOf scores w
  forward : ∀ c w, c :: w ∈ words → ids.toSuffixId (c, idOf scores w) = idOf scores (c :: w)
  backward : ∀ c i, ids.toSuffixId (c, i) ≠ 0 → ∃ w, c :: w ∈ words ∧ i = idOf scores w

theorem addId_nil (scores : Scores) (ids : Ids) : addId scores ids (encode []) =
    { ids with
      suffixToId := Function.update ids.suffixToId (encode []) ids.numPieces
      numPieces := ids.numPieces + rowCount scores [] } := rfl

theorem addId_cons {scores : Scores} {ids : Ids} {c : ℕ} {w : List ℕ} (h : Valid (c :: w)) :
    addId scores ids (encode (c :: w)) =
      { suffixToId := Function.update ids.suffixToId (encode (c :: w)) ids.numPieces
        toSuffixId := Function.update ids.toSuffixId (c, Function.update ids.suffixToId
          (encode (c :: w)) ids.numPieces (encode w)) ids.numPieces
        numPieces := ids.numPieces + rowCount scores (c :: w) } := by
  simp only [addId, cptsFromUtf8_encode h, rowCount, Nat.add_comm 1]

section
variable {vocab : List TokenData} (hvocab : WellFormed vocab)

include hvocab

theorem idOf_nil : idOf (suffixToScore vocab) [] = 0 := by
  obtain ⟨words, hwords⟩ := exists_suffixWords_eq_cons hvocab
  rw [idOf, hwords, offset_self]

theorem idOf_inj {w x : List ℕ} (hw : Known (suffixToScore vocab) w)
    (hx : Known (suffixToScore vocab) x)
    (h : idOf (suffixToScore vocab) w = idOf (suffixToScore vocab) x) : w = x :=
  offset_inj (rowCount_pos _) ((mem_suffixWords hvocab).mpr hw) ((mem_suffixWords hvocab).mpr hx) h

theorem idOf_pos {c : ℕ} {w : List ℕ} : 0 < idOf (suffixToScore vocab) (c :: w) := by
  obtain ⟨words, hwords⟩ := exists_suffixWords_eq_cons hvocab
  rw [idOf, hwords]
  exact offset_pos (rowCount_pos _) (List.cons_ne_nil c w).symm

theorem Assigned.addId {before after : List (List ℕ)} {w : List ℕ} {ids : Ids}
    (hwords : suffixWords (suffixToScore vocab) = before ++ w :: after)
    (h : Assigned (suffixToScore vocab) before ids) :
    Assigned (suffixToScore vocab) (before ++ [w]) (addId (suffixToScore vocab) ids (encode w)) := by
  have hmem : ∀ x ∈ before ++ [w], Known (suffixToScore vocab) x := fun x hx =>
    (mem_suffixWords hvocab).mp (by rw [hwords]; simp at hx ⊢; tauto)
  have hnodup := nodup_suffixWords hvocab
  rw [hwords] at hnodup
  have hnew : w ∉ before := fun hw =>
    (List.nodup_append.mp hnodup).2.2 w hw w List.mem_cons_self rfl
  have hid : idOf (suffixToScore vocab) w = ids.numPieces := by
    rw [idOf, hwords, offset_append_self hnew, h.numPieces]
  have hother : ∀ x ∈ before, encode x ≠ encode w := fun x hx heq =>
    hnew (encode_inj (hmem x (List.mem_append_left _ hx)).1 (hmem w (by simp)).1 heq ▸ hx)
  have hsuffix : ∀ x ∈ before ++ [w],
      Function.update ids.suffixToId (encode w) ids.numPieces (encode x) =
        idOf (suffixToScore vocab) x := fun x hx => by
    rcases List.mem_append.mp hx with hx | hx
    · rw [Function.update_of_ne (hother x hx), h.suffixToId x hx]
    · rw [List.mem_singleton.mp hx, Function.update_self, hid]
  have hcount : ids.numPieces + rowCount (suffixToScore vocab) w =
      ((before ++ [w]).map (rowCount (suffixToScore vocab))).sum := by
    rw [h.numPieces, List.map_append, List.sum_append, List.map_singleton, List.sum_singleton]
  cases w with
  | nil =>
    rw [addId_nil]
    refine ⟨hcount, hsuffix, fun c x hx => ?_, fun c i hi => ?_⟩
    · exact h.forward c x (by simpa using hx)
    · obtain ⟨x, hx, hi⟩ := h.backward c i hi
      exact ⟨x, List.mem_append_left _ hx, hi⟩
  | cons c w =>
    have hw := mem_before hvocab hwords
    rw [addId_cons (hmem (c :: w) (by simp)).1, hsuffix w (List.mem_append_left _ hw)]
    refine ⟨hcount, hsuffix, fun d x hx => ?_, fun d i hi => ?_⟩
    · change Function.update ids.toSuffixId (c, idOf (suffixToScore vocab) w) ids.numPieces
        (d, idOf (suffixToScore vocab) x) = _
      rcases List.mem_append.mp hx with hold | hx
      · -- an older suffix has its own code, since the ids of two words differ
        rw [Function.update_of_ne, h.forward d x hold]
        intro hcode
        obtain ⟨rfl, hids⟩ := Prod.mk.inj hcode
        have hknown := (known_suffixClosed hvocab).of_cons d x (hmem _ hx)
        obtain rfl := idOf_inj hvocab hknown (hmem w (List.mem_append_left _ hw)) hids
        exact hnew hold
      · obtain ⟨rfl, rfl⟩ := List.cons.inj (List.mem_singleton.mp hx)
        rw [Function.update_self, hid]
    · change Function.update ids.toSuffixId (c, idOf (suffixToScore vocab) w) ids.numPieces
        (d, i) ≠ 0 at hi
      by_cases heq : (d, i) = (c, idOf (suffixToScore vocab) w)
      · obtain ⟨rfl, rfl⟩ := Prod.mk.inj heq
        exact ⟨w, by simp, rfl⟩
      · rw [Function.update_of_ne heq] at hi
        obtain ⟨x, hx, hi⟩ := h.backward d i hi
        exact ⟨x, List.mem_append_left _ hx, hi⟩

theorem assigned_of_append {before after : List (List ℕ)}
    (hwords : suffixWords (suffixToScore vocab) = before ++ after) :
    Assigned (suffixToScore vocab) before (idsOf (suffixToScore vocab) (before.map encode)) := by
  induction before using List.reverseRecOn generalizing after with
  | nil =>
    exact ⟨rfl, fun _ h => (List.not_mem_nil h).elim, fun _ _ h => (List.not_mem_nil h).elim,
      fun _ _ h => absurd rfl h⟩
  | append_singleton before w ih =>
    rw [List.append_assoc] at hwords
    rw [idsOf, List.map_append, List.foldl_append]
    exact (ih hwords).addId hvocab hwords

theorem assigned_idsOf :
    Assigned (suffixToScore vocab) (suffixWords (suffixToScore vocab))
      (idsOf (suffixToScore vocab) (sortedSuffixes (suffixToScore vocab))) := by
  have hwords : suffixWords (suffixToScore vocab) = suffixWords (suffixToScore vocab) ++ [] :=
    (List.append_nil _).symm
  have h := assigned_of_append hvocab hwords
  rwa [← sortedSuffixes_eq hvocab] at h

end

/-! ## The rows -/

theorem build_eq_ok {vocab : List TokenData} {tk : Tokenizer} (h : build vocab = .ok tk) :
    (∀ i < 256, bytesOf vocab i ≠ 0) ∧
      tk = ⟨bytesOf vocab, (idsOf (suffixToScore vocab)
        (sortedSuffixes (suffixToScore vocab))).toSuffixId,
        (sortedSuffixes (suffixToScore vocab)).flatMap (rowsOf vocab (suffixToScore vocab)
          (idsOf (suffixToScore vocab) (sortedSuffixes (suffixToScore vocab))).suffixToId)⟩ := by
  simp only [build] at h
  split at h
  · cases h
  · split at h
    · cases h
    · rename_i hbytes
      split at h
      · cases h
      · refine ⟨fun i hi hzero => ?_, (Except.ok.inj h).symm⟩
        have hnot := List.find?_eq_none.mp hbytes i (List.mem_range.mpr hi)
        exact hnot (decide_eq_true hzero)

theorem mem_inits_tail {w x : List ℕ} : x ∈ w.inits.tail ↔ x ≠ [] ∧ x <+: w := by
  cases w with
  | nil => exact iff_of_false List.not_mem_nil fun h => h.1 (List.prefix_nil.mp h.2)
  | cons c w =>
    rw [List.inits_cons, List.tail_cons, List.mem_map, List.prefix_cons_iff]
    constructor
    · rintro ⟨y, hy, rfl⟩
      exact ⟨List.cons_ne_nil c y, .inr ⟨y, rfl, (List.mem_inits _ _).mp hy⟩⟩
    · rintro ⟨hne, heq | ⟨y, rfl, hy⟩⟩
      · exact absurd heq hne
      · exact ⟨y, (List.mem_inits _ _).mpr hy, rfl⟩

theorem reverse_inits (w : List ℕ) : w.inits.reverse = w.inits.tail.reverse ++ [[]] := by
  cases w with
  | nil => rfl
  | cons c w => rw [List.inits_cons, List.tail_cons, List.reverse_cons]

theorem mem_piecesOf {scores : Scores} {w x : List ℕ} (h : Valid w) :
    x ∈ piecesOf scores (encode w) ↔ x ≠ [] ∧ x <+: w ∧ Known scores x := by
  rw [piecesOf, cptsFromUtf8_encode h, List.mem_filter, List.mem_reverse, mem_inits_tail,
    and_assoc]
  refine and_congr_right fun hne => and_congr_right fun hx => ?_
  rw [Known, or_iff_right hne, and_iff_right (h.of_prefix hx)]

theorem piecesOf_append {scores : Scores} {w : List ℕ} (h : Valid w) :
    piecesOf scores (encode w) ++ [[]] = prefixes (Known scores) w := by
  have hfilter : ∀ x ∈ w.inits.tail.reverse,
      (scores.lookup (encode x)).isSome = decide (Known scores x) := fun x hx => by
    obtain ⟨hne, hx⟩ := mem_inits_tail.1 (List.mem_reverse.mp hx)
    rw [Bool.eq_iff_iff, decide_eq_true_iff, Known, or_iff_right hne,
      and_iff_right (h.of_prefix hx)]
  rw [piecesOf, cptsFromUtf8_encode h, prefixes, reverse_inits, List.filter_append,
    List.filter_congr hfilter, List.filter_singleton, decide_eq_true (known_nil scores)]
  rfl

/-- The row of a piece. -/
def rowFor (vocab : List TokenData) (piece : List ℕ) : Row :=
  rowOf vocab (suffixToScore vocab)
    (idsOf (suffixToScore vocab) (sortedSuffixes (suffixToScore vocab))).suffixToId piece

section
variable {vocab : List TokenData} {tk : Tokenizer} (hvocab : WellFormed vocab)
  (hbuild : build vocab = .ok tk)

include hvocab hbuild

/-- From the id of a suffix on the table has the rows of its known prefixes and then a sentinel. -/
theorem exists_drop_table {w : List ℕ} (h : Known (suffixToScore vocab) w) :
    ∃ rest, tk.table.drop (idOf (suffixToScore vocab) w) =
      (piecesOf (suffixToScore vocab) (encode w)).map (rowFor vocab) ++ sentinel :: rest := by
  obtain ⟨-, rfl⟩ := build_eq_ok hbuild
  have hsize : ∀ x ∈ suffixWords (suffixToScore vocab),
      (rowsOf vocab (suffixToScore vocab) (idsOf (suffixToScore vocab)
        (sortedSuffixes (suffixToScore vocab))).suffixToId (encode x)).length =
        rowCount (suffixToScore vocab) x := fun x _ => by
    rw [rowsOf, List.length_append, List.length_map, rowCount, List.length_singleton]
  obtain ⟨rest, hrest⟩ := drop_offset hsize ((mem_suffixWords hvocab).mpr h)
  rw [← List.flatMap_map, ← sortedSuffixes_eq hvocab, rowsOf, List.append_assoc] at hrest
  exact ⟨rest, hrest⟩

theorem toSuffixId_eq {c : ℕ} {w : List ℕ} (h : Known (suffixToScore vocab) w) :
    tk.toSuffixId (c, idOf (suffixToScore vocab) w) =
      if Known (suffixToScore vocab) (c :: w) then idOf (suffixToScore vocab) (c :: w) else 0 := by
  obtain ⟨-, rfl⟩ := build_eq_ok hbuild
  have hassigned := assigned_idsOf hvocab
  split_ifs with hknown
  · exact hassigned.forward c w ((mem_suffixWords hvocab).mpr hknown)
  · by_contra hne
    obtain ⟨x, hx, hid⟩ := hassigned.backward c _ hne
    have hxknown := (mem_suffixWords hvocab).mp hx
    obtain rfl := idOf_inj hvocab h ((known_suffixClosed hvocab).of_cons c x hxknown) hid
    exact hknown hxknown

omit hbuild in
theorem rowFor_pieceId {piece : List ℕ} (h : Known (suffixToScore vocab) piece) :
    (rowFor vocab piece).pieceId = idOf (suffixToScore vocab) piece :=
  (assigned_idsOf hvocab).suffixToId piece ((mem_suffixWords hvocab).mpr h)

end

theorem tokenToId_getElem? {vocab : List TokenData} (hunique : (vocab.map TokenData.text).Nodup)
    {id : ℕ} {entry : TokenData} (h : vocab[id]? = some entry) :
    tokenToId vocab entry.text = some id := by
  induction vocab using List.reverseRecOn with
  | nil => cases h
  | append_singleton vocab last ih =>
    rw [List.map_append, List.nodup_append] at hunique
    obtain ⟨hunique, -, hdisjoint⟩ := hunique
    rw [tokenToId, List.zipIdx_append, List.foldl_append]
    change Function.update (tokenToId vocab) last.text (some (0 + vocab.length)) entry.text = _
    rcases Nat.lt_or_ge id vocab.length with hlt | hge
    · rw [List.getElem?_append_left hlt] at h
      have hne : entry.text ≠ last.text :=
        hdisjoint _ (List.mem_map_of_mem (List.mem_of_getElem? h)) _ (by simp)
      rw [Function.update_of_ne hne, ih hunique h]
    · rw [List.getElem?_append_right hge, List.getElem?_singleton] at h
      split_ifs at h with hzero
      obtain rfl := Option.some.inj h
      rw [Function.update_self]
      exact congrArg some (by omega)

theorem bytesOf_concat (vocab : List TokenData) (last : TokenData) :
    bytesOf (vocab ++ [last]) =
      if last.isByte then
        match byteVal last.text with
        | some v => Function.update (bytesOf vocab) v vocab.length
        | none => bytesOf vocab
      else bytesOf vocab := by
  rw [bytesOf, List.zipIdx_append, List.foldl_append, Nat.zero_add]
  rfl

theorem bytesOf_ne_zero (first : TokenData) {vocab : List TokenData} {v : ℕ}
    (h : ∃ entry ∈ vocab, entry.isByte = true ∧ byteVal entry.text = some v) :
    bytesOf (first :: vocab) v ≠ 0 := by
  obtain ⟨entry, hentry, hbyte, hval⟩ := h
  induction vocab using List.reverseRecOn with
  | nil => cases hentry
  | append_singleton vocab last ih =>
    rw [← List.cons_append, bytesOf_concat]
    rcases List.mem_append.mp hentry with hentry | hlast
    · split_ifs
      · cases byteVal last.text with
        | none => exact ih hentry
        | some u =>
          dsimp only
          rw [Function.update_apply]
          split_ifs
          · exact Nat.succ_ne_zero _
          · exact ih hentry
      · exact ih hentry
    · obtain rfl := List.mem_singleton.mp hlast
      rw [if_pos hbyte, hval]
      dsimp only
      rw [Function.update_self]
      exact Nat.succ_ne_zero _

/-- The bytes and the code points are all that `build` checks. -/
theorem exists_build {vocab : List TokenData} (hbytes : ∀ i < 256, bytesOf vocab i ≠ 0)
    (hcpts : ∀ entry ∈ vocab, entry.isByte = false → Valid (cptsFromUtf8 entry.text)) :
    ∃ tk, build vocab = .ok tk := by
  have hvalid : ∀ cpts ∈ (vocab.filter fun entry => !entry.isByte).map
      fun entry => cptsFromUtf8 entry.text, Valid cpts := by
    intro cpts h
    obtain ⟨entry, hentry, rfl⟩ := List.mem_map.mp h
    obtain ⟨hmem, hbyte⟩ := List.mem_filter.mp hentry
    exact hcpts entry hmem (by simpa using hbyte)
  have hnone : ∀ part : List ℕ → List ℕ, (∀ cpts, part cpts ⊆ cpts) →
      ¬ (((vocab.filter fun entry => !entry.isByte).map fun entry =>
        cptsFromUtf8 entry.text).any fun cpts => (part cpts).any fun c => maxCpt < c) = true := by
    intro part hpart h
    obtain ⟨cpts, hmem, hany⟩ := List.any_eq_true.mp h
    obtain ⟨c, hc, hlt⟩ := List.any_eq_true.mp hany
    exact absurd (hvalid cpts hmem c (hpart cpts hc)) (not_le_of_gt (of_decide_eq_true hlt))
  have hfind : (List.range 256).find? (fun i => bytesOf vocab i = 0) = none :=
    List.find?_eq_none.mpr fun i hi hzero =>
      hbytes i (List.mem_range.mp hi) (of_decide_eq_true hzero)
  rw [build]
  simp only [hfind]
  rw [if_neg (hnone List.tail fun cpts => List.tail_subset cpts),
    if_neg (hnone (fun cpts => cpts) fun cpts => List.Subset.refl cpts)]
  exact ⟨_, rfl⟩

theorem exists_byteToken {vocab : List TokenData} {v : ℕ} (h : bytesOf vocab v ≠ 0) :
    ∃ entry, vocab[bytesOf vocab v]? = some entry ∧ entry.isByte = true ∧
      byteVal entry.text = some v := by
  induction vocab using List.reverseRecOn with
  | nil => exact absurd rfl h
  | append_singleton vocab last ih =>
    have hold : bytesOf vocab v ≠ 0 → ∃ entry, (vocab ++ [last])[bytesOf vocab v]? = some entry ∧
        entry.isByte = true ∧ byteVal entry.text = some v := fun h => by
      obtain ⟨entry, hentry, hrest⟩ := ih h
      exact ⟨entry, List.getElem?_append_left (List.getElem?_eq_some_iff.mp hentry).1 ▸ hentry,
        hrest⟩
    rw [bytesOf_concat] at h ⊢
    split_ifs at h ⊢ with hbyte
    · cases hval : byteVal last.text with
      | none =>
        rw [hval] at h
        exact hold h
      | some u =>
        rw [hval] at h
        by_cases heq : v = u
        · refine ⟨last, ?_, hbyte, by rw [hval, heq]⟩
          simp [heq]
        · simp only [Function.update_of_ne heq] at h ⊢
          exact hold h
    · exact hold h

theorem rowFor_token {vocab : List TokenData} (hvocab : WellFormed vocab) {id : ℕ}
    {entry : TokenData} {piece : List ℕ} (hentry : vocab[id]? = some entry)
    (hbyte : entry.isByte = false) (htext : entry.text = encode piece) :
    (rowFor vocab piece).tokenId = id ∧ entry.score = some (rowFor vocab piece).score ∧
      UNKNOWN_SCORE < (rowFor vocab piece).score := by
  have hmem := List.mem_of_getElem? hentry
  obtain ⟨s, hs, hlt⟩ := hvocab.scored entry hmem hbyte
  have hlookup := lookup_token hvocab.unique hmem hbyte
  have hid := tokenToId_getElem? hvocab.unique hentry
  rw [htext] at hlookup hid
  have hscore : (rowFor vocab piece).score = s := by
    rw [rowFor, rowOf, hlookup, hs]
    rfl
  refine ⟨?_, ?_, ?_⟩
  · rw [rowFor, rowOf, hid]
    rfl
  · rw [hs, hscore]
  · rw [hscore]
    exact hlt

theorem exists_token_of_score {vocab : List TokenData} {piece : List ℕ}
    (h : INVALID_SCORE < (rowFor vocab piece).score) :
    ∃ (id : ℕ) (entry : TokenData), vocab[id]? = some entry ∧ entry.isByte = false ∧
      entry.text = encode piece := by
  rw [rowFor, rowOf] at h
  cases hlookup : (suffixToScore vocab).lookup (encode piece) with
  | none => rw [hlookup] at h; exact absurd h (lt_irrefl _)
  | some score =>
    cases score with
    | none => rw [hlookup] at h; exact absurd h (lt_irrefl _)
    | some s =>
      obtain ⟨entry, hentry, hbyte, htext⟩ := exists_token_of_lookup hlookup
      obtain ⟨id, hid⟩ := List.mem_iff_getElem?.mp hentry
      exact ⟨id, entry, hid, hbyte, htext⟩

theorem rowFor_score_ne {vocab : List TokenData} (hvocab : WellFormed vocab) (piece : List ℕ) :
    (rowFor vocab piece).score ≠ UNKNOWN_SCORE := by
  by_cases h : INVALID_SCORE < (rowFor vocab piece).score
  · obtain ⟨id, entry, hentry, hbyte, htext⟩ := exists_token_of_score h
    exact (rowFor_token hvocab hentry hbyte htext).2.2.ne'
  · intro heq
    rw [heq] at h
    exact h (by decide)

/-! ## The next suffix -/

theorem nextSuffix_eq {vocab : List TokenData} {tk : Tokenizer} (hvocab : WellFormed vocab)
    (hbuild : build vocab = .ok tk) (c : ℕ) {pieces : List (List ℕ)} (rest : List Row) (s : ℕ)
    (h : ∀ x ∈ pieces, Known (suffixToScore vocab) x) :
    tk.nextSuffix c (pieces.map (rowFor vocab) ++ sentinel :: rest) s =
      idOf (suffixToScore vocab) (((pieces ++ [[]]).find? fun x =>
        Known (suffixToScore vocab) (c :: x)).elim [] fun x => c :: x) := by
  induction pieces generalizing s with
  | nil =>
    have hzero : sentinel.pieceId = idOf (suffixToScore vocab) [] := (idOf_nil hvocab).symm
    rw [List.map_nil, List.nil_append, Tokenizer.nextSuffix, hzero,
      toSuffixId_eq hvocab hbuild (known_nil _), if_pos (.inr rfl), List.nil_append,
      List.find?_singleton]
    split_ifs with hknown hdecide hdecide
    · rfl
    · exact absurd (decide_eq_true hknown) hdecide
    · exact absurd (of_decide_eq_true hdecide) hknown
    · exact (idOf_nil hvocab).symm
  | cons x pieces ih =>
    obtain ⟨hx, hpieces⟩ := List.forall_mem_cons.mp h
    rw [List.map_cons, List.cons_append, Tokenizer.nextSuffix, rowFor_pieceId hvocab hx,
      toSuffixId_eq hvocab hbuild hx, List.cons_append, List.find?_cons]
    by_cases hknown : Known (suffixToScore vocab) (c :: x)
    · rw [if_pos hknown, if_pos (.inl (idOf_pos hvocab)), decide_eq_true hknown]
      rfl
    · rw [if_neg hknown, if_neg, decide_eq_false hknown]
      · exact ih 0 hpieces
      · rintro (hpos | hscore)
        · exact absurd hpos (lt_irrefl 0)
        · exact rowFor_score_ne hvocab x hscore

theorem nextSuffix_longest {vocab : List TokenData} {tk : Tokenizer} (hvocab : WellFormed vocab)
    (hbuild : build vocab = .ok tk) (c : ℕ) {u w : List ℕ} (s : ℕ)
    (h : IsLongest (Known (suffixToScore vocab)) u w) :
    ∃ x, IsLongest (Known (suffixToScore vocab)) (c :: u) x ∧
      tk.nextSuffix c (tk.table.drop (idOf (suffixToScore vocab) w)) s =
        idOf (suffixToScore vocab) x := by
  obtain ⟨rest, hrest⟩ := exists_drop_table hvocab hbuild h.mem
  refine ⟨_, h.cons (known_suffixClosed hvocab) c, ?_⟩
  rw [hrest, nextSuffix_eq hvocab hbuild c rest s fun x hx => ((mem_piecesOf h.mem.1).mp hx).2.2,
    piecesOf_append h.mem.1]

end Plamo2
end RocmFpx
