import RocmFpx.UgmTokenizer

/-!
Normalization of the text for the unigram tokenizer (`normalize`, `normalize_prefix`): user-defined
tokens are copied, then the rules of the precompiled charsmap are applied, then single code points
are copied. The first matcher follows the trie of the user-defined tokens as far as it goes, whether
or not a token ends there.
-/

namespace RocmFpx
namespace UgmNormalizer

open NaiveTrie (Begins LongestKey exists_longestKey)
open Unicode UgmVocab

/-! ## The charsmap -/

/-- The XOR-compressed compact double array, and the replacements it points into. -/
structure Charsmap where
  xcdaArray : List UInt32 := []
  prefixReplacements : List UInt8 := []

namespace Charsmap

variable (cm : Charsmap)

def getNode (index : UInt32) : Except String UInt32 :=
  match cm.xcdaArray[index.toNat]? with
  | some node => .ok node
  | none => .error "Index out of array bounds in XCDA array!"

def getBase (index : UInt32) : Except String UInt32 :=
  (cm.getNode index).map fun packed : UInt32 =>
    UInt32.shiftLeft (packed >>> 10) ((packed &&& 0x200) >>> 6)

def getLcheck (index : UInt32) : Except String UInt32 :=
  (cm.getNode index).map fun packed => packed &&& 0x800000FF

def getLeaf (index : UInt32) : Except String Bool :=
  (cm.getNode index).map fun packed : UInt32 => (packed >>> 8) &&& 1 != 0

def getValue (index : UInt32) : Except String UInt32 :=
  (cm.getNode index).map fun packed => packed &&& 0x7FFFFFFF

/-- The node behind a byte, with the value of the rule that ends there. -/
def child (nodeIndex : UInt32) (c : UInt8) : Except String (Option (UInt32 × Option UInt32)) := do
  if c = 0 then return none
  let nodeIndex := nodeIndex ^^^ c.toUInt32
  let lcheck ← cm.getLcheck nodeIndex
  if lcheck ≠ c.toUInt32 then return none
  let isLeaf ← cm.getLeaf nodeIndex
  let base ← cm.getBase nodeIndex
  let nodeIndex := nodeIndex ^^^ base
  if isLeaf then
    let value ← cm.getValue nodeIndex
    return some (nodeIndex, some value)
  return some (nodeIndex, none)

/-- The loop of `normalize_prefix` behind `n` bytes, with the last rule that was met. -/
def matchFrom (nodeIndex : UInt32) : List UInt8 → ℕ → ℕ × UInt32 → Except String (ℕ × UInt32)
  | [], _, best => .ok best
  | c :: rest, n, best =>
    match cm.child nodeIndex c with
    | .error e => .error e
    | .ok none => .ok best
    | .ok (some (next, value)) =>
      matchFrom next rest (n + 1) (value.elim best fun offset => (n + 1, offset))

/-- `longest_prefix_length` and `longest_prefix_offset`. -/
def longestMatch (rest : List UInt8) : Except String (ℕ × UInt32) :=
  if cm.xcdaArray.length = 0 then .ok (0, 0)
  else
    match cm.getBase 0 with
    | .error e => .error e
    | .ok root => cm.matchFrom root rest 0 (0, 0)

def replacement (offset : UInt32) : Except String (List UInt8) :=
  let text := cm.prefixReplacements.drop offset.toNat
  if cm.prefixReplacements.length ≤ offset.toNat then
    .error "Index out of array bounds in precompiled charsmap!"
  else if 0 ∈ text then .ok (text.takeWhile (· ≠ 0))
  else .error "Unterminated string in precompiled charsmap!"

end Charsmap

/-! ## The normalizer -/

structure Normalizer where
  vocab : UgmVocab
  charsmap : Charsmap := {}
  escapeWhitespaces : Bool
  treatWhitespaceAsSuffix : Bool
  addSpacePrefix : Bool
  removeExtraWhitespaces : Bool

/-- `normalization_result` -/
structure Normalized where
  normalized : List UInt8
  consumedInput : ℕ

/-- The text as far as it is normalized, with the flags of the loop. -/
structure Progress where
  normalized : List UInt8 := []
  isSpacePrepended : Bool := false
  processingNonWs : Bool := false

namespace Normalizer

variable (v : Normalizer)

def userDefined : List (List UInt8) := (v.vocab.tokens.filter UgmToken.isUserDefined).map UgmToken.text

def userDefinedTokenMatcher : NaiveTrie ℤ := .insertAll (v.userDefined.map fun text => (text, 0)) .empty

/-- What `normalize_prefix` does when the matcher has met nothing. -/
def normalizeRest (rest : List UInt8) : Except String Normalized :=
  match v.charsmap.longestMatch rest with
  | .error e => .error e
  | .ok (length, offset) =>
    if 0 < length then
      match v.charsmap.replacement offset with
      | .error e => .error e
      | .ok out => .ok ⟨out, length⟩
    else
      match cptFromUtf8 rest with
      | some (_, tail) => .ok ⟨rest.take (rest.length - tail.length), rest.length - tail.length⟩
      | none => .ok ⟨[0xEF, 0xBF, 0xBD], 1⟩

/-- `normalize_prefix` on what remains of the input. -/
def normalizePrefix (rest : List UInt8) : Except String Normalized :=
  if rest.isEmpty then .ok ⟨[], 0⟩
  else
    let n := v.userDefinedTokenMatcher.getLongestPrefix rest 0
    if 0 < n then .ok ⟨rest.take n, n⟩ else v.normalizeRest rest

def space : List UInt8 := if v.escapeWhitespaces then [0xE2, 0x96, 0x81] else [32]

def shallPrependSpace : Bool := !v.treatWhitespaceAsSuffix && v.addSpacePrefix

def shallAppendSpace : Bool := v.treatWhitespaceAsSuffix && v.addSpacePrefix

def shallMergeSpaces : Bool := v.removeExtraWhitespaces

/-- The body of the inner loop of `normalize`. -/
def push (s : Progress) (c : UInt8) : Progress :=
  if c ≠ 32 then
    if !s.processingNonWs then
      if (v.shallPrependSpace && !s.isSpacePrepended) || v.shallMergeSpaces then
        ⟨s.normalized ++ v.space ++ [c], true, true⟩
      else ⟨s.normalized ++ [c], s.isSpacePrepended, true⟩
    else { s with normalized := s.normalized ++ [c] }
  else if !v.shallMergeSpaces then
    { s with normalized := s.normalized ++ v.space, processingNonWs := false }
  else { s with processingNonWs := false }

/-- The loop of `normalize`; there is no result when the fuel does not suffice. -/
def normalizeFrom : ℕ → List UInt8 → Progress → Option (Except String Progress)
  | 0, rest, s => if rest.isEmpty then some (.ok s) else none
  | fuel + 1, rest, s =>
    if rest.isEmpty then some (.ok s)
    else
      match v.normalizePrefix rest with
      | .error e => some (.error e)
      | .ok r => normalizeFrom fuel (rest.drop r.consumedInput) (r.normalized.foldl v.push s)

def normalize (input : List UInt8) : Option (Except String (List UInt8)) :=
  (v.normalizeFrom input.length input {}).map fun r =>
    r.map fun s => if v.shallAppendSpace then s.normalized ++ v.space else s.normalized

end Normalizer

/-! ## What normalization is to do -/

/-- The double array has the key, with the offset of its replacement. -/
def follow (cm : Charsmap) : UInt32 → Option UInt32 → List UInt8 →
    Except String (Option (UInt32 × Option UInt32))
  | nodeIndex, value, [] => .ok (some (nodeIndex, value))
  | nodeIndex, _, c :: key =>
    match cm.child nodeIndex c with
    | .error e => .error e
    | .ok none => .ok none
    | .ok (some (next, value)) => follow cm next value key

def Leaf (cm : Charsmap) (nodeIndex : UInt32) (key : List UInt8) (offset : UInt32) : Prop :=
  ∃ next, follow cm nodeIndex none key = .ok (some (next, some offset))

def HasRule (cm : Charsmap) (key : List UInt8) (offset : UInt32) : Prop :=
  ∃ root, cm.getBase 0 = .ok root ∧ Leaf cm root key offset

/-- The longest rule of the charsmap for the bytes. -/
structure LongestRule (cm : Charsmap) (rest key : List UInt8) (offset : UInt32) : Prop where
  hasRule : HasRule cm key offset
  isPrefix : key <+: rest
  longest : ∀ key' offset', HasRule cm key' offset' → key' <+: rest → key'.length ≤ key.length

/-- Without user-defined tokens: the longest rule is applied, or else one code point is copied. A
charsmap that is not well formed is refused. -/
inductive Plain (cm : Charsmap) (rest : List UInt8) : Except String Normalized → Prop
  | rule {key : List UInt8} {offset : UInt32} {out : List UInt8}
    (hrule : LongestRule cm rest key offset) (hout : cm.replacement offset = .ok out) :
    Plain cm rest (.ok ⟨out, key.length⟩)
  | cpt {c : ℕ} {tail : List UInt8} (hnone : ∀ key offset, HasRule cm key offset → ¬ key <+: rest)
    (hc : c ≤ maxCpt) (hrest : rest = utf8Bytes c ++ tail) :
    Plain cm rest (.ok ⟨utf8Bytes c, (utf8Bytes c).length⟩)
  | malformed {e : String} (h : cm.longestMatch rest = .error e) : Plain cm rest (.error e)
  | refused {key : List UInt8} {offset : UInt32} {e : String}
    (hrule : LongestRule cm rest key offset) (hout : cm.replacement offset = .error e) :
    Plain cm rest (.error e)

/-- The longest user-defined token is copied, if there is one. -/
inductive Described (v : Normalizer) (rest : List UInt8) : Except String Normalized → Prop
  | token {t : List UInt8} (ht : LongestKey v.userDefined rest t) :
    Described v rest (.ok ⟨t, t.length⟩)
  | plain {r : Except String Normalized} (hnone : ∀ t, ¬ Begins v.userDefined rest t)
    (hr : Plain v.charsmap rest r) : Described v rest r

/-- The offsets of a normalization as described, by what remains of the text. -/
inductive Reached (v : Normalizer) (text : List UInt8) : List UInt8 → Prop
  | start : Reached v text text
  | step {rest : List UInt8} {r : Normalized} (h : Reached v text rest) (hne : rest ≠ [])
    (hr : Described v rest (.ok r)) : Reached v text (rest.drop r.consumedInput)

/-- Nothing but spaces is dropped, and nothing but spaces comes in. -/
inductive Spaced (space : List UInt8) : List UInt8 → List UInt8 → Prop
  | nil : Spaced space [] []
  | keep {c : UInt8} {text out : List UInt8} (hc : c ≠ 32) (h : Spaced space text out) :
    Spaced space (c :: text) (c :: out)
  | drop {text out : List UInt8} (h : Spaced space text out) : Spaced space (32 :: text) out
  | insert {text out : List UInt8} (h : Spaced space text out) : Spaced space text (space ++ out)

/-- Normalization of a text of code points. -/
structure Normalizes (v : Normalizer) (cpts : List ℕ) : Prop where
  steps : ∀ rest, Reached v (encode cpts) rest → rest ≠ [] →
    Described v rest (v.normalizePrefix rest)
  whole : v.charsmap.xcdaArray = [] → ∀ rest, Reached v (encode cpts) rest →
    ∃ g h, cpts = g ++ h ∧ rest = encode h
  spaced : v.charsmap.xcdaArray = [] →
    ∃ out, v.normalize (encode cpts) = some (.ok out) ∧ Spaced v.space (encode cpts) out

/-! ## The longest rule -/

section

variable {cm : Charsmap} {rest key : List UInt8} {best r : ℕ × UInt32} {node : UInt32} {n : ℕ}

theorem not_leaf_nil {offset : UInt32} : ¬ Leaf cm node [] offset := by
  rintro ⟨next, h⟩
  exact nomatch Prod.mk.inj (Option.some.inj (Except.ok.inj h))

theorem not_leaf_cons {c : UInt8} {offset : UInt32} (hchild : cm.child node c = .ok none) :
    ¬ Leaf cm node (c :: key) offset := by
  rintro ⟨next, h⟩
  rw [follow, hchild] at h
  exact nomatch Except.ok.inj h

theorem leaf_cons {c : UInt8} {next : UInt32} {value : Option UInt32} {offset : UInt32}
    (hchild : cm.child node c = .ok (some (next, value))) :
    Leaf cm node (c :: key) offset ↔ key = [] ∧ value = some offset ∨ Leaf cm next key offset := by
  rw [Leaf, follow, hchild]
  cases key with
  | nil =>
    rw [or_iff_left not_leaf_nil, and_iff_right rfl]
    refine ⟨fun ⟨_, h⟩ => (Prod.mk.inj (Option.some.inj (Except.ok.inj h))).2, fun h => ?_⟩
    exact ⟨next, by rw [h]; rfl⟩
  | cons d key => exact (or_iff_right fun h => List.cons_ne_nil d key h.1).symm

theorem matchFrom_ok (h : cm.matchFrom node rest n best = .ok r) :
    (r = best ∧ ∀ key offset, key <+: rest → ¬ Leaf cm node key offset) ∨
      ∃ key offset, key <+: rest ∧ Leaf cm node key offset ∧ r = (n + key.length, offset) ∧
        ∀ key' offset', key' <+: rest → Leaf cm node key' offset' → key'.length ≤ key.length := by
  induction rest generalizing node n best with
  | nil =>
    refine .inl ⟨(Except.ok.inj h).symm, fun key offset hkey => ?_⟩
    rw [List.prefix_nil.mp hkey]
    exact not_leaf_nil
  | cons c rest ih =>
    rw [Charsmap.matchFrom] at h
    cases hchild : cm.child node c with
    | error e =>
      rw [hchild] at h
      exact nomatch h
    | ok result =>
      rw [hchild] at h
      cases result with
      | none =>
        refine .inl ⟨(Except.ok.inj h).symm, fun key offset hkey hleaf => ?_⟩
        cases key with
        | nil => exact not_leaf_nil hleaf
        | cons d key =>
          obtain ⟨rfl, -⟩ := List.cons_prefix_cons.mp hkey
          exact not_leaf_cons hchild hleaf
      | some child =>
        obtain ⟨next, value⟩ := child
        rcases ih h with ⟨hr, hall⟩ | ⟨key, offset, hkey, hleaf, hr, hall⟩
        · cases value with
          | none =>
            refine .inl ⟨hr, fun key offset hkey hleaf => ?_⟩
            cases key with
            | nil => exact not_leaf_nil hleaf
            | cons d key =>
              obtain ⟨rfl, htail⟩ := List.cons_prefix_cons.mp hkey
              exact ((leaf_cons hchild).mp hleaf).elim (fun h => nomatch h.2) (hall key offset htail)
          | some offset =>
            refine .inr ⟨[c], offset, List.cons_prefix_cons.mpr ⟨rfl, List.nil_prefix⟩,
              (leaf_cons hchild).mpr (.inl ⟨rfl, rfl⟩), hr, fun key' offset' hkey' hleaf' => ?_⟩
            cases key' with
            | nil => exact Nat.zero_le _
            | cons d key' =>
              obtain ⟨rfl, htail⟩ := List.cons_prefix_cons.mp hkey'
              obtain ⟨rfl, -⟩ | hleaf' := (leaf_cons hchild).mp hleaf'
              · exact le_rfl
              · exact absurd hleaf' (hall key' offset' htail)
        · refine .inr ⟨c :: key, offset, List.cons_prefix_cons.mpr ⟨rfl, hkey⟩,
            (leaf_cons hchild).mpr (.inr hleaf), ?_, fun key' offset' hkey' hleaf' => ?_⟩
          · rw [hr, List.length_cons, Nat.add_right_comm, Nat.add_assoc]
          · cases key' with
            | nil => exact Nat.zero_le _
            | cons d key' =>
              obtain ⟨rfl, htail⟩ := List.cons_prefix_cons.mp hkey'
              obtain ⟨rfl, -⟩ | hleaf' := (leaf_cons hchild).mp hleaf'
              · exact Nat.succ_le_succ (Nat.zero_le _)
              · exact Nat.succ_le_succ (hall key' offset' htail hleaf')

theorem not_hasRule_of_empty {offset : UInt32} (h : cm.xcdaArray = []) : ¬ HasRule cm key offset := by
  rintro ⟨root, hroot, -⟩
  rw [Charsmap.getBase, Charsmap.getNode, h, List.getElem?_nil] at hroot
  exact nomatch hroot

theorem longestMatch_ok (h : cm.longestMatch rest = .ok r) :
    (r.1 = 0 ∧ ∀ key offset, HasRule cm key offset → ¬ key <+: rest) ∨
      ∃ key, LongestRule cm rest key r.2 ∧ r.1 = key.length ∧ key ≠ [] := by
  rw [Charsmap.longestMatch] at h
  split_ifs at h with hempty
  · refine .inl ⟨by rw [← Except.ok.inj h], fun key offset hrule => ?_⟩
    exact absurd hrule (not_hasRule_of_empty (List.length_eq_zero_iff.mp hempty))
  · cases hroot : cm.getBase 0 with
    | error e =>
      rw [hroot] at h
      exact nomatch h
    | ok root =>
      rw [hroot] at h
      have hleaf : ∀ {key offset}, HasRule cm key offset → Leaf cm root key offset := by
        rintro key offset ⟨root', hroot', hleaf⟩
        rwa [← Except.ok.inj (hroot'.symm.trans hroot)]
      rcases matchFrom_ok h with ⟨rfl, hall⟩ | ⟨key, offset, hkey, hfound, rfl, hall⟩
      · exact .inl ⟨rfl, fun key offset hrule hkey => hall key offset hkey (hleaf hrule)⟩
      · refine .inr ⟨key, ⟨⟨root, hroot, hfound⟩, hkey, fun key' offset' hrule hkey' => ?_⟩, ?_, ?_⟩
        · exact hall key' offset' hkey' (hleaf hrule)
        · exact Nat.zero_add _
        · rintro rfl
          exact not_leaf_nil hfound

theorem plain_normalizeRest {v : Normalizer} (hserved : ∃ r, Plain v.charsmap rest r) :
    Plain v.charsmap rest (v.normalizeRest rest) := by
  rw [Normalizer.normalizeRest]
  cases hmatch : v.charsmap.longestMatch rest with
  | error e => exact .malformed hmatch
  | ok r =>
    obtain ⟨length, offset⟩ := r
    dsimp only
    rcases longestMatch_ok hmatch with ⟨rfl, hnone⟩ | ⟨key, hrule, rfl, hne⟩
    · rw [if_neg (Nat.lt_irrefl 0)]
      obtain ⟨r, hr⟩ := hserved
      cases hr with
      | rule hrule => exact absurd hrule.isPrefix (hnone _ _ hrule.hasRule)
      | refused hrule => exact absurd hrule.isPrefix (hnone _ _ hrule.hasRule)
      | malformed h => exact nomatch hmatch.symm.trans h
      | @cpt c tail _ hc hrest =>
        subst hrest
        have hlen : (utf8Bytes c ++ tail).length - tail.length = (utf8Bytes c).length := by
          rw [List.length_append, Nat.add_sub_cancel]
        rw [cptFromUtf8_utf8Bytes hc]
        dsimp only
        rw [hlen, List.take_left]
        exact .cpt hnone hc rfl
    · rw [if_pos (List.length_pos_iff.mpr hne)]
      cases hout : v.charsmap.replacement offset with
      | error e => exact .refused hrule hout
      | ok out => exact .rule hrule hout

end

/-! ## The matcher -/

/-- The longest prefix of the bytes that a key has too. -/
structure Shared (keys : List (List UInt8)) (rest p : List UInt8) : Prop where
  isPrefix : p <+: rest
  goesOn : p = [] ∨ ∃ key ∈ keys, p <+: key
  longest : ∀ q, q <+: rest → (∃ key ∈ keys, q <+: key) → q.length ≤ p.length

/-- What the matcher takes is what is described: a token, or nothing, or just what would have been
copied without it. -/
inductive Agrees (v : Normalizer) (rest : List UInt8) : Prop
  | token {p : List UInt8} (hp : Shared v.userDefined rest p) (hmem : p ∈ v.userDefined) (hne : p ≠ [])
  | plain (hp : Shared v.userDefined rest []) (hserved : ∃ r, Plain v.charsmap rest r)
  | same {p : List UInt8} (hp : Shared v.userDefined rest p)
    (hnone : ∀ t, ¬ Begins v.userDefined rest t)
    (hplain : Plain v.charsmap rest (.ok ⟨p, p.length⟩))

section

variable {v : Normalizer} {rest p q t : List UInt8} {keys : List (List UInt8)}

theorem Shared.eq (hp : Shared keys rest p) (hq : Shared keys rest q) : p = q := by
  have hle : ∀ {a b}, Shared keys rest a → Shared keys rest b → a.length ≤ b.length :=
    fun {a b} ha hb => by
      rcases ha.goesOn with rfl | hkey
      · exact Nat.zero_le _
      · exact hb.longest a ha.isPrefix hkey
  have hlen := Nat.le_antisymm (hle hp hq) (hle hq hp)
  rw [List.prefix_iff_eq_take.mp hp.isPrefix, List.prefix_iff_eq_take.mp hq.isPrefix, hlen]

theorem Shared.le (hp : Shared keys rest p) (ht : Begins keys rest t) : t.length ≤ p.length :=
  hp.longest t ht.isPrefix ⟨t, ht.mem, List.prefix_rfl⟩

theorem descend_userDefined :
    (v.userDefinedTokenMatcher.descend p).isSome ↔ p = [] ∨ ∃ key ∈ v.userDefined, p <+: key := by
  rw [Normalizer.userDefinedTokenMatcher, NaiveTrie.isSome_descend_insertAll, or_comm]
  refine or_congr ?_ ?_
  · cases p with
    | nil => exact iff_of_true rfl rfl
    | cons c p => exact iff_of_false (fun h => nomatch h) (List.cons_ne_nil c p)
  · constructor
    · rintro ⟨e, he, hp⟩
      obtain ⟨key, hkey, rfl⟩ := List.mem_map.mp he
      exact ⟨key, hkey, hp⟩
    · rintro ⟨key, hkey, hp⟩
      exact ⟨(key, 0), List.mem_map_of_mem hkey, hp⟩

theorem normalizePrefix_eq (hne : rest ≠ []) : ∃ p, Shared v.userDefined rest p ∧
    v.normalizePrefix rest = if p = [] then v.normalizeRest rest else .ok ⟨p, p.length⟩ := by
  obtain ⟨p, r, rfl, hlen, hwalk, hend⟩ :=
    NaiveTrie.getLongestPrefix_spec rest 0 v.userDefinedTokenMatcher
  refine ⟨p, ⟨List.prefix_append p r, descend_userDefined.1 hwalk, fun q hq hkey => ?_⟩, ?_⟩
  · by_contra hlonger
    have hpq : p <+: q := List.prefix_of_prefix_length_le (List.prefix_append p r) hq
      (Nat.le_of_not_le hlonger)
    obtain ⟨s, rfl⟩ := hpq
    obtain ⟨c, s, rfl⟩ : ∃ c s', s = c :: s' := by
      refine List.exists_cons_of_ne_nil ?_
      rintro rfl
      exact hlonger (by rw [List.append_nil])
    obtain ⟨r', hr'⟩ := (List.prefix_append_right_inj p).mp hq
    have hstop := hend c (by rw [← hr']; rfl)
    obtain ⟨key, hmem, hqkey⟩ := hkey
    have hnext : p ++ [c] <+: key := List.IsPrefix.trans ⟨s, by rw [List.append_assoc]; rfl⟩ hqkey
    have hsome := descend_userDefined.2 (.inr ⟨key, hmem, hnext⟩)
    rw [hstop] at hsome
    exact nomatch hsome
  · rw [Nat.zero_add] at hlen
    rw [Normalizer.normalizePrefix, List.isEmpty_eq_false_iff.mpr hne, if_neg Bool.false_ne_true, hlen]
    dsimp only
    rw [List.take_left]
    by_cases hp : p = []
    · subst hp
      rw [if_pos rfl]
      rfl
    · rw [if_neg hp]
      exact if_pos (List.length_pos_iff.mpr hp)

theorem described_iff (hne : rest ≠ []) :
    Described v rest (v.normalizePrefix rest) ↔ Agrees v rest := by
  obtain ⟨p, hp, hcode⟩ := normalizePrefix_eq (v := v) hne
  rw [hcode]
  constructor
  · intro h
    by_cases hnil : p = []
    · subst hnil
      rw [if_pos rfl] at h
      generalize v.normalizeRest rest = res at h
      cases h with
      | token ht => exact absurd (hp.le ht.toBegins) (Nat.not_le.mpr (List.length_pos_iff.mpr ht.ne_nil))
      | plain hnone hr => exact .plain hp ⟨_, hr⟩
    · rw [if_neg hnil] at h
      generalize hres : Except.ok (Normalized.mk p p.length) = res at h
      cases h with
      | token ht =>
        obtain rfl := congrArg Normalized.normalized (Except.ok.inj hres)
        exact .token hp ht.mem hnil
      | plain hnone hr => exact .same hp hnone (hres ▸ hr)
  · intro h
    cases h with
    | token hp' hmem hne' =>
      obtain rfl := hp.eq hp'
      rw [if_neg hne']
      exact .token ⟨⟨hne', hmem, hp.isPrefix⟩, fun key' hkey' => hp.le hkey'⟩
    | plain hp' hserved =>
      obtain rfl := hp.eq hp'
      rw [if_pos rfl]
      refine .plain (fun t ht => ?_) (plain_normalizeRest hserved)
      exact absurd (hp.le ht) (Nat.not_le.mpr (List.length_pos_iff.mpr ht.ne_nil))
    | same hp' hnone hplain =>
      obtain rfl := hp.eq hp'
      by_cases hnil : p = []
      · rw [if_pos hnil]
        exact .plain hnone (plain_normalizeRest ⟨_, hplain⟩)
      · rw [if_neg hnil]
        exact .plain hnone hplain

end

/-! ## The loop without a charsmap -/

section

variable {space text out : List UInt8}

theorem Spaced.append (h : Spaced space text out) : Spaced space text (out ++ space) := by
  induction h with
  | nil =>
    have hinsert : Spaced space [] (space ++ []) := .insert .nil
    rwa [List.append_nil] at hinsert
  | keep hc _ ih => exact .keep hc ih
  | drop _ ih => exact .drop ih
  | insert _ ih =>
    rw [List.append_assoc]
    exact .insert ih

theorem push_normalized (v : Normalizer) (s : Progress) (c : UInt8) :
    ∃ out, (v.push s c).normalized = s.normalized ++ out ∧
      ∀ text rest, Spaced v.space text rest → Spaced v.space (c :: text) (out ++ rest) := by
  rw [Normalizer.push]
  split_ifs with hc hnew hspace hmerge
  · refine ⟨v.space ++ [c], List.append_assoc _ _ _, fun text rest h => ?_⟩
    rw [List.append_assoc]
    exact .insert (.keep hc h)
  · exact ⟨[c], rfl, fun text rest h => .keep hc h⟩
  · exact ⟨[c], rfl, fun text rest h => .keep hc h⟩
  · obtain rfl := not_not.mp hc
    exact ⟨v.space, rfl, fun text rest h => .insert (.drop h)⟩
  · obtain rfl := not_not.mp hc
    exact ⟨[], (List.append_nil _).symm, fun text rest h => .drop h⟩

theorem foldl_push (v : Normalizer) (text : List UInt8) (s : Progress) :
    ∃ out, (text.foldl v.push s).normalized = s.normalized ++ out ∧ Spaced v.space text out := by
  induction text generalizing s with
  | nil => exact ⟨[], (List.append_nil _).symm, .nil⟩
  | cons c text ih =>
    obtain ⟨first, hfirst, hkeep⟩ := push_normalized v s c
    obtain ⟨out, hout, hspaced⟩ := ih (v.push s c)
    refine ⟨first ++ out, ?_, hkeep text out hspaced⟩
    rw [List.foldl_cons, hout, hfirst, List.append_assoc]

end

section

variable {v : Normalizer} {rest text : List UInt8} {cpts : List ℕ}

/-- Without a charsmap what is described is to copy. -/
theorem Described.copies {res : Except String Normalized} (hempty : v.charsmap.xcdaArray = [])
    (h : Described v rest res) : ∃ p, res = .ok ⟨p, p.length⟩ ∧ p <+: rest ∧ p ≠ [] ∧
      (LongestKey v.userDefined rest p ∨ ∃ c ≤ maxCpt, p = utf8Bytes c) := by
  cases h with
  | @token t ht => exact ⟨t, rfl, ht.isPrefix, ht.ne_nil, .inl ht⟩
  | plain _ hr =>
    cases hr with
    | rule hrule => exact absurd hrule.hasRule (not_hasRule_of_empty hempty)
    | refused hrule => exact absurd hrule.hasRule (not_hasRule_of_empty hempty)
    | malformed h =>
      rw [Charsmap.longestMatch, hempty] at h
      exact nomatch h
    | @cpt c tail _ hc hrest =>
      exact ⟨utf8Bytes c, rfl, ⟨tail, hrest.symm⟩, utf8Bytes_ne_nil c, .inr ⟨c, hc, rfl⟩⟩

theorem normalizeFrom_copies (hempty : v.charsmap.xcdaArray = [])
    (hsteps : ∀ rest, Reached v text rest → rest ≠ [] → Described v rest (v.normalizePrefix rest))
    {fuel : ℕ} (hrest : Reached v text rest) (hfuel : rest.length ≤ fuel) (s : Progress) :
    v.normalizeFrom fuel rest s = some (.ok (rest.foldl v.push s)) := by
  induction fuel generalizing rest s with
  | zero =>
    obtain rfl := List.length_eq_zero_iff.mp (Nat.le_zero.mp hfuel)
    rfl
  | succ fuel ih =>
    by_cases hne : rest = []
    · subst hne
      rfl
    · have hstep := hsteps rest hrest hne
      obtain ⟨p, hcode, ⟨tail, rfl⟩, hp, -⟩ := hstep.copies hempty
      rw [hcode] at hstep
      have hnext := hrest.step hne hstep
      have hpos := List.length_pos_iff.mpr hp
      rw [List.length_append] at hfuel
      rw [Normalizer.normalizeFrom, List.isEmpty_eq_false_iff.mpr hne, if_neg Bool.false_ne_true,
        hcode, List.foldl_append]
      dsimp only at hnext ⊢
      rw [List.drop_left] at hnext ⊢
      exact ih hnext (by omega) _

theorem normalize_spaced (hempty : v.charsmap.xcdaArray = [])
    (hsteps : ∀ rest, Reached v text rest → rest ≠ [] → Described v rest (v.normalizePrefix rest)) :
    ∃ out, v.normalize text = some (.ok out) ∧ Spaced v.space text out := by
  obtain ⟨out, hout, hspaced⟩ := foldl_push v text {}
  rw [List.nil_append] at hout
  rw [Normalizer.normalize, normalizeFrom_copies hempty hsteps .start le_rfl]
  cases hsuffix : v.shallAppendSpace with
  | true => exact ⟨out ++ v.space, by rw [← hout]; simp [Except.map], hspaced.append⟩
  | false => exact ⟨out, by rw [← hout]; simp [Except.map], hspaced⟩

/-! ## Whole characters -/

/-- The bytes are those of code points. -/
def Whole (t : List UInt8) : Prop := ∃ k, (∀ c ∈ k, c ≤ maxCpt) ∧ t = encode k

theorem encode_split {k h : List ℕ} {tail : List UInt8} (hk : ∀ c ∈ k, c ≤ maxCpt)
    (hh : ∀ c ∈ h, c ≤ maxCpt) (heq : encode h = encode k ++ tail) :
    ∃ h', h = k ++ h' ∧ tail = encode h' := by
  induction k generalizing h with
  | nil => exact ⟨h, rfl, heq.symm⟩
  | cons c k ih =>
    obtain ⟨hc, hk'⟩ := List.forall_mem_cons.mp hk
    rw [UgmVocab.encode_cons, List.append_assoc] at heq
    cases h with
    | nil => exact absurd (List.append_eq_nil_iff.mp heq.symm).1 (utf8Bytes_ne_nil c)
    | cons d h =>
      obtain ⟨hd, hh'⟩ := List.forall_mem_cons.mp hh
      have hdecode := cptFromUtf8_utf8Bytes hd (encode h)
      rw [UgmVocab.encode_cons] at heq
      rw [heq, cptFromUtf8_utf8Bytes hc] at hdecode
      obtain ⟨rfl, htail⟩ := Prod.mk.inj (Option.some.inj hdecode)
      obtain ⟨h', rfl, ht⟩ := ih hk' hh' htail.symm
      exact ⟨h', rfl, ht⟩

theorem whole_of_suffix {h h' g g' : List ℕ} {t : List UInt8} (hvalid : ∀ c ∈ cpts, c ≤ maxCpt)
    (hg : cpts = g ++ h) (hg' : cpts = g' ++ h') (heq : encode h = t ++ encode h') : Whole t := by
  rcases List.append_eq_append_iff.mp (hg.symm.trans hg') with ⟨a, -, rfl⟩ | ⟨a, -, rfl⟩
  · rw [UgmVocab.encode_append] at heq
    refine ⟨a, fun c hc => hvalid c ?_, (List.append_cancel_right heq).symm⟩
    rw [hg]
    exact List.mem_append_right g (List.mem_append_left h' hc)
  · rw [UgmVocab.encode_append] at heq
    have hlen := congrArg List.length heq
    rw [List.length_append, List.length_append] at hlen
    refine ⟨[], fun _ hc => absurd hc List.not_mem_nil, List.length_eq_zero_iff.mp ?_⟩
    omega

theorem Reached.whole (hvalid : ∀ c ∈ cpts, c ≤ maxCpt) (hempty : v.charsmap.xcdaArray = [])
    (htokens : ∀ rest, Reached v (encode cpts) rest → rest ≠ [] →
      ∀ t, LongestKey v.userDefined rest t → Whole t)
    (h : Reached v (encode cpts) rest) : ∃ g h, cpts = g ++ h ∧ rest = encode h := by
  induction h with
  | start => exact ⟨[], cpts, rfl, rfl⟩
  | @step rest r hreached hne hr ih =>
    obtain ⟨g, h, rfl, rfl⟩ := ih
    obtain ⟨p, hcode, ⟨tail, htail⟩, -, hkind⟩ := hr.copies hempty
    obtain rfl := Except.ok.inj hcode
    have hwhole : Whole p := by
      rcases hkind with ht | ⟨c, hc, rfl⟩
      · exact htokens _ hreached hne p ht
      · exact ⟨[c], List.forall_mem_singleton.mpr hc, (List.append_nil _).symm⟩
    obtain ⟨k, hk, rfl⟩ := hwhole
    obtain ⟨h', rfl, rfl⟩ := encode_split hk
      (fun c hc => hvalid c (List.mem_append_right g hc)) htail.symm
    refine ⟨g ++ k, h', (List.append_assoc g k h').symm, ?_⟩
    dsimp only
    rw [← htail, List.drop_left]

/-- The normalization is as described exactly if at each of its offsets the matcher agrees, and,
where there is no charsmap, the user-defined tokens that are met are whole code points. -/
theorem normalizes_iff (v : Normalizer) (hvalid : ∀ c ∈ cpts, c ≤ maxCpt) :
    Normalizes v cpts ↔ ∀ rest, Reached v (encode cpts) rest → rest ≠ [] →
      Agrees v rest ∧ (v.charsmap.xcdaArray = [] → ∀ t, LongestKey v.userDefined rest t → Whole t) := by
  constructor
  · intro h rest hrest hne
    refine ⟨(described_iff hne).mp (h.steps rest hrest hne), fun hempty t ht => ?_⟩
    obtain ⟨tail, htail⟩ := ht.isPrefix
    have hnext := hrest.step hne (.token ht)
    dsimp only at hnext
    rw [← htail, List.drop_left] at hnext
    obtain ⟨g, k, hg, rfl⟩ := h.whole hempty rest hrest
    obtain ⟨g', k', hg', rfl⟩ := h.whole hempty tail hnext
    exact whole_of_suffix hvalid hg hg' htail.symm
  · intro h
    have hsteps : ∀ rest, Reached v (encode cpts) rest → rest ≠ [] →
        Described v rest (v.normalizePrefix rest) :=
      fun rest hrest hne => (described_iff hne).mpr (h rest hrest hne).1
    refine ⟨hsteps, fun hempty rest hrest => ?_, fun hempty => normalize_spaced hempty hsteps⟩
    exact hrest.whole hvalid hempty fun rest hrest hne => (h rest hrest hne).2 hempty

end

/-- A vocabulary in which the user has defined the token of code point 232. -/
def accented : Normalizer where
  vocab := {
    tokens := [{ text := [0xC3, 0xA8], score := 0, isUserDefined := true }]
    tokenUnk := -1
    nodup := List.nodup_singleton _
    finite := List.forall_mem_singleton.mpr (by norm_num [fltMax]) }
  escapeWhitespaces := true
  treatWhitespaceAsSuffix := false
  addSpacePrefix := true
  removeExtraWhitespaces := true

theorem begins_accented {rest t : List UInt8} (h : Begins accented.userDefined rest t) :
    t = [0xC3, 0xA8] := List.mem_singleton.mp h.mem

theorem normalizes_iff_accented : Normalizes accented [232] := by
  have hvalid : ∀ c ∈ [232], c ≤ maxCpt := List.forall_mem_singleton.mpr (by decide)
  have htext : encode [232] = [0xC3, 0xA8] := by decide
  have hkey : LongestKey accented.userDefined [0xC3, 0xA8] [0xC3, 0xA8] :=
    ⟨⟨List.cons_ne_nil _ _, List.mem_singleton_self _, List.prefix_rfl⟩,
      fun key' h => (begins_accented h).symm ▸ le_rfl⟩
  have hends : ∀ rest, Reached accented (encode [232]) rest → rest = encode [232] ∨ rest = [] := by
    intro rest h
    induction h with
    | start => exact .inl rfl
    | @step rest r hreached hne hr ih =>
      obtain rfl := ih.resolve_right hne
      obtain ⟨p, hcode, -, -, -⟩ := hr.copies rfl
      cases hr with
      | token ht =>
        rw [begins_accented ht.toBegins]
        exact .inr rfl
      | plain hnone => exact absurd (htext ▸ hkey.toBegins) (hnone _)
  refine (normalizes_iff accented hvalid).mpr fun rest hrest hne => ?_
  obtain rfl := (hends rest hrest).resolve_right hne
  rw [htext]
  refine ⟨.token ⟨List.prefix_rfl, .inr ⟨_, hkey.mem, List.prefix_rfl⟩, fun q hq _ => hq.length_le⟩
    hkey.mem hkey.ne_nil, fun _ t ht => ⟨[232], hvalid, ?_⟩⟩
  rw [begins_accented ht.toBegins, htext]

/-- Of another letter that begins with the same byte, the byte is taken for itself. -/
theorem normalizePrefix_split :
    accented.normalizePrefix (encode [233]) = .ok ⟨[0xC3], 1⟩ ∧
      accented.normalizePrefix [0xA9] = .ok ⟨[0xEF, 0xBF, 0xBD], 1⟩ ∧ ¬ Normalizes accented [233] := by
  have hfirst : accented.normalizePrefix (encode [233]) = .ok ⟨[0xC3], 1⟩ := by rfl
  refine ⟨hfirst, by rfl, fun h => ?_⟩
  have hne : encode [233] ≠ [] := by decide
  have hstep := h.steps _ .start hne
  rw [hfirst] at hstep
  obtain ⟨p, hp, -, -, hkind⟩ := hstep.copies rfl
  obtain rfl := congrArg Normalized.normalized (Except.ok.inj hp)
  rcases hkind with ht | ⟨c, hc, hbytes⟩
  · exact absurd (begins_accented ht.toBegins) (by decide)
  · have hdecode := cptFromUtf8_utf8Bytes hc []
    rw [← hbytes] at hdecode
    have hnone : cptFromUtf8 [0xC3] = none := by decide
    exact nomatch hnone.symm.trans hdecode

end UgmNormalizer
end RocmFpx
