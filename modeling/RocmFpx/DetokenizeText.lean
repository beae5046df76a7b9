import Mathlib.Data.Prod.Lex
import RocmFpx.TokenRoundTrip

/-!
Detokenizing undoes tokenizing. For SPM the text is escaped, with a space in front where a prefix is
configured, and the groups are tokens or single characters in byte tokens. For BPE each group stands
for bytes of the text.
-/

namespace RocmFpx
namespace MergeTokenizer

open Unicode GreedyMerge PreTokenizer Fallible

section
variable {S : Type} {v : Vocab S} {special : Bool}

theorem HasPieces.append {ids ids' : List ℕ} {pieces pieces' : List (List UInt8)}
    (h : HasPieces v special ids pieces) (h' : HasPieces v special ids' pieces') :
    HasPieces v special (ids ++ ids') (pieces ++ pieces') :=
  List.rel_append h h'

/-! ## SPM -/

/-- The table has a byte token for every byte. -/
def HasByteTokens (v : TokenTable S) : Prop :=
  ∀ ch : UInt8, ∃ t ∈ v.idToToken, t.text = byteText ch ∧ IsByteToken t

variable (special)

theorem byteToToken_pieces (h : HasByteTokens v.toTokenTable) (bytes : List UInt8) :
    ∃ ids pieces, bytes.mapM v.byteToToken = .ok ids ∧ HasPieces v special ids pieces ∧
      pieces.flatten = bytes := by
  induction bytes with
  | nil => exact ⟨[], [], rfl, .nil, rfl⟩
  | cons ch bytes ih =>
    obtain ⟨ids, pieces, hids, hpieces, hflat⟩ := ih
    obtain ⟨t, ht, htext, hbyte⟩ := h ch
    obtain ⟨id, hid, htoken⟩ := TokenTable.textToToken_of_mem ht
    have hch : v.byteToToken ch = .ok id := by
      rw [TokenTable.byteToToken, ← htext, hid]
    refine ⟨id :: ids, [ch] :: pieces, ?_, .cons ⟨t, htoken, pieceText_byte hbyte htext⟩ hpieces, ?_⟩
    · rw [List.mapM_cons, hch, ok_bind, hids, ok_bind]
      rfl
    · rw [List.flatten_cons, hflat, List.singleton_append]

theorem isSome_of_spmBigram {v : TokenTable S} {i j : ℕ} {l r : LlmSymbol} {b : LlmBigramSpm S}
    (h : spmBigram v i j l r = some b) : (v.textToToken (l.text.take (l.n + r.n))).isSome := by
  rw [spmBigram] at h
  cases htoken : v.textToToken (l.text.take (l.n + r.n)) with
  | none =>
    rw [htoken] at h
    cases h
  | some token => rfl

theorem isSome_of_spmKey {v : TokenTable S} {a b : List UInt8} {k : S}
    (h : spmKey v a b = some k) : (v.textToToken (a ++ b)).isSome := by
  obtain ⟨token, htoken, -⟩ := Option.bind_eq_some_iff.mp h
  exact Option.isSome_of_eq_some htoken

end

section
variable {S : Type} {v : Vocab S}

/-- The first piece has the space that detokenizing removes. -/
def StartsWithSpace (pieces : List (List UInt8)) : Prop :=
  ∃ piece rest, pieces = (0x20 :: piece) :: rest

theorem encoded_within {groups : List (List ℕ)} {g : List ℕ} (h : g ∈ groups) :
    encoded g <:+: encoded groups.flatten := by
  obtain ⟨pre, post, rfl⟩ := List.append_of_mem h
  refine ⟨encoded pre.flatten, encoded post.flatten, ?_⟩
  rw [List.flatten_append, List.flatten_cons, encoded_append, encoded_append, List.append_assoc]

theorem OnlyPlain.mono {v : TokenTable S} {text word : List UInt8} (h : OnlyPlain v text)
    (hword : word <:+: text) : OnlyPlain v word := fun t ht hwithin => h t ht (hwithin.trans hword)

variable (special : Bool)

theorem resegment_group (htype : v.type = .spm) (hbytes : HasByteTokens v.toTokenTable)
    (hspace : (v.textToToken escapedSpace).isSome) {g : List ℕ} (hle : ∀ c ∈ g, c ≤ maxCpt)
    (hgroup : g ≠ [] ∧ (g.length = 1 ∨ (v.textToToken (encoded g)).isSome))
    (hplain : OnlyPlain v.toTokenTable (encoded g)) {symbols : List LlmSymbol}
    {revMerge : List (List UInt8 × ℕ × ℕ)}
    (hrev : ∀ p ∈ revMerge, (v.textToToken p.1).isSome) {n : ℕ} {symbol : LlmSymbol}
    (hword : symbol.word = encoded g) :
    ∃ ids pieces, resegment v symbols revMerge (n + 1) symbol = .ok ids ∧
      HasPieces v special ids pieces ∧ pieces.flatten = encoded (g.map unescapeCpt) ∧
      (g.head? = some 0x2581 → StartsWithSpace pieces) := by
  rw [resegment, hword]
  cases htoken : v.textToToken (encoded g) with
  | some id =>
    obtain ⟨t, ht, htext⟩ := TokenTable.of_textToToken htoken
    have hkind := hplain t (List.mem_of_getElem? ht) (htext ▸ List.infix_rfl)
    have hpiece : pieceText v t special = .ok (encoded (g.map unescapeCpt)) := by
      rw [pieceText_plain hkind, htype, htext, llamaUnescapeWhitespace_encoded hle]
    refine ⟨[id], [encoded (g.map unescapeCpt)], rfl, .cons ⟨t, ht, hpiece⟩ .nil,
      List.append_nil _, fun hhead => ?_⟩
    obtain ⟨g', rfl⟩ := List.head?_eq_some_iff.mp hhead
    exact ⟨encoded (g'.map unescapeCpt), [], rfl⟩
  | none =>
    obtain ⟨c, rfl⟩ := List.length_eq_one_iff.mp
      (hgroup.2.resolve_right (by rw [htoken]; exact Bool.false_ne_true))
    have hc : c ≠ 0x2581 := by
      rintro rfl
      have : escapedSpace = encoded [0x2581] := rfl
      rw [this, htoken] at hspace
      cases hspace
    have hlookup : revMerge.lookup (encoded [c]) = none := by
      rw [List.lookup_eq_none_iff]
      intro p hp
      refine bne_iff_ne.mpr fun he => ?_
      have := hrev p hp
      rw [← he, htoken] at this
      cases this
    obtain ⟨ids, pieces, hids, hpieces, hflat⟩ :=
      byteToToken_pieces special hbytes (encoded [c])
    refine ⟨ids, pieces, ?_, hpieces, ?_, fun hhead => ?_⟩
    · rw [hlookup]
      exact hids
    · rw [hflat, List.map_singleton, unescapeCpt, if_neg hc]
    · exact absurd (Option.some.inj hhead) hc

theorem resegment_groups (htype : v.type = .spm) (hbytes : HasByteTokens v.toTokenTable)
    (hspace : (v.textToToken escapedSpace).isSome) {groups : List (List ℕ)}
    (hle : ∀ g ∈ groups, ∀ c ∈ g, c ≤ maxCpt)
    (hgroups : ∀ g ∈ groups, g ≠ [] ∧ (g.length = 1 ∨ (v.textToToken (encoded g)).isSome))
    (hplain : ∀ g ∈ groups, OnlyPlain v.toTokenTable (encoded g)) {symbols : List LlmSymbol}
    {revMerge : List (List UInt8 × ℕ × ℕ)}
    (hrev : ∀ p ∈ revMerge, (v.textToToken p.1).isSome) {n : ℕ} {chain : List LlmSymbol}
    (hwords : chain.map LlmSymbol.word = groups.map encoded) :
    ∃ ids pieces, chain.mapM (resegment v symbols revMerge (n + 1)) = .ok ids ∧
      HasPieces v special ids.flatten pieces ∧
      pieces.flatten = encoded (groups.flatten.map unescapeCpt) ∧
      (groups.flatten.head? = some 0x2581 → StartsWithSpace pieces) := by
  induction groups generalizing chain with
  | nil =>
    obtain rfl := List.map_eq_nil_iff.mp hwords
    exact ⟨[], [], rfl, .nil, rfl, fun h => (nomatch h)⟩
  | cons g groups ih =>
    obtain ⟨symbol, chain, rfl, hword, hwords⟩ := List.map_eq_cons_iff.mp hwords
    obtain ⟨hleg, hle⟩ := List.forall_mem_cons.mp hle
    obtain ⟨hg, hgroups⟩ := List.forall_mem_cons.mp hgroups
    obtain ⟨hplaing, hplain⟩ := List.forall_mem_cons.mp hplain
    obtain ⟨ids, pieces, hids, hpieces, hflat, hhead⟩ := resegment_group special htype
      hbytes hspace hleg hg hplaing hrev hword
    obtain ⟨ids', pieces', hids', hpieces', hflat', -⟩ := ih hle hgroups hplain hwords
    refine ⟨ids :: ids', pieces ++ pieces', ?_, hpieces.append hpieces', ?_, fun hfirst => ?_⟩
    · rw [List.mapM_cons, hids, ok_bind, hids', ok_bind]
      rfl
    · rw [List.flatten_append, hflat, hflat', List.flatten_cons, List.map_append, encoded_append]
    · obtain ⟨c, g, rfl⟩ := List.exists_cons_of_ne_nil hg.1
      obtain ⟨piece, rest, rfl⟩ := hhead hfirst
      exact ⟨piece, rest ++ pieces', rfl⟩

theorem spmTokenize_pieces [LinearOrder S] (htype : v.type = .spm)
    (hbytes : HasByteTokens v.toTokenTable) (hspace : (v.textToToken escapedSpace).isSome)
    (pq : PriorityQueue (LlmBigramSpm S) LlmBigramSpm.less) {cpts : List ℕ}
    (hle : ∀ c ∈ cpts, c ≤ maxCpt) (hplain : OnlyPlain v.toTokenTable (encoded cpts)) :
    ∃ ids pieces, spmTokenize v pq (encoded cpts) = .ok ids ∧ HasPieces v special ids pieces ∧
      pieces.flatten = encoded (cpts.map unescapeCpt) ∧
      (cpts.head? = some 0x2581 → StartsWithSpace pieces) := by
  obtain ⟨-, hend⟩ := spm_mergesGreedily v.toTokenTable (encoded cpts) pq
    (3 * (symbolsOf (encoded cpts)).length)
  obtain ⟨-, hread⟩ := hend le_rfl
  rw [words_symbolsOf hle] at hread
  obtain ⟨groups, hgroups, rfl, hall⟩ := grouped_greedy
    (fun w => (v.textToToken w).isSome = true) (fun _ _ _ => isSome_of_spmKey)
    (grouped_single _ cpts)
  have hqueued : ∀ i j l r b, (spmQueue v.toTokenTable).bigram i j l r = some b →
      (v.textToToken (l.text.take (l.n + r.n))).isSome = true :=
    fun _ _ _ _ _ => isSome_of_spmBigram
  have hstart : ∀ p ∈ (Session.start (q := spmQueue v.toTokenTable) pq
      (symbolsOf (encoded groups.flatten))).revMerge, (v.textToToken p.1).isSome = true :=
    known_start (fun w => (v.textToToken w).isSome = true) hqueued _
  have hrev := known_rounds (fun w => (v.textToToken w).isSome = true) hqueued hstart
    (3 * (symbolsOf (encoded groups.flatten)).length)
  obtain ⟨ids, pieces, hids, hpieces, hflat, hhead⟩ := resegment_groups special htype hbytes hspace
    (fun g hg c hc => hle c (List.mem_flatten_of_mem hg hc)) hall
    (fun g hg => hplain.mono (encoded_within hg)) hrev (hread.trans hgroups)
  refine ⟨ids.flatten, pieces, ?_, hpieces, hflat, hhead⟩
  exact bind_eq_ok.2 ⟨ids, hids, rfl⟩

end

section
variable {S : Type}

/-! ## BPE -/

/-- Every byte has a token, and so has what a merge of a rank makes. -/
structure HasMergedTokens (v : BpeVocab S) : Prop where
  bytes (ch : UInt8) : (v.textToToken (utf8Bytes (byteCpt ch))).isSome
  merged (l r : List UInt8) : 0 ≤ v.findBpeRank l r → (v.textToToken (l ++ r)).isSome

theorem byteEncoded_eq (word : List UInt8) : byteEncoded word = encoded (word.map byteCpt) := rfl

theorem isSome_of_bpeKey {v : BpeVocab S} (h : HasMergedTokens v) {a b : List UInt8} {k : ℤᵒᵈ}
    (hk : bpeKey v a b = some k) : (v.textToToken (a ++ b)).isSome := by
  refine h.merged a b (not_lt.mp fun hlt => ?_)
  rw [bpeKey, if_pos hlt] at hk
  cases hk

theorem exists_map_byteCpt {groups : List (List ℕ)} {raw : List UInt8}
    (h : groups.flatten = raw.map byteCpt) : ∃ parts : List (List UInt8),
      groups = parts.map (List.map byteCpt) ∧ parts.flatten = raw := by
  induction groups generalizing raw with
  | nil =>
    obtain rfl := List.map_eq_nil_iff.mp h.symm
    exact ⟨[], rfl, rfl⟩
  | cons g groups ih =>
    rw [List.flatten_cons] at h
    obtain ⟨part, rest, rfl, rfl, hrest⟩ := List.map_eq_append_iff.mp h.symm
    obtain ⟨parts, rfl, rfl⟩ := ih hrest.symm
    exact ⟨part :: parts, rfl, rfl⟩

theorem bpeWord_parts {v : Vocab S} (h : HasMergedTokens v.toBpeVocab)
    (pq : PriorityQueue LlmBigramBpe LlmBigramBpe.less) (raw : List UInt8) :
    ∃ parts : List (List UInt8), (bpeWord v pq (byteEncoded raw)).map LlmSymbol.word =
        parts.map byteEncoded ∧ parts.flatten = raw ∧
      ∀ part ∈ parts, part ≠ [] ∧ (v.textToToken (byteEncoded part)).isSome := by
  have hle : ∀ c ∈ raw.map byteCpt, c ≤ maxCpt := by
    intro c hc
    obtain ⟨ch, -, rfl⟩ := List.mem_map.mp hc
    exact (byteCpt_spec ch).1
  have hstart : Grouped (fun w => (v.textToToken w).isSome = true) (raw.map byteCpt)
      ((bpeSymbols v.toBpeVocab (byteEncoded raw)).map LlmSymbol.word) := by
    rw [bpeSymbols]
    split_ifs with hwhole
    · have htoken : (v.textToToken (byteEncoded raw)).isSome = true := by
        simp only [Bool.or_eq_true, Bool.and_eq_true] at hwhole
        exact hwhole.elim And.right And.right
      refine ⟨[raw.map byteCpt], ?_, List.append_nil _, ?_⟩
      · rw [List.map_singleton, LlmSymbol.word, List.take_length]
        rfl
      · refine List.forall_mem_singleton.mpr ⟨fun hnil => ?_, .inr htoken⟩
        rw [byteEncoded_eq, hnil, encoded_nil, v.textToToken_nil] at htoken
        cases htoken
    · rw [byteEncoded_eq, words_symbolsOf hle]
      exact grouped_single _ _
  obtain ⟨-, hend⟩ := bpe_mergesGreedily v.toBpeVocab (byteEncoded raw) pq
    (3 * (bpeSymbols v.toBpeVocab (byteEncoded raw)).length)
  obtain ⟨-, hread⟩ := hend le_rfl
  obtain ⟨groups, hgroups, hflat, hall⟩ := grouped_greedy
    (fun w => (v.textToToken w).isSome = true) (fun _ _ _ => isSome_of_bpeKey h) hstart
  obtain ⟨parts, rfl, hparts⟩ := exists_map_byteCpt hflat
  refine ⟨parts, ?_, hparts, fun part hpart => ?_⟩
  · rw [bpeWord]
    refine hread.trans (hgroups.trans ?_)
    rw [List.map_map]
    rfl
  · obtain ⟨hne, hlen⟩ := hall _ (List.mem_map_of_mem hpart)
    refine ⟨fun hnil => hne (by rw [hnil]; rfl), ?_⟩
    obtain hone | htoken := hlen
    · obtain ⟨ch, rfl⟩ := List.length_eq_one_iff.mp ((List.length_map _).symm.trans hone)
      have hsingle : byteEncoded [ch] = utf8Bytes (byteCpt ch) := List.append_nil _
      rw [hsingle]
      exact h.bytes ch
    · exact htoken

theorem bpeOutput_pieces {v : Vocab S} (special : Bool) (htype : v.type = .bpe)
    (hescape : v.escapeWhitespaces = false) {parts : List (List UInt8)}
    (hparts : ∀ part ∈ parts, (v.textToToken (byteEncoded part)).isSome)
    (hplain : ∀ part ∈ parts, OnlyPlain v.toTokenTable (byteEncoded part)) :
    HasPieces v special ((parts.map byteEncoded).flatMap (bpeOutput v)) parts := by
  induction parts with
  | nil => exact .nil
  | cons part parts ih =>
    obtain ⟨hpart, hparts⟩ := List.forall_mem_cons.mp hparts
    obtain ⟨hplainp, hplain⟩ := List.forall_mem_cons.mp hplain
    obtain ⟨id, hid⟩ := Option.isSome_iff_exists.mp hpart
    obtain ⟨t, ht, htext⟩ := TokenTable.of_textToToken hid
    have hkind := hplainp t (List.mem_of_getElem? ht) (htext ▸ List.infix_rfl)
    have hpiece : pieceText v t special = .ok part := by
      rw [pieceText_plain hkind, htype, hescape, htext]
      exact llamaDecodeText_byteEncoded part
    rw [List.map_cons, List.flatMap_cons, bpeOutput, hid]
    exact .cons ⟨t, ht, hpiece⟩ (ih hparts hplain)

/-! ## Splitting into words -/

/-- Every expression has a splitter of its own, or the general matcher cuts up what it gets. -/
def CutsUp (u : UnicodeData) (stl : List UInt8 → String → List ℕ → Except String (List ℕ))
    (exprs : List String) : Prop :=
  ∀ e ∈ exprs, (customSplitter u e).isSome ∨
    ∀ text offsets, ∃ out : List ℕ, stl text e offsets = .ok out ∧ out.sum = offsets.sum

theorem CutsUp.offsets {u : UnicodeData}
    {stl : List UInt8 → String → List ℕ → Except String (List ℕ)} {exprs : List String}
    (h : CutsUp u stl exprs) {text : List UInt8} {start : List ℕ}
    (hstart : start.sum = (cptsFromUtf8 text).length) (hne : 0 < start.sum) :
    ∃ offsets : List ℕ, exprs.foldlM (fun offsets expr =>
        let tmp := splitCustom u text expr offsets
        if tmp.isEmpty then stl text expr offsets else pure tmp) start = .ok offsets ∧
      offsets.sum = (cptsFromUtf8 text).length := by
  induction exprs generalizing start with
  | nil => exact ⟨start, rfl, hstart⟩
  | cons e exprs ih =>
    obtain ⟨he, h⟩ := List.forall_mem_cons.mp h
    obtain ⟨out, hout, hsum⟩ : ∃ out : List ℕ,
        (if (splitCustom u text e start).isEmpty then stl text e start
          else pure (splitCustom u text e start)) = .ok out ∧ out.sum = start.sum := by
      cases hsplit : customSplitter u e with
      | none =>
        rw [splitCustom, hsplit]
        exact (he.resolve_left (by rw [hsplit]; exact Bool.false_ne_true)) text start
      | some split =>
        have hsum := (customSplitter_tiles hsplit hstart.le).sum_eq
        have htmp : splitCustom u text e start = split text start := by rw [splitCustom, hsplit]
        rw [htmp, if_neg]
        · exact ⟨_, rfl, hsum⟩
        · intro hnil
          rw [List.isEmpty_iff.mp hnil, List.sum_nil] at hsum
          omega
    obtain ⟨offsets, hrun, hoff⟩ := ih h (hsum.trans hstart) (hsum ▸ hne)
    refine ⟨offsets, ?_, hoff⟩
    rw [List.foldlM_cons]
    exact bind_eq_ok.2 ⟨out, hout, hrun⟩

theorem unicodeRegexSplit_words {u : UnicodeData}
    {stl : List UInt8 → String → List ℕ → Except String (List ℕ)} {exprs : List String}
    (h : CutsUp u stl exprs) {cpts : List ℕ} (hle : ∀ c ∈ cpts, c ≤ maxCpt) :
    ∃ words : List (List UInt8), unicodeRegexSplit u stl (encoded cpts) exprs true =
      .ok (words.map byteEncoded) ∧ words.flatten = encoded cpts := by
  by_cases hempty : cpts = []
  · obtain rfl := hempty
    exact ⟨[], rfl, rfl⟩
  have hcpts : cptsFromUtf8 (encoded cpts) = cpts := cptsFromUtf8_flatMap hle
  have hne : (encoded cpts).isEmpty = false := by simpa using encoded_ne_nil hempty
  have hstart : [cpts.length].sum = (cptsFromUtf8 (encoded cpts)).length := by
    rw [hcpts, List.sum_singleton]
  have hpos : 0 < [cpts.length].sum := by simpa using List.length_pos_iff.mpr hempty
  obtain ⟨offsets, hoffsets, hsum⟩ := h.offsets hstart hpos
  rw [hcpts] at hsum
  refine ⟨(chunks cpts offsets).map fun chunk => chunk.flatMap utf8Bytes, ?_, flatten_words hsum⟩
  rw [unicodeRegexSplit, hne, if_neg Bool.false_ne_true]
  dsimp only
  rw [hcpts, hoffsets, ok_bind, (wordsFrom_eq_ok hsum).mpr ⟨hle, rfl⟩, ok_bind, if_pos rfl]
  exact byteEncodingProcess_ok fun chunk hc c hcc => hle c (mem_of_mem_chunks hc c hcc)

end

section
variable {S : Type} [LinearOrder S] {v : Vocab S} {lib : Libraries S}

/-- Tokenizing succeeds, and detokenizing into a buffer that is large enough gives the text. -/
def RoundTrips (v : Vocab S) (lib : Libraries S) (text : List UInt8) : Prop :=
  ∀ parseSpecial, ∃ tokens, tokenize v lib text parseSpecial = .ok tokens ∧
    ∀ textLenMax unparseSpecial, text.length ≤ textLenMax →
      detokenize v tokens textLenMax false unparseSpecial = .ok text

theorem roundTrips_nil (v : Vocab S) (lib : Libraries S)
    (h : ∀ t ∈ v.idToToken, t.attr.isSpecial = true → ¬ t.text <:+: []) :
    RoundTrips v lib [] := by
  intro parseSpecial
  refine ⟨[], ?_, fun _ _ hle => detokenize_pieces .nil rfl hle⟩
  rw [tokenize, tokenizerStPartition_raw h]
  cases v.type <;> rfl

/-- The text that the SPM session gets. -/
def spmText (v : Vocab S) (text : List UInt8) : List UInt8 :=
  llamaEscapeWhitespace (if v.addSpacePrefix then 0x20 :: text else text)

theorem spm_roundTrips (htype : v.type = .spm) (hbytes : HasByteTokens v.toTokenTable)
    (hspace : (v.textToToken escapedSpace).isSome) {cpts : List ℕ} (hle : ∀ c ∈ cpts, c ≤ maxCpt)
    (hno : 0x2581 ∉ cpts)
    (hspecial : ∀ t ∈ v.idToToken, t.attr.isSpecial = true → ¬ t.text <:+: encoded cpts)
    (hplain : OnlyPlain v.toTokenTable (spmText v (encoded cpts))) :
    RoundTrips v lib (encoded cpts) := by
  by_cases hempty : cpts = []
  · obtain rfl := hempty
    exact roundTrips_nil v lib hspecial
  -- the prefix is one more code point
  obtain ⟨all, hall, hdef⟩ : ∃ all, all = (if v.addSpacePrefix then 0x20 :: cpts else cpts) ∧
      (if v.addSpacePrefix then 0x20 :: encoded cpts else encoded cpts) = encoded all := by
    refine ⟨_, rfl, ?_⟩
    split_ifs <;> rfl
  have hle' : ∀ c ∈ all, c ≤ maxCpt ∧ c ≠ 0x2581 := by
    have hcpts : ∀ c ∈ cpts, c ≤ maxCpt ∧ c ≠ 0x2581 := fun c hc =>
      ⟨hle c hc, fun he => hno (he ▸ hc)⟩
    rw [hall]
    split_ifs
    · exact List.forall_mem_cons.mpr ⟨by decide, hcpts⟩
    · exact hcpts
  have hescaped : spmText v (encoded cpts) = encoded (all.map escapeCpt) := by
    rw [spmText, hdef, llamaEscapeWhitespace_encoded fun c hc => (hle' c hc).1]
  rw [hescaped] at hplain
  have hescle : ∀ c ∈ all.map escapeCpt, c ≤ maxCpt := by
    intro c hc
    obtain ⟨d, hd, rfl⟩ := List.mem_map.mp hc
    exact escapeCpt_le (hle' d hd).1
  have hback : (all.map escapeCpt).map unescapeCpt = all := by
    rw [List.map_map]
    exact (List.map_congr_left fun c hc => unescapeCpt_escapeCpt (hle' c hc).2).trans (List.map_id _)
  have hrun := fun special =>
    spmTokenize_pieces special htype hbytes hspace lib.spmQueue hescle hplain
  obtain ⟨ids, -, hids, -⟩ := hrun false
  intro parseSpecial
  refine ⟨ids, ?_, fun textLenMax unparseSpecial hfits => ?_⟩
  · have hne : (encoded cpts).isEmpty = false := by simpa using encoded_ne_nil hempty
    rw [tokenize, tokenizerStPartition_raw hspecial, htype, rawFragment, hne,
      if_neg Bool.false_ne_true]
    simp only [spmFragments, Bool.and_true]
    rw [hdef, llamaEscapeWhitespace_encoded fun c hc => (hle' c hc).1, hids, ok_bind]
    exact congrArg Except.ok (List.append_nil ids)
  · obtain ⟨ids', pieces, hids', hpieces, hflat, hhead⟩ := hrun unparseSpecial
    obtain rfl := Except.ok.inj (hids'.symm.trans hids)
    refine detokenize_pieces hpieces ?_ hfits
    rw [hback] at hflat
    by_cases hfront : v.addSpacePrefix = true
    · rw [if_pos hfront] at hall ⊢
      obtain ⟨piece, rest, rfl⟩ := hhead (by rw [hall]; rfl)
      rw [copied, skipSpaces_space, skipSpaces_zero]
      rw [hall] at hflat
      exact (List.cons.inj hflat).2
    · rw [if_neg hfront] at hall ⊢
      rw [copied_zero, hflat, hall]

theorem bpe_roundTrips (htype : v.type = .bpe) (hencode : v.byteEncode = true)
    (hescape : v.escapeWhitespaces = false) (hpre : v.preType ≠ .mmbert)
    (htokens : HasMergedTokens v.toBpeVocab) (hcuts : CutsUp lib.unicode lib.stl v.regexExprs)
    {cpts : List ℕ} (hle : ∀ c ∈ cpts, c ≤ maxCpt)
    (hspecial : ∀ t ∈ v.idToToken, t.attr.isSpecial = true → ¬ t.text <:+: encoded cpts)
    (hplain : OnlyPlain v.toTokenTable (byteEncoded (encoded cpts)))
    (hfront : v.addSpacePrefix = true → (encoded cpts).head? ≠ some 0x20) :
    RoundTrips v lib (encoded cpts) := by
  by_cases hempty : cpts = []
  · obtain rfl := hempty
    exact roundTrips_nil v lib hspecial
  obtain ⟨words, hwords, hflat⟩ := unicodeRegexSplit_words hcuts hle
  have hparts : ∃ parts : List (List UInt8),
      (words.flatMap fun word => bpeWord v lib.bpeQueue (byteEncoded word)).map LlmSymbol.word =
        parts.map byteEncoded ∧ parts.flatten = words.flatten ∧
      ∀ part ∈ parts, part ≠ [] ∧ (v.textToToken (byteEncoded part)).isSome := by
    clear hwords hflat
    induction words with
    | nil => exact ⟨[], rfl, rfl, fun _ h => (nomatch h)⟩
    | cons word words ih =>
      obtain ⟨parts, hparts, hflat, hall⟩ := bpeWord_parts htokens lib.bpeQueue word
      obtain ⟨parts', hparts', hflat', hall'⟩ := ih
      refine ⟨parts ++ parts', ?_, ?_, fun part hpart => ?_⟩
      · rw [List.flatMap_cons, List.map_append, hparts, hparts', List.map_append]
      · rw [List.flatten_append, hflat, hflat', List.flatten_cons]
      · exact (List.mem_append.mp hpart).elim (hall part) (hall' part)
  obtain ⟨parts, hparts, hflat', hall⟩ := hparts
  rw [hflat] at hflat'
  have hwithin : ∀ part ∈ parts, OnlyPlain v.toTokenTable (byteEncoded part) := by
    intro part hpart
    refine hplain.mono ?_
    rw [← hflat']
    obtain ⟨pre, post, rfl⟩ := List.append_of_mem hpart
    refine ⟨byteEncoded pre.flatten, byteEncoded post.flatten, ?_⟩
    rw [List.flatten_append, List.flatten_cons, byteEncoded_eq, byteEncoded_eq, byteEncoded_eq,
      byteEncoded_eq, List.map_append, List.map_append, encoded_append, encoded_append,
      List.append_assoc]
  have hpieces := fun special => bpeOutput_pieces special htype hescape
    (fun part hpart => (hall part hpart).2) hwithin
  intro parseSpecial
  refine ⟨(parts.map byteEncoded).flatMap (bpeOutput v), ?_, fun textLenMax unparse hfits => ?_⟩
  · have hne : (encoded cpts).isEmpty = false := by simpa using encoded_ne_nil hempty
    rw [tokenize, tokenizerStPartition_raw hspecial, htype, rawFragment, hne,
      if_neg Bool.false_ne_true]
    simp only [bpeFragments, hescape, Bool.false_eq_true, if_false, bpeTokenize, hencode, hwords,
      ok_bind, hpre]
    rw [← hparts, List.flatMap_map, List.flatMap_map]
    exact congrArg Except.ok (List.append_nil _)
  · refine detokenize_pieces (hpieces unparse) ?_ hfits
    split_ifs with hadd
    · cases parts with
      | nil => exact hflat'
      | cons part parts =>
        have hhead : part.head? ≠ some 0x20 := by
          intro he
          refine hfront hadd ?_
          obtain ⟨rest, rfl⟩ := List.head?_eq_some_iff.mp he
          rw [← hflat']
          rfl
        rw [copied, skipSpaces_of_ne hhead, ← hflat', List.flatten_cons]
    · rw [copied_zero, hflat']

/-- What detokenizing gives back for the two merging tokenizers. -/
theorem detokenize_tokenize (v : Vocab S) (lib : Libraries S) {cpts : List ℕ}
    (hle : ∀ c ∈ cpts, c ≤ maxCpt)
    (hspecial : ∀ t ∈ v.idToToken, t.attr.isSpecial = true → ¬ t.text <:+: encoded cpts) :
    (v.type = .spm → HasByteTokens v.toTokenTable → (v.textToToken escapedSpace).isSome →
      0x2581 ∉ cpts → OnlyPlain v.toTokenTable (spmText v (encoded cpts)) →
        RoundTrips v lib (encoded cpts)) ∧
    (v.type = .bpe → v.byteEncode = true → v.escapeWhitespaces = false → v.preType ≠ .mmbert →
      HasMergedTokens v.toBpeVocab → CutsUp lib.unicode lib.stl v.regexExprs →
        OnlyPlain v.toTokenTable (byteEncoded (encoded cpts)) →
        (v.addSpacePrefix = true → (encoded cpts).head? ≠ some 0x20) →
          RoundTrips v lib (encoded cpts)) :=
  ⟨fun htype hbytes hspace hno hplain => spm_roundTrips htype hbytes hspace hle hno hspecial hplain,
    fun htype hencode hescape hpre htokens hcuts hplain hfront =>
      bpe_roundTrips htype hencode hescape hpre htokens hcuts hle hspecial hplain hfront⟩

end

/-! ## Vocabularies that do not give the text back -/

/-- A queue that takes what it holds from a list. -/
def listQueue {B K : Type} [LinearOrder K] {q : MergeQueue B} {size : B → ℕ} {key : B → K}
    {pairKey : List UInt8 → List UInt8 → Option K} (hq : Merges q size key pairKey) :
    PriorityQueue B q.less :=
  .ofList q.less (fun b => toLex (key b, OrderDual.toDual (q.left b))) fun x y => by
    rw [hq.less_iff, Prod.Lex.toLex_lt_toLex]
    rfl

def exampleLibraries : Libraries ℤ where
  unicode := asciiData
  stl := noRegex
  spmQueue := listQueue (spmQueue_merges ⟨[], List.nodup_nil, fun _ h => (nomatch h)⟩)
  bpeQueue := listQueue (bpeQueue_merges (S := ℤ)
    ⟨⟨[], List.nodup_nil, fun _ h => (nomatch h)⟩, fun _ _ => none, false, .other⟩)

/-- A vocabulary without special tokens and merges. -/
def exampleVocab (type : VocabType) (addSpacePrefix : Bool) (tokens : List (TokenData ℤ))
    (nodup : (tokens.map TokenData.text).Nodup)
    (named : ∀ t ∈ tokens, t.text ≠ [] ∧ t.attr.isSpecial = false) : Vocab ℤ where
  idToToken := tokens
  nodup := nodup
  named t ht := (named t ht).1
  bpeRanks _ _ := none
  ignoreMerges := false
  preType := .other
  type := type
  regexExprs := [gpt2Expr]
  byteEncode := true
  addSpacePrefix := addSpacePrefix
  escapeWhitespaces := false
  addBos := false
  addEos := false
  specialBosId := none
  specialEosId := none
  cacheSpecialTokens := []
  special_iff id := by
    refine ⟨fun h => (nomatch h), ?_⟩
    rintro ⟨t, ht, hspecial⟩
    rw [(named t (List.mem_of_getElem? ht)).2] at hspecial
    cases hspecial

/-- A token for every byte, with the texts of `text`. -/
def bytewise (text : UInt8 → List UInt8) (attr : TokenAttr) : List (TokenData ℤ) :=
  (List.range 256).map fun n => ⟨text (.ofNat n), 0, attr⟩

theorem mem_bytewise {text : UInt8 → List UInt8} {attr : TokenAttr} {t : TokenData ℤ} :
    t ∈ bytewise text attr ↔ ∃ ch, t = ⟨text ch, 0, attr⟩ := by
  rw [bytewise, List.mem_map]
  constructor
  · rintro ⟨n, -, rfl⟩
    exact ⟨_, rfl⟩
  · rintro ⟨ch, rfl⟩
    exact ⟨ch.toNat, List.mem_range.mpr ch.toNat_lt, by rw [UInt8.ofNat_toNat]⟩

theorem nodup_bytewise {text : UInt8 → List UInt8} (h : ∀ ch ch', text ch = text ch' → ch = ch')
    (attr : TokenAttr) : ((bytewise text attr).map TokenData.text).Nodup := by
  rw [bytewise, List.map_map]
  refine List.Nodup.map_on (fun m hm n hn hmn => ?_) List.nodup_range
  have hval := congrArg UInt8.toNat (h _ _ hmn)
  rwa [UInt8.toNat_ofNat', UInt8.toNat_ofNat', Nat.mod_eq_of_lt (List.mem_range.mp hm),
    Nat.mod_eq_of_lt (List.mem_range.mp hn)] at hval

theorem byteText_inj (ch ch' : UInt8) (h : byteText ch = byteText ch') : ch = ch' := by
  have hch : tokenToByte (S := ℤ) ⟨byteText ch, 0, {}⟩ = .ok ch := tokenToByte_byteText rfl
  rw [h, tokenToByte_byteText rfl] at hch
  exact (Except.ok.inj hch).symm

theorem byteCpt_inj (ch ch' : UInt8) (h : utf8Bytes (byteCpt ch) = utf8Bytes (byteCpt ch')) :
    ch = ch' := by
  have hch := (byteCpt_spec ch).2.2
  rw [h, (byteCpt_spec ch').2.2] at hch
  exact (Option.some.inj hch).symm

/-- The byte tokens and no others. -/
def onlyBytes : Vocab ℤ :=
  exampleVocab .spm false (bytewise byteText { byte := true })
    (nodup_bytewise byteText_inj _) fun t ht => by
      obtain ⟨ch, rfl⟩ := mem_bytewise.1 ht
      exact ⟨List.cons_ne_nil _ _, rfl⟩

/-- The byte tokens, U+2581, and an unused token `a`. -/
def withUnused : Vocab ℤ :=
  exampleVocab .spm false
    (⟨escapedSpace, 0, { normal := true }⟩ :: ⟨[97], 0, { unused := true }⟩ ::
      bytewise byteText { byte := true })
    (by
      have hlen : ∀ x ∈ (bytewise byteText { byte := true }).map TokenData.text, x.length = 6 := by
        intro x hx
        obtain ⟨t, ht, rfl⟩ := List.mem_map.mp hx
        obtain ⟨ch, rfl⟩ := mem_bytewise.1 ht
        rfl
      refine List.nodup_cons.mpr ⟨?_, List.nodup_cons.mpr ⟨?_, nodup_bytewise byteText_inj _⟩⟩
      · refine fun h => (List.mem_cons.mp h).elim (fun h => absurd h (by decide)) fun h => ?_
        exact absurd (hlen _ h) (by decide)
      · exact fun h => absurd (hlen _ h) (by decide))
    fun t ht => by
      rw [List.mem_cons, List.mem_cons] at ht
      obtain rfl | rfl | ht := ht
      · exact ⟨List.cons_ne_nil _ _, rfl⟩
      · exact ⟨List.cons_ne_nil _ _, rfl⟩
      · obtain ⟨ch, rfl⟩ := mem_bytewise.1 ht
        exact ⟨List.cons_ne_nil _ _, rfl⟩

/-- The characters of the bytes, with a space prefix configured. -/
def mappedBytes : Vocab ℤ :=
  exampleVocab .bpe true (bytewise (fun ch => utf8Bytes (byteCpt ch)) { normal := true })
    (nodup_bytewise byteCpt_inj _) fun t ht => by
      obtain ⟨ch, rfl⟩ := mem_bytewise.1 ht
      exact ⟨utf8Bytes_ne_nil _, rfl⟩

theorem mem_mappedBytes {t : TokenData ℤ} (h : t ∈ mappedBytes.idToToken) :
    ∃ ch, t = ⟨utf8Bytes (byteCpt ch), 0, { normal := true }⟩ := by
  rw [mappedBytes, exampleVocab] at h
  exact mem_bytewise.1 h

theorem byteText_not_within (ch : UInt8) {text : List UInt8} (h : text.length < 6) :
    ¬ byteText ch <:+: text := fun hwithin => by
  have hle : 6 ≤ text.length := hwithin.length_le
  omega

theorem hasByteTokens_onlyBytes : HasByteTokens onlyBytes.toTokenTable :=
  fun ch => ⟨_, mem_bytewise.2 ⟨ch, rfl⟩, rfl, rfl, rfl, rfl⟩

theorem hasByteTokens_withUnused : HasByteTokens withUnused.toTokenTable := fun ch =>
  ⟨_, List.mem_cons_of_mem _ (List.mem_cons_of_mem _ (mem_bytewise.2 ⟨ch, rfl⟩)), rfl, rfl, rfl,
    rfl⟩

theorem mem_withUnused {t : TokenData ℤ} (h : t ∈ withUnused.idToToken) :
    t = ⟨escapedSpace, 0, { normal := true }⟩ ∨ t = ⟨[97], 0, { unused := true }⟩ ∨
      ∃ ch, t = ⟨byteText ch, 0, { byte := true }⟩ := by
  rw [withUnused, exampleVocab] at h
  exact (List.mem_cons.mp h).imp_right fun h =>
    (List.mem_cons.mp h).imp_right fun h => mem_bytewise.1 h

theorem hasMergedTokens_mappedBytes : HasMergedTokens mappedBytes.toBpeVocab where
  bytes ch := by
    have hmem : (⟨utf8Bytes (byteCpt ch), 0, { normal := true }⟩ : TokenData ℤ) ∈
        mappedBytes.idToToken := by
      rw [mappedBytes, exampleVocab]
      exact (@mem_bytewise (fun ch => utf8Bytes (byteCpt ch)) { normal := true } _).mpr ⟨ch, rfl⟩
    obtain ⟨id, hid, -⟩ := TokenTable.textToToken_of_mem hmem
    exact Option.isSome_of_eq_some hid
  merged l r h := by
    have hnone : mappedBytes.findBpeRank l r = -1 := rfl
    omega

theorem cutsUp_mappedBytes :
    CutsUp exampleLibraries.unicode exampleLibraries.stl mappedBytes.regexExprs := fun e he =>
  .inl (by
    rw [List.mem_singleton.mp he]
    decide +kernel)

/-- ` b` with the unused token `a`, and `hi` with the characters of the bytes. -/
theorem detokenize_tokenize_short :
    RoundTrips withUnused exampleLibraries (encoded [0x20, 98]) ∧
      RoundTrips mappedBytes exampleLibraries (encoded [104, 105]) := by
  refine ⟨(detokenize_tokenize withUnused exampleLibraries (by decide) fun t ht hspecial => ?_).1
      rfl hasByteTokens_withUnused (by decide +kernel) (by decide) fun t ht hwithin => ?_,
    (detokenize_tokenize mappedBytes exampleLibraries (by decide) fun t ht hspecial => ?_).2
      rfl rfl rfl (by decide) hasMergedTokens_mappedBytes cutsUp_mappedBytes (fun t ht _ => ?_)
      (by decide)⟩
  · obtain rfl | rfl | ⟨ch, rfl⟩ := mem_withUnused ht <;> cases hspecial
  · obtain rfl | rfl | ⟨ch, rfl⟩ := mem_withUnused ht
    · exact ⟨rfl, rfl⟩
    · exact absurd hwithin (by decide +kernel)
    · exact absurd hwithin (byteText_not_within ch (by decide +kernel))
  · obtain ⟨ch, rfl⟩ := mem_mappedBytes ht
    cases hspecial
  · obtain ⟨ch, rfl⟩ := mem_mappedBytes ht
    exact ⟨rfl, rfl⟩

/-- Without a token for U+2581 a space comes back as U+2581, an unused token comes back as nothing,
and where a space prefix is configured BPE loses the first space of the text. -/
theorem not_roundTrips :
    (HasByteTokens onlyBytes.toTokenTable ∧
      (∀ t ∈ onlyBytes.idToToken, t.attr.isSpecial = true ∨ t.attr.byte = true →
        ¬ t.text <:+: [0x20]) ∧ ¬ RoundTrips onlyBytes exampleLibraries [0x20]) ∧
    (HasByteTokens withUnused.toTokenTable ∧
      (∀ t ∈ withUnused.idToToken, t.attr.isSpecial = true ∨ t.attr.byte = true →
        ¬ t.text <:+: [97]) ∧ ¬ RoundTrips withUnused exampleLibraries [97]) ∧
    HasMergedTokens mappedBytes.toBpeVocab ∧
      CutsUp exampleLibraries.unicode exampleLibraries.stl mappedBytes.regexExprs ∧
      (∀ t ∈ mappedBytes.idToToken, t.attr.isSpecial = false ∧ t.attr.byte = false) ∧
      ¬ RoundTrips mappedBytes exampleLibraries [0x20] := by
  refine ⟨⟨hasByteTokens_onlyBytes, fun t ht _ => ?_, fun h => ?_⟩,
    ⟨hasByteTokens_withUnused, fun t ht hkind => ?_, fun h => ?_⟩, hasMergedTokens_mappedBytes,
    cutsUp_mappedBytes, fun t ht => ?_, fun h => ?_⟩
  · obtain ⟨ch, rfl⟩ := mem_bytewise.1 ht
    exact byteText_not_within ch (by decide)
  · obtain ⟨tokens, htokens, hback⟩ := h false
    have hrun : tokenize onlyBytes exampleLibraries [0x20] false = .ok [0xE2, 0x96, 0x81] := by
      decide +kernel
    obtain rfl := Except.ok.inj (htokens.symm.trans hrun)
    have := hback 3 false (by decide)
    revert this
    decide +kernel
  · obtain rfl | rfl | ⟨ch, rfl⟩ := mem_withUnused ht
    · simp [TokenAttr.isSpecial] at hkind
    · simp [TokenAttr.isSpecial] at hkind
    · exact byteText_not_within ch (by decide)
  · obtain ⟨tokens, htokens, hback⟩ := h false
    have hrun : tokenize withUnused exampleLibraries [97] false = .ok [1] := by decide +kernel
    obtain rfl := Except.ok.inj (htokens.symm.trans hrun)
    have := hback 1 false (by decide)
    revert this
    decide +kernel
  · obtain ⟨ch, rfl⟩ := mem_mappedBytes ht
    exact ⟨rfl, rfl⟩
  · obtain ⟨tokens, htokens, hback⟩ := h false
    have hrun : tokenize mappedBytes exampleLibraries [0x20] false = .ok [32] := by
      decide +kernel
    obtain rfl := Except.ok.inj (htokens.symm.trans hrun)
    have := hback 1 false (by decide)
    revert this
    decide +kernel

end MergeTokenizer
end RocmFpx
