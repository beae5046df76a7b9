import RocmFpx.Plamo2Suffixes

/-!
The dynamic program over the table. The rows seen at a position are those of the tokens that begin
the rest of the text, so the table of costs is optimal from every position on and the path through
it is a segmentation of that cost.
-/

namespace RocmFpx
namespace Plamo2

open Unicode LongestPrefix OffsetTable

/-! ## Segmentations -/

def Piece.tokenId : Piece → ℤ
  | .token id => id
  | .unknown _ => -1

theorem Segmentation.nil (vocab : List TokenData) : Segmentation vocab [] [] := ⟨[], rfl, .nil⟩

theorem Segmentation.cons {vocab : List TokenData} {g u : List ℕ} {piece : Piece}
    {pieces : List Piece} (h : Segmentation vocab u pieces) (hg : Covers vocab g piece) :
    Segmentation vocab (g ++ u) (piece :: pieces) := by
  obtain ⟨groups, rfl, hgroups⟩ := h
  exact ⟨g :: groups, List.flatten_cons, .cons hg hgroups⟩

theorem cost_cons (vocab : List TokenData) (piece : Piece) (pieces : List Piece) :
    cost vocab (piece :: pieces) = cost vocab pieces - piece.score vocab := by
  rw [cost, List.map_cons, List.sum_cons, ← cost]
  exact neg_add_eq_sub _ _

/-- The cost of the best segmentation. -/
structure Optimal (vocab : List TokenData) (u : List ℕ) (d : ℤ) : Prop where
  attained : ∃ pieces, Segmentation vocab u pieces ∧ cost vocab pieces = d
  least : ∀ pieces, Segmentation vocab u pieces → d ≤ cost vocab pieces

theorem exists_unknowns (vocab : List TokenData) (u : List ℕ) :
    ∃ pieces, Segmentation vocab u pieces ∧ cost vocab pieces = -UNKNOWN_SCORE * u.length := by
  induction u with
  | nil => exact ⟨[], .nil vocab, rfl⟩
  | cons c u ih =>
    obtain ⟨pieces, hpieces, hcost⟩ := ih
    have hcovers : Covers vocab [c] (.unknown c) := rfl
    refine ⟨.unknown c :: pieces, hpieces.cons hcovers, ?_⟩
    rw [cost_cons, hcost, List.length_cons, Piece.score, Nat.cast_succ, mul_add, mul_one]
    rfl

section
variable {vocab : List TokenData} (hvocab : WellFormed vocab)

include hvocab

theorem Covers.ne_nil {g : List ℕ} {piece : Piece} (h : Covers vocab g piece) : g ≠ [] := by
  rintro rfl
  cases piece with
  | token id =>
    obtain ⟨entry, hentry, -, htext⟩ := h
    exact hvocab.nonempty entry (List.mem_of_getElem? hentry) htext
  | unknown c => cases h

theorem Segmentation.eq_nil {pieces : List Piece} (h : Segmentation vocab [] pieces) :
    pieces = [] := by
  obtain ⟨groups, hflat, hgroups⟩ := h
  cases hgroups with
  | nil => rfl
  | cons hg _ => exact absurd (List.append_eq_nil_iff.mp hflat).1 (hg.ne_nil hvocab)

theorem Segmentation.exists_cons {c : ℕ} {u : List ℕ} {pieces : List Piece}
    (h : Segmentation vocab (c :: u) pieces) :
    ∃ g piece rest later, c :: u = c :: g ++ rest ∧ pieces = piece :: later ∧
      Covers vocab (c :: g) piece ∧ Segmentation vocab rest later := by
  obtain ⟨groups, hflat, hgroups⟩ := h
  cases hgroups with
  | nil => cases hflat
  | @cons g piece groups later hg hlater =>
    obtain ⟨d, g, rfl⟩ := List.exists_cons_of_ne_nil (hg.ne_nil hvocab)
    obtain ⟨rfl, hflat⟩ := List.cons.inj hflat
    exact ⟨g, piece, groups.flatten, later, by rw [← hflat]; rfl, rfl, hg, groups, rfl, hlater⟩

end

theorem Optimal.le {vocab : List TokenData} {u : List ℕ} {d : ℤ} (h : Optimal vocab u d) :
    d ≤ -UNKNOWN_SCORE * u.length := by
  obtain ⟨pieces, hpieces, hcost⟩ := exists_unknowns vocab u
  exact hcost ▸ h.least pieces hpieces

/-! ## The best path at a position -/

/-- The row offers this path. -/
def Offers (state : State) (row : Row) (best : ℤ × Path) : Prop :=
  INVALID_SCORE < row.score ∧ state.scores[row.pieceLength - 1]? = some (best.1 + row.score) ∧
    best.2.tokenLength = row.pieceLength ∧ best.2.tokenId = row.tokenId

/-- The best of the paths that rows offer, and of one known before. -/
structure Chosen (state : State) (rows : List Row) (best best' : ℤ × Path) : Prop where
  source : best' = best ∨ ∃ row ∈ rows, Offers state row best'
  le : best'.1 ≤ best.1
  least : ∀ row ∈ rows, INVALID_SCORE < row.score → ∀ d,
    state.scores[row.pieceLength - 1]? = some d → best'.1 ≤ d - row.score

theorem Chosen.append {state : State} {rows rows' : List Row} {best best' best'' : ℤ × Path}
    (h : Chosen state rows best best') (h' : Chosen state rows' best' best'') :
    Chosen state (rows ++ rows') best best'' where
  source := by
    rcases h'.source with rfl | ⟨row, hrow, hoffers⟩
    · exact h.source.imp_right fun ⟨row, hrow, hoffers⟩ =>
        ⟨row, List.mem_append_left _ hrow, hoffers⟩
    · exact .inr ⟨row, List.mem_append_right _ hrow, hoffers⟩
  le := h'.le.trans h.le
  least row hrow hvalid d hd := by
    rcases List.mem_append.mp hrow with hrow | hrow
    · exact h'.le.trans (h.least row hrow hvalid d hd)
    · exact h'.least row hrow hvalid d hd

/-- One row of the search. -/
def challenge (c : ℕ) (state : State) (row : Row) (best : ℤ × Path) : Option (ℤ × Path) :=
  if row.score > INVALID_SCORE then do
    let score ← state.scores[row.pieceLength - 1]?
    let path ← state.path[row.pieceLength - 1]?
    let s := score - row.score
    if s < best.1 then
      some (s, ⟨row.pieceLength, row.tokenId,
        path.numTokens + 1 + if row.score = UNKNOWN_SCORE then Tokenizer.extraBytes c else 0⟩)
    else some best
  else some best

theorem bestPath_cons (c : ℕ) (state : State) (row : Row) (rows : List Row) (best : ℤ × Path) :
    Tokenizer.bestPath c state (row :: rows) best =
      (challenge c state row best).bind fun best =>
        if row.score = UNKNOWN_SCORE then some best
        else Tokenizer.bestPath c state rows best := by
  rw [Tokenizer.bestPath, challenge]
  by_cases hvalid : row.score > INVALID_SCORE
  · simp only [if_pos hvalid]
    cases state.scores[row.pieceLength - 1]? with
    | none => rfl
    | some score =>
      cases state.path[row.pieceLength - 1]? with
      | none => rfl
      | some path =>
        by_cases hlt : score - row.score < best.1
        · simp [hlt]
        · simp [hlt]
  · simp only [if_neg hvalid]
    rfl

theorem challenge_chosen (c : ℕ) {state : State} {row : Row} (best : ℤ × Path)
    (hscores : row.pieceLength - 1 < state.scores.length)
    (hpath : state.path.length = state.scores.length) :
    ∃ best', challenge c state row best = some best' ∧ Chosen state [row] best best' := by
  have hscore := List.getElem?_eq_getElem hscores
  have hrow := List.getElem?_eq_getElem (hpath ▸ hscores)
  rw [challenge]
  by_cases hvalid : row.score > INVALID_SCORE
  · rw [if_pos hvalid, hscore, hrow]
    by_cases hlt : state.scores[row.pieceLength - 1] - row.score < best.1
    · refine ⟨_, if_pos hlt, .inr ⟨row, List.mem_singleton_self row, hvalid, ?_, rfl, rfl⟩, hlt.le,
        ?_⟩
      · rw [hscore, sub_add_cancel]
      · intro r hr _ d hd
        rw [List.mem_singleton.mp hr, hscore] at hd
        rw [List.mem_singleton.mp hr, ← Option.some.inj hd]
    · refine ⟨best, if_neg hlt, .inl rfl, le_rfl, ?_⟩
      intro r hr _ d hd
      rw [List.mem_singleton.mp hr, hscore] at hd
      rw [List.mem_singleton.mp hr, ← Option.some.inj hd]
      exact not_lt.mp hlt
  · rw [if_neg hvalid]
    refine ⟨best, rfl, .inl rfl, le_rfl, fun r hr hr' => ?_⟩
    rw [List.mem_singleton.mp hr] at hr'
    exact absurd hr' hvalid

theorem bestPath_chosen (c : ℕ) {state : State} {rows : List Row} (rest : List Row)
    (best : ℤ × Path) (hrows : ∀ row ∈ rows, row.score ≠ UNKNOWN_SCORE)
    (hscores : ∀ row ∈ rows, row.pieceLength - 1 < state.scores.length)
    (hlength : 0 < state.scores.length) (hpath : state.path.length = state.scores.length) :
    ∃ best', Tokenizer.bestPath c state (rows ++ sentinel :: rest) best = some best' ∧
      Chosen state (rows ++ [sentinel]) best best' := by
  induction rows generalizing best with
  | nil =>
    obtain ⟨best', hbest, hchosen⟩ := @challenge_chosen c state sentinel best hlength hpath
    refine ⟨best', ?_, hchosen⟩
    rw [List.nil_append, bestPath_cons, hbest, Option.bind_some]
    exact if_pos rfl
  | cons row rows ih =>
    obtain ⟨hrow, hrows⟩ := List.forall_mem_cons.mp hrows
    obtain ⟨hscore, hscores⟩ := List.forall_mem_cons.mp hscores
    obtain ⟨best', hbest, hchosen⟩ := challenge_chosen c best hscore hpath
    obtain ⟨best'', hlater, hchosen'⟩ := ih best' hrows hscores
    refine ⟨best'', ?_, hchosen.append hchosen'⟩
    rw [List.cons_append, bestPath_cons, hbest, Option.bind_some, if_neg hrow, hlater]

/-! ## Rows and pieces -/

/-- The rows seen from the id of a suffix on. -/
def seen (vocab : List TokenData) (w : List ℕ) : List Row :=
  (piecesOf (suffixToScore vocab) (encode w)).map (rowFor vocab) ++ [sentinel]

section
variable {vocab : List TokenData} (hvocab : WellFormed vocab) {u w : List ℕ} {c : ℕ}
  (h : IsLongest (Known (suffixToScore vocab)) (c :: u) w)

include hvocab h

theorem exists_piece_of_row {row : Row} (hrow : row ∈ seen vocab w)
    (hvalid : INVALID_SCORE < row.score) :
    ∃ g piece rest, c :: u = c :: g ++ rest ∧ Covers vocab (c :: g) piece ∧
      row.pieceLength = g.length + 1 ∧ row.tokenId = piece.tokenId ∧
      row.score = piece.score vocab := by
  rcases List.mem_append.mp hrow with hrow | hrow
  · obtain ⟨x, hx, rfl⟩ := List.mem_map.mp hrow
    obtain ⟨hne, hpre, -⟩ := (mem_piecesOf h.mem.1).mp hx
    obtain ⟨id, entry, hentry, hbyte, htext⟩ := exists_token_of_score hvalid
    obtain ⟨htoken, hscore, -⟩ := rowFor_token hvocab hentry hbyte htext
    obtain ⟨d, g, rfl⟩ := List.exists_cons_of_ne_nil hne
    obtain ⟨rest, hrest⟩ := hpre.trans h.isPrefix
    obtain ⟨rfl, hu⟩ := List.cons.inj hrest
    refine ⟨g, .token id, rest, by rw [← hu]; rfl, ⟨entry, hentry, hbyte, htext⟩, rfl, htoken, ?_⟩
    rw [Piece.score, hentry, Option.bind_some, hscore, Option.getD_some]
  · rw [List.mem_singleton.mp hrow]
    exact ⟨[], .unknown c, u, rfl, rfl, rfl, rfl, rfl⟩

theorem exists_row_of_piece {g rest : List ℕ} {piece : Piece} (hu : c :: u = c :: g ++ rest)
    (hg : Covers vocab (c :: g) piece) (hvalid : Valid (c :: u)) :
    ∃ row ∈ seen vocab w, INVALID_SCORE < row.score ∧ row.pieceLength = g.length + 1 ∧
      row.tokenId = piece.tokenId ∧ row.score = piece.score vocab := by
  cases piece with
  | token id =>
    obtain ⟨entry, hentry, hbyte, htext⟩ := hg
    obtain ⟨htoken, hscore, hlt⟩ := rowFor_token hvocab hentry hbyte htext
    have hpre : c :: g <+: c :: u := ⟨rest, hu.symm⟩
    have hknown : Known (suffixToScore vocab) (c :: g) :=
      ⟨hvalid.of_prefix hpre, .inr (isSome_of_suffix (List.mem_of_getElem? hentry) hbyte
        (hvalid.of_prefix hpre) htext (List.cons_ne_nil c g) List.suffix_rfl)⟩
    have hmem := (mem_piecesOf h.mem.1).mpr
      ⟨List.cons_ne_nil c g, h.longest _ hknown hpre, hknown⟩
    refine ⟨rowFor vocab (c :: g), List.mem_append_left _ (List.mem_map_of_mem hmem),
      lt_trans (by decide) hlt, rfl, htoken, ?_⟩
    rw [Piece.score, hentry, Option.bind_some, hscore, Option.getD_some]
  | unknown d =>
    obtain ⟨rfl, hnil⟩ := List.cons.inj hg
    obtain rfl := hnil
    exact ⟨sentinel, List.mem_append_right _ (List.mem_singleton_self _), by decide, rfl, rfl, rfl⟩

end

/-! ## The arrays -/

/-- Every entry of the path names a piece that begins the text there. -/
inductive Filled (vocab : List TokenData) : List ℕ → List ℤ → List Path → Prop
  | nil (p : Path) : Filled vocab [] [0] [p]
  | cons {c : ℕ} {u g rest : List ℕ} {scores : List ℤ} {path : List Path} {p : Path}
      {piece : Piece} {d : ℤ} : Filled vocab u scores path → c :: u = c :: g ++ rest →
      Covers vocab (c :: g) piece → p.tokenLength = g.length + 1 → p.tokenId = piece.tokenId →
      scores[g.length]? = some d →
      Filled vocab (c :: u) ((d - piece.score vocab) :: scores) (p :: path)

theorem Filled.length {vocab : List TokenData} {u : List ℕ} {scores : List ℤ} {path : List Path}
    (h : Filled vocab u scores path) :
    scores.length = u.length + 1 ∧ path.length = u.length + 1 := by
  induction h with
  | nil p => exact ⟨rfl, rfl⟩
  | cons _ _ _ _ _ _ ih => exact ⟨congrArg Nat.succ ih.1, congrArg Nat.succ ih.2⟩

theorem Filled.drop {vocab : List TokenData} {u : List ℕ} {scores : List ℤ} {path : List Path}
    (h : Filled vocab u scores path) {k : ℕ} (hk : k ≤ u.length) :
    Filled vocab (u.drop k) (scores.drop k) (path.drop k) := by
  induction h generalizing k with
  | nil p =>
    obtain rfl := Nat.le_zero.mp hk
    exact .nil p
  | cons hfilled hu hg hlength hid hscore ih =>
    cases k with
    | zero => exact .cons hfilled hu hg hlength hid hscore
    | succ k => exact ih (Nat.le_of_succ_le_succ hk)

/-- What holds of the arrays from a position on. -/
structure Solved (vocab : List TokenData) (u : List ℕ) (state : State) : Prop where
  suffix : ∃ w, IsLongest (Known (suffixToScore vocab)) u w ∧
    state.suffixId = idOf (suffixToScore vocab) w
  filled : Filled vocab u state.scores state.path
  optimal : ∀ k d, state.scores[k]? = some d → Optimal vocab (u.drop k) d

theorem drop_of_cons_eq {c : ℕ} {u g rest : List ℕ} (h : c :: u = c :: g ++ rest) :
    u.drop g.length = rest := by
  rw [(List.cons.inj h).2]
  exact List.drop_left

section
variable {vocab : List TokenData} {tk : Tokenizer} (hvocab : WellFormed vocab)
  (hbuild : build vocab = .ok tk)

include hvocab

theorem optimal_nil : Optimal vocab [] 0 := by
  refine ⟨⟨[], .nil vocab, rfl⟩, fun pieces hpieces => ?_⟩
  rw [hpieces.eq_nil hvocab]
  exact le_rfl

theorem Solved.optimal_cons {c : ℕ} {u w : List ℕ} {state : State} (h : Solved vocab u state)
    (hw : IsLongest (Known (suffixToScore vocab)) (c :: u) w) (hvalid : Valid (c :: u))
    {best best' : ℤ × Path} (hchosen : Chosen state (seen vocab w) best best')
    (hoffers : ∃ row ∈ seen vocab w, Offers state row best') :
    Optimal vocab (c :: u) best'.1 ∧
      Filled vocab (c :: u) (best'.1 :: state.scores) (best'.2 :: state.path) := by
  obtain ⟨row, hrow, hrowvalid, hscore, hlength, hid⟩ := hoffers
  obtain ⟨g, piece, rest, hu, hg, hrowlength, hrowid, hrowscore⟩ :=
    exists_piece_of_row hvocab hw hrow hrowvalid
  rw [hrowlength, hrowscore, Nat.add_sub_cancel] at hscore
  have hfilled := h.filled.cons hu hg (hlength.trans hrowlength) (hid.trans hrowid) hscore
  rw [add_sub_cancel_right] at hfilled
  refine ⟨⟨?_, fun pieces hpieces => ?_⟩, hfilled⟩
  · obtain ⟨pieces, hpieces, hcost⟩ := (h.optimal _ _ hscore).attained
    rw [drop_of_cons_eq hu] at hpieces
    refine ⟨piece :: pieces, hu ▸ hpieces.cons hg, ?_⟩
    rw [cost_cons, hcost, add_sub_cancel_right]
  · obtain ⟨g', piece', rest', later, hu', rfl, hg', hlater⟩ := hpieces.exists_cons hvocab
    obtain ⟨row', hrow', hrowvalid', hrowlength', -, hrowscore'⟩ :=
      exists_row_of_piece hvocab hw hu' hg' hvalid
    have hlt : g'.length < state.scores.length := by
      have hsum := congrArg List.length hu'
      rw [List.length_cons, List.length_append, List.length_cons] at hsum
      rw [h.filled.length.1]
      omega
    have hget := List.getElem?_eq_getElem hlt
    have hleast := hchosen.least row' hrow' hrowvalid' _ (by
      rw [hrowlength', Nat.add_sub_cancel]; exact hget)
    have hrest := (h.optimal _ _ hget).least later (drop_of_cons_eq hu' ▸ hlater)
    rw [cost_cons, ← hrowscore']
    exact hleast.trans (sub_le_sub_right hrest _)

include hbuild

theorem Solved.fill {c : ℕ} {u : List ℕ} {state : State} (h : Solved vocab u state)
    (hvalid : Valid (c :: u)) (hlength : (c :: u).length < 2 ^ 31)
    (hfill : tk.fill u = some state) :
    ∃ state', tk.fill (c :: u) = some state' ∧ Solved vocab (c :: u) state' := by
  obtain ⟨w, hw, hid⟩ := h.suffix
  obtain ⟨x, hx, hnext⟩ := nextSuffix_longest hvocab hbuild c state.suffixId hw
  obtain ⟨rest, hrest⟩ := exists_drop_table hvocab hbuild hx.mem
  obtain ⟨hscores, hpath⟩ := h.filled.length
  obtain ⟨best, hbest, hchosen⟩ := @bestPath_chosen c state
    ((piecesOf (suffixToScore vocab) (encode x)).map (rowFor vocab)) rest (2 ^ 60, ⟨0, 0, 0⟩)
    (fun row hrow => by
      obtain ⟨y, -, rfl⟩ := List.mem_map.mp hrow
      exact rowFor_score_ne hvocab y)
    (fun row hrow => by
      obtain ⟨y, hy, rfl⟩ := List.mem_map.mp hrow
      have hle := (((mem_piecesOf hx.mem.1).mp hy).2.1.trans hx.isPrefix).length_le
      rw [List.length_cons] at hle
      change y.length - 1 < _
      omega)
    (by omega) (by omega)
  have hget : state.scores[0]? = some state.scores[0] := List.getElem?_eq_getElem (by omega)
  have hoffers : ∃ row ∈ seen vocab x, Offers state row best := by
    refine hchosen.source.resolve_left ?_
    rintro rfl
    -- the sentinel offers less than what the search begins with
    have hleast := hchosen.least sentinel (by simp) (by decide) _ hget
    have hle := (h.optimal _ _ hget).le
    rw [List.drop_zero] at hle
    rw [List.length_cons] at hlength
    simp only [sentinel, UNKNOWN_SCORE] at hleast hle
    omega
  obtain ⟨hoptimal, hfilled⟩ := h.optimal_cons hvocab hx hvalid hchosen hoffers
  refine ⟨⟨idOf (suffixToScore vocab) x, best.1 :: state.scores, best.2 :: state.path⟩, ?_,
    ⟨x, hx, rfl⟩, hfilled, fun k d hd => ?_⟩
  · rw [hid] at hnext
    simp only [Tokenizer.fill, hfill, Option.bind_eq_bind, Option.bind_some, hid, hnext, hrest]
    rw [hbest, Option.bind_some]
  · cases k with
    | zero =>
      obtain rfl := Option.some.inj hd
      exact hoptimal
    | succ k => exact h.optimal k d hd

theorem exists_solved {u : List ℕ} (hvalid : Valid u) (hlength : u.length < 2 ^ 31) :
    ∃ state, tk.fill u = some state ∧ Solved vocab u state := by
  induction u with
  | nil =>
    refine ⟨_, rfl, ⟨[], .nil (known_suffixClosed hvocab), (idOf_nil hvocab).symm⟩, .nil _, ?_⟩
    intro k d hd
    obtain ⟨rfl, rfl⟩ : k = 0 ∧ 0 = d := by
      rw [List.getElem?_singleton] at hd
      split_ifs at hd with hk
      exact ⟨hk, Option.some.inj hd⟩
    exact optimal_nil hvocab
  | cons c u ih =>
    have hlt : u.length < 2 ^ 31 := (Nat.lt_succ_self _).trans hlength
    obtain ⟨state, hfill, hsolved⟩ := ih hvalid.tail hlt
    exact hsolved.fill hvocab hbuild hvalid hlength hfill

end

/-! ## The path through the arrays -/

theorem Filled.decode {vocab : List TokenData} (tk : Tokenizer) {fuel : ℕ} {u : List ℕ}
    {scores : List ℤ} {path : List Path} {d : ℤ} (h : Filled vocab u scores path)
    (hd : scores[0]? = some d) (hfuel : u.length ≤ fuel) :
    ∃ pieces, Segmentation vocab u pieces ∧ cost vocab pieces = d ∧
      tk.decode fuel u path = some (pieces.flatMap tk.tokensOf) := by
  induction fuel generalizing u scores path d with
  | zero =>
    obtain rfl := List.length_eq_zero_iff.mp (Nat.le_zero.mp hfuel)
    cases h with
    | nil p => exact ⟨[], .nil vocab, Option.some.inj hd, rfl⟩
  | succ fuel ih =>
    cases h with
    | nil p => exact ⟨[], .nil vocab, Option.some.inj hd, rfl⟩
    | @cons c u g rest scores path p piece e hfilled hu hg hlength hid hscore =>
      have hle : g.length ≤ u.length := by
        have hsum := congrArg List.length hu
        rw [List.length_cons, List.length_append, List.length_cons] at hsum
        omega
      have hhead : (scores.drop g.length)[0]? = some e := by
        rw [List.getElem?_drop, Nat.add_zero, hscore]
      have hshort : (u.drop g.length).length ≤ fuel := by
        rw [List.length_drop]
        exact (Nat.sub_le _ _).trans (Nat.le_of_succ_le_succ hfuel)
      obtain ⟨pieces, hpieces, hcost, hdecode⟩ := ih (hfilled.drop hle) hhead hshort
      refine ⟨piece :: pieces, ?_, ?_, ?_⟩
      · rw [drop_of_cons_eq hu] at hpieces
        exact hu ▸ hpieces.cons hg
      · rw [cost_cons, hcost]
        exact Option.some.inj hd
      · rw [Tokenizer.decode, List.head?_cons, Option.bind_eq_bind, Option.bind_some, hlength,
          List.drop_succ_cons, List.drop_succ_cons, hdecode, hid]
        cases piece with
        | token id => rfl
        | unknown a =>
          obtain ⟨rfl, -⟩ := List.cons.inj hg
          rfl

/-! ## The bytes of the tokens -/

theorem or_digit {c mark a i j : ℕ} (hmark : mark = 2 ^ i * a) (h : c / 2 ^ j % 64 < 2 ^ i) :
    mark ||| (c >>> j &&& 0x3F) = mark + c / 2 ^ j % 64 := by
  have hmask : c >>> j &&& 0x3F = c / 2 ^ j % 64 := by
    rw [Nat.shiftRight_eq_div_pow]
    exact Nat.and_two_pow_sub_one_eq_mod _ 6
  rw [hmask, hmark]
  exact (Nat.two_pow_add_eq_or_of_lt h a).symm

theorem or_self_and (n m : ℕ) : n ||| (n &&& m) = n := by
  refine Nat.eq_of_testBit_eq fun i => ?_
  rw [Nat.testBit_or, Nat.testBit_and]
  cases n.testBit i <;> rfl

theorem byteTokens_eq (tk : Tokenizer) {c : ℕ} (hc : c ≤ maxCpt) :
    tk.byteTokens c = (utf8Bytes c).map fun b => (tk.bytes b.toNat : ℤ) := by
  rw [maxCpt] at hc
  rw [utf8Bytes]
  by_cases h1 : c ≤ 0x7F
  · have hextra : Tokenizer.extraBytes c = 0 := by
      rw [Tokenizer.extraBytes]
      split_ifs <;> omega
    have hb : (UInt8.ofNat c).toNat = c := by rw [UInt8.toNat_ofNat']; omega
    rw [if_pos h1, Tokenizer.byteTokens, hextra, List.map_singleton, hb]
    change [(tk.bytes (c % 256 ||| (c &&& 0x3F)) : ℤ)] = _
    rw [Nat.mod_eq_of_lt (by omega), or_self_and]
  rw [if_neg h1]
  have hlow : 0x80 ||| (c >>> 0 &&& 0x3F) = (UInt8.ofNat (0x80 + c % 64)).toNat := by
    rw [UInt8.toNat_ofNat', @or_digit c 0x80 2 6 0 rfl (by omega)]
    omega
  have hmid : 0x80 ||| (c >>> 6 &&& 0x3F) = (UInt8.ofNat (0x80 + c / 64 % 64)).toNat := by
    rw [UInt8.toNat_ofNat', @or_digit c 0x80 2 6 6 rfl (by omega)]
    omega
  have hhigh : 0x80 ||| (c >>> 12 &&& 0x3F) = (UInt8.ofNat (0x80 + c / 4096 % 64)).toNat := by
    rw [UInt8.toNat_ofNat', @or_digit c 0x80 2 6 12 rfl (by omega)]
    omega
  by_cases h2 : c ≤ 0x7FF
  · have hextra : Tokenizer.extraBytes c = 1 := by
      rw [Tokenizer.extraBytes]
      split_ifs <;> omega
    have hfirst : 0xC0 ||| (c >>> 6 &&& 0x3F) = (UInt8.ofNat (0xC0 + c / 64 % 32)).toNat := by
      rw [UInt8.toNat_ofNat', @or_digit c 0xC0 3 6 6 rfl (by omega)]
      omega
    rw [if_pos h2, Tokenizer.byteTokens, hextra]
    change [(tk.bytes (0xC0 ||| (c >>> 6 &&& 0x3F)) : ℤ), tk.bytes (0x80 ||| (c >>> 0 &&& 0x3F))] = _
    rw [hfirst, hlow]
    rfl
  rw [if_neg h2]
  by_cases h3 : c ≤ 0xFFFF
  · have hextra : Tokenizer.extraBytes c = 2 := by
      rw [Tokenizer.extraBytes]
      split_ifs <;> omega
    have hfirst : 0xE0 ||| (c >>> 12 &&& 0x3F) = (UInt8.ofNat (0xE0 + c / 4096 % 16)).toNat := by
      rw [UInt8.toNat_ofNat', @or_digit c 0xE0 7 5 12 rfl (by omega)]
      omega
    rw [if_pos h3, Tokenizer.byteTokens, hextra]
    change [(tk.bytes (0xE0 ||| (c >>> 12 &&& 0x3F)) : ℤ), tk.bytes (0x80 ||| (c >>> 6 &&& 0x3F)),
      tk.bytes (0x80 ||| (c >>> 0 &&& 0x3F))] = _
    rw [hfirst, hmid, hlow]
    rfl
  · have hextra : Tokenizer.extraBytes c = 3 := by
      rw [Tokenizer.extraBytes]
      split_ifs <;> omega
    have hfirst : 0xF0 ||| (c >>> 18 &&& 0x3F) = (UInt8.ofNat (0xF0 + c / 262144 % 8)).toNat := by
      rw [UInt8.toNat_ofNat', @or_digit c 0xF0 15 4 18 rfl (by omega)]
      omega
    rw [if_neg h3, Tokenizer.byteTokens, hextra]
    change [(tk.bytes (0xF0 ||| (c >>> 18 &&& 0x3F)) : ℤ), tk.bytes (0x80 ||| (c >>> 12 &&& 0x3F)),
      tk.bytes (0x80 ||| (c >>> 6 &&& 0x3F)), tk.bytes (0x80 ||| (c >>> 0 &&& 0x3F))] = _
    rw [hfirst, hhigh, hmid, hlow]
    rfl

theorem bytesOfToken_byte {vocab : List TokenData} (hbytes : ∀ i < 256, bytesOf vocab i ≠ 0)
    (b : UInt8) : bytesOfToken vocab (bytesOf vocab b.toNat : ℤ) = [b] := by
  obtain ⟨entry, hentry, hbyte, hval⟩ := exists_byteToken (hbytes b.toNat b.toNat_lt)
  rw [bytesOfToken, Int.toNat_natCast, hentry]
  simp only [hbyte, if_true, hval]
  rw [Option.map_some, UInt8.ofNat_toNat]
  rfl

section
variable {vocab : List TokenData} {tk : Tokenizer} (hbuild : build vocab = .ok tk)

include hbuild

theorem bytes_tokensOf {g : List ℕ} {piece : Piece} (h : Covers vocab g piece) (hvalid : Valid g) :
    (tk.tokensOf piece).flatMap (bytesOfToken vocab) = encode g := by
  obtain ⟨hbytes, rfl⟩ := build_eq_ok hbuild
  cases piece with
  | token id =>
    obtain ⟨entry, hentry, hbyte, htext⟩ := h
    rw [Tokenizer.tokensOf, List.flatMap_singleton, bytesOfToken, Int.toNat_natCast, hentry]
    simp only [hbyte, Bool.false_eq_true, if_false, htext]
  | unknown c =>
    obtain rfl : g = [c] := h
    rw [Tokenizer.tokensOf, byteTokens_eq _ (hvalid c (List.mem_singleton_self c)),
      List.flatMap_map]
    simp only [bytesOfToken_byte hbytes]
    rw [List.flatMap_singleton', encode, List.flatMap_singleton]

theorem Segmentation.bytes {u : List ℕ} {pieces : List Piece} (h : Segmentation vocab u pieces)
    (hvalid : Valid u) :
    (pieces.flatMap tk.tokensOf).flatMap (bytesOfToken vocab) = encode u := by
  obtain ⟨groups, rfl, hgroups⟩ := h
  induction hgroups with
  | nil => rfl
  | @cons g piece groups pieces hg hgroups ih =>
    rw [List.flatten_cons] at hvalid ⊢
    have hfirst : Valid g := fun c hc => hvalid c (List.mem_append_left _ hc)
    have hrest : Valid groups.flatten := fun c hc => hvalid c (List.mem_append_right _ hc)
    rw [List.flatMap_cons, List.flatMap_append, ih hrest, bytes_tokensOf hbuild hg hfirst,
      encode_append]

end

/-! ## The rows visited -/

/-- The rows that the search for the best path goes through from a suffix id on, up to the one of
the unknown character. -/
def Tokenizer.visited (tk : Tokenizer) (suffixId : ℕ) : List Row :=
  (tk.table.drop suffixId).takeWhile fun row => row.score ≠ UNKNOWN_SCORE

section
variable {vocab : List TokenData} {tk : Tokenizer} (hvocab : WellFormed vocab)
  (hbuild : build vocab = .ok tk)

include hvocab hbuild

theorem visited_eq {w : List ℕ} (h : Known (suffixToScore vocab) w) :
    tk.visited (idOf (suffixToScore vocab) w) =
      (piecesOf (suffixToScore vocab) (encode w)).map (rowFor vocab) := by
  obtain ⟨rest, hrest⟩ := exists_drop_table hvocab hbuild h
  rw [Tokenizer.visited, hrest, List.takeWhile_append_of_pos]
  · exact List.append_nil _
  · intro row hrow
    obtain ⟨x, -, rfl⟩ := List.mem_map.mp hrow
    exact decide_eq_true (rowFor_score_ne hvocab x)

theorem visited_iff {u w : List ℕ} (hw : IsLongest (Known (suffixToScore vocab)) u w)
    (hvalid : Valid u) (id length : ℕ) :
    (∃ row ∈ tk.visited (idOf (suffixToScore vocab) w), INVALID_SCORE < row.score ∧
      row.score = (Piece.token id).score vocab ∧ row.tokenId = id ∧ row.pieceLength = length) ↔
      length ≤ u.length ∧ Covers vocab (u.take length) (.token id) := by
  rw [visited_eq hvocab hbuild hw.mem]
  cases u with
  | nil =>
    obtain rfl := List.prefix_nil.mp hw.isPrefix
    refine iff_of_false ?_ ?_
    · rintro ⟨row, hrow, -⟩
      exact List.not_mem_nil hrow
    · rintro ⟨-, hcovers⟩
      exact hcovers.ne_nil hvocab List.take_nil
  | cons c u =>
    constructor
    · rintro ⟨row, hrow, hscore, -, hid, rfl⟩
      obtain ⟨g, piece, rest, hu, hg, hlength, hpiece, -⟩ :=
        exists_piece_of_row hvocab hw (List.mem_append_left _ hrow) hscore
      cases piece with
      | unknown a => exact absurd (hid.symm.trans hpiece) (by simp [Piece.tokenId])
      | token id' =>
        obtain rfl := Int.ofNat.inj (hid.symm.trans hpiece)
        rw [hlength, hu]
        refine ⟨?_, ?_⟩
        · rw [List.length_append]
          exact Nat.le_add_right _ _
        · rwa [← List.length_cons, List.take_left]
    · rintro ⟨hle, hcovers⟩
      obtain ⟨g, hg⟩ : ∃ g, (c :: u).take length = c :: g := by
        cases length with
        | zero => exact absurd rfl (hcovers.ne_nil hvocab)
        | succ k => exact ⟨_, List.take_succ_cons⟩
      have hu : c :: u = c :: g ++ (c :: u).drop length := by
        rw [← hg, List.take_append_drop]
      rw [hg] at hcovers
      obtain ⟨row, hrow, hscore, hlength, hid, hrowscore⟩ :=
        exists_row_of_piece hvocab hw hu hcovers hvalid
      have hg' := congrArg List.length hg
      rw [List.length_take, Nat.min_eq_left hle] at hg'
      refine ⟨row, ?_, hscore, hrowscore, hid, hlength.trans hg'.symm⟩
      rcases List.mem_append.mp hrow with hrow | hrow
      · exact hrow
      · rw [List.mem_singleton.mp hrow] at hid
        exact absurd hid (by simp [sentinel, Piece.tokenId])

/-- The tokens spell the text, they are those of a segmentation that no other beats, and the rows
visited at a position are the tokens that begin the rest of the text. -/
theorem encodeCpts_optimal {cpts : List ℕ} (hvalid : Valid cpts)
    (hlength : cpts.length < 2 ^ 31) :
    ∃ ids pieces, tk.encodeCpts cpts = some ids ∧
      ids.flatMap (bytesOfToken vocab) = encode cpts ∧
      ids = pieces.flatMap tk.tokensOf ∧ Segmentation vocab cpts pieces ∧
      (∀ other, Segmentation vocab cpts other → cost vocab pieces ≤ cost vocab other) ∧
      ∀ u, u <:+ cpts → ∃ state, tk.fill u = some state ∧ ∀ id length : ℕ,
        (∃ row ∈ tk.visited state.suffixId, INVALID_SCORE < row.score ∧
          row.score = (Piece.token id).score vocab ∧ row.tokenId = id ∧
          row.pieceLength = length) ↔
          length ≤ u.length ∧ Covers vocab (u.take length) (.token id) := by
  obtain ⟨state, hfill, hsolved⟩ := exists_solved hvocab hbuild hvalid hlength
  have hpos : 0 < state.scores.length := hsolved.filled.length.1 ▸ Nat.succ_pos _
  have hget := List.getElem?_eq_getElem hpos
  obtain ⟨pieces, hpieces, hcost, hdecode⟩ := hsolved.filled.decode tk hget le_rfl
  refine ⟨pieces.flatMap tk.tokensOf, pieces, ?_, hpieces.bytes hbuild hvalid, rfl, hpieces, ?_, ?_⟩
  · rw [Tokenizer.encodeCpts]
    split_ifs with hempty
    · obtain rfl := hempty
      rw [hpieces.eq_nil hvocab]
      rfl
    · rw [hfill, Option.bind_eq_bind, Option.bind_some, hdecode]
  · rw [hcost]
    exact (hsolved.optimal 0 _ hget).least
  · intro u hu
    obtain ⟨state, hfill, hsolved⟩ := exists_solved hvocab hbuild (hvalid.of_suffix hu)
      (hu.length_le.trans_lt hlength)
    obtain ⟨w, hw, hid⟩ := hsolved.suffix
    refine ⟨state, hfill, ?_⟩
    rw [hid]
    exact visited_iff hvocab hbuild hw (hvalid.of_suffix hu)

end

/-! ## Examples -/

def hexChar (n : ℕ) : UInt8 := if n < 10 then .ofNat (0x30 + n) else .ofNat (0x37 + n)

/-- The byte token `<0xHH>`. -/
def byteEntry (v : ℕ) : TokenData :=
  ⟨[0x3C, 0x30, 0x78, hexChar (v / 16), hexChar (v % 16), 0x3E], none, true⟩

/-- Tokens with a score of zero, and behind the first of them the byte tokens. -/
def exampleVocab (text : Text) (texts : List Text) : List TokenData :=
  ⟨text, some 0, false⟩ :: (List.range 256).map byteEntry ++
    texts.map fun text => ⟨text, some 0, false⟩

theorem mem_exampleVocab {text : Text} {texts : List Text} {entry : TokenData}
    (h : entry ∈ exampleVocab text texts) :
    (∃ v, entry = byteEntry v) ∨ ∃ t ∈ text :: texts, entry = ⟨t, some 0, false⟩ := by
  rcases List.mem_append.mp h with h | h
  · rcases List.mem_cons.mp h with rfl | h
    · exact .inr ⟨text, List.mem_cons_self, rfl⟩
    · obtain ⟨v, -, rfl⟩ := List.mem_map.mp h
      exact .inl ⟨v, rfl⟩
  · obtain ⟨t, ht, rfl⟩ := List.mem_map.mp h
    exact .inr ⟨t, List.mem_cons_of_mem text ht, rfl⟩

theorem byteVal_byteEntry : ∀ v < 256, byteVal (byteEntry v).text = some v := by decide +kernel

theorem exampleVocab_unique {text : Text} {texts : List Text} (h : (text :: texts).Nodup)
    (hother : ∀ t ∈ text :: texts, byteVal t = none) :
    ((exampleVocab text texts).map TokenData.text).Nodup := by
  have hbytes : ((List.range 256).map fun v => (byteEntry v).text).Nodup := by
    refine List.Nodup.map_on (fun v hv v' hv' heq => ?_) List.nodup_range
    have hval := byteVal_byteEntry v (List.mem_range.mp hv)
    rw [heq, byteVal_byteEntry v' (List.mem_range.mp hv')] at hval
    exact (Option.some.inj hval).symm
  have hdisjoint : ∀ t ∈ text :: texts, t ∉ (List.range 256).map fun v => (byteEntry v).text := by
    intro t ht hmem
    obtain ⟨v, hv, rfl⟩ := List.mem_map.mp hmem
    have hnone := hother _ ht
    rw [byteVal_byteEntry v (List.mem_range.mp hv)] at hnone
    cases hnone
  obtain ⟨htext, htexts⟩ := List.nodup_cons.mp h
  have hmap : (exampleVocab text texts).map TokenData.text =
      text :: ((List.range 256).map fun v => (byteEntry v).text) ++ texts := by
    rw [exampleVocab, List.map_append, List.map_cons, List.map_map, List.map_map]
    exact congrArg (_ ++ ·) (List.map_id texts)
  rw [hmap, List.cons_append, List.nodup_cons, List.mem_append, not_or]
  refine ⟨⟨hdisjoint text List.mem_cons_self, htext⟩, List.nodup_append.mpr ⟨hbytes, htexts, ?_⟩⟩
  rintro t ht t' ht' rfl
  exact hdisjoint t (List.mem_cons_of_mem text ht') ht

theorem exampleVocab_nonempty {text : Text} {texts : List Text} (h : ∀ t ∈ text :: texts, t ≠ []) :
    ∀ entry ∈ exampleVocab text texts, entry.text ≠ [] := by
  intro entry hentry
  rcases mem_exampleVocab hentry with ⟨v, rfl⟩ | ⟨t, ht, rfl⟩
  · exact List.cons_ne_nil _ _
  · exact h t ht

theorem exampleVocab_scored (text : Text) (texts : List Text) :
    ∀ entry ∈ exampleVocab text texts, entry.isByte = false →
      ∃ s, entry.score = some s ∧ UNKNOWN_SCORE < s := by
  intro entry hentry hbyte
  rcases mem_exampleVocab hentry with ⟨v, rfl⟩ | ⟨t, -, rfl⟩
  · cases hbyte
  · exact ⟨0, rfl, by decide⟩

theorem exampleVocab_build (text : Text) (texts : List Text)
    (h : ∀ t ∈ text :: texts, Valid (cptsFromUtf8 t)) :
    ∃ tk, build (exampleVocab text texts) = .ok tk := by
  refine exists_build (fun v hv => bytesOf_ne_zero _ ⟨byteEntry v, List.mem_append_left _ ?_, rfl,
    byteVal_byteEntry v hv⟩) fun entry hentry hbyte => ?_
  · exact List.mem_map_of_mem (List.mem_range.mpr hv)
  · rcases mem_exampleVocab hentry with ⟨v, rfl⟩ | ⟨t, ht, rfl⟩
    · cases hbyte
    · exact h t ht

theorem exampleVocab_wellFormed : WellFormed (exampleVocab [0x61] [[0xCE, 0xB1, 0x62]]) where
  unique := exampleVocab_unique (by decide) (by decide)
  nonempty := exampleVocab_nonempty (by decide)
  scored := exampleVocab_scored _ _
  utf8 entry hentry hbyte := by
    rcases mem_exampleVocab hentry with ⟨v, rfl⟩ | ⟨t, ht, rfl⟩
    · cases hbyte
    · rcases List.mem_cons.mp ht with rfl | ht
      · exact ⟨[0x61], by decide, by decide⟩
      · rw [List.mem_singleton.mp ht]
        exact ⟨[0x3B1, 0x62], by decide, by decide⟩

theorem encodeCpts_optimal_example :
    ∃ tk, build (exampleVocab [0x61] [[0xCE, 0xB1, 0x62]]) = .ok tk ∧
      ∃ ids, tk.encodeCpts [0x61, 0x3B1, 0x62, 0x3B1] = some ids ∧
        ids.flatMap (bytesOfToken (exampleVocab [0x61] [[0xCE, 0xB1, 0x62]])) =
          encode [0x61, 0x3B1, 0x62, 0x3B1] := by
  obtain ⟨tk, hbuild⟩ := exampleVocab_build [0x61] [[0xCE, 0xB1, 0x62]] (by decide)
  obtain ⟨ids, -, hids, hbytes, -⟩ := encodeCpts_optimal exampleVocab_wellFormed hbuild
    (show Valid [0x61, 0x3B1, 0x62, 0x3B1] by decide) (by decide)
  exact ⟨tk, hbuild, ids, hids, hbytes⟩

/-- A token that is not UTF-8: `a` and a continuation byte. It comes before the replacement
character that remains of it, whose id is then still zero, so its code is that of `a`. -/
theorem malformed_token_loses_text :
    (∀ entry ∈ exampleVocab [0x61, 0x80] [[0x61, 0xEF, 0xBF, 0xBD]], entry.text ≠ []) ∧
      ((exampleVocab [0x61, 0x80] [[0x61, 0xEF, 0xBF, 0xBD]]).map TokenData.text).Nodup ∧
      (∀ entry ∈ exampleVocab [0x61, 0x80] [[0x61, 0xEF, 0xBF, 0xBD]], entry.isByte = false →
        ∃ s, entry.score = some s ∧ UNKNOWN_SCORE < s) ∧
      ∃ tk ids, build (exampleVocab [0x61, 0x80] [[0x61, 0xEF, 0xBF, 0xBD]]) = .ok tk ∧
        tk.encodeCpts [0x61, 0x62] = some ids ∧
        ids.flatMap (bytesOfToken (exampleVocab [0x61, 0x80] [[0x61, 0xEF, 0xBF, 0xBD]])) ≠
          encode [0x61, 0x62] := by
  refine ⟨exampleVocab_nonempty (by decide), exampleVocab_unique (by decide) (by decide),
    exampleVocab_scored _ _, ?_⟩
  obtain ⟨tk, hbuild⟩ := exampleVocab_build [0x61, 0x80] [[0x61, 0xEF, 0xBF, 0xBD]] (by decide)
  obtain ⟨-, htk⟩ := build_eq_ok hbuild
  have hrun : tk.encodeCpts [0x61, 0x62] = some [257] := by
    rw [htk]
    decide +kernel
  exact ⟨tk, [257], hbuild, hrun, by decide +kernel⟩

end Plamo2
end RocmFpx
