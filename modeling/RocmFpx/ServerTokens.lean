import Mathlib.Algebra.Ring.Int.Defs
import Mathlib.Algebra.Ring.Nat
import Mathlib.Data.List.Basic
import Mathlib.Data.List.TakeDrop

/-!
The list of prompt tokens of a server slot: text tokens and, for each media chunk, as many null
tokens as it takes, with a map from start indices to chunks beside them.
-/

namespace RocmFpx

abbrev LlamaToken := Int32

inductive ChunkType
  | text
  | image
  | audio
  deriving DecidableEq

/-- What the list of tokens calls of mtmd, over the type of its chunks. -/
structure Mtmd (C : Type) where
  getType : C → ChunkType
  getNTokens : C → ℕ
  getNPos : C → ℤ
  getId : C → List UInt8
  getTokensText : C → List LlamaToken
  copy : C → C
  save : C → Option (List UInt8)
  load : List UInt8 → Option C

namespace Mtmd

variable {C : Type} (api : Mtmd C)

/-- The chunk without its data: what is loaded of what was saved. -/
def getPlaceholder (chunk : C) : Option C := (api.save chunk).bind api.load

/-- The chunks agree in what a list of tokens asks of them. -/
structure Same (a b : C) : Prop where
  getType : api.getType a = api.getType b
  getId : api.getId a = api.getId b
  getNTokens : api.getNTokens a = api.getNTokens b
  getNPos : api.getNPos a = api.getNPos b

structure Faithful : Prop where
  copy : ∀ chunk, api.Same (api.copy chunk) chunk
  load_save : ∀ chunk bs, api.save chunk = some bs → ∃ c, api.load bs = some c ∧ api.Same c chunk

variable {api}

theorem Faithful.placeholder (h : api.Faithful) {chunk c : C}
    (hc : api.getPlaceholder chunk = some c) : api.Same c chunk := by
  obtain ⟨bs, hsave, hload⟩ := Option.bind_eq_some_iff.mp hc
  obtain ⟨c', hload', hsame⟩ := h.load_save chunk bs hsave
  rwa [← Option.some.inj (hload'.symm.trans hload)]

end Mtmd

structure ServerTokens (C : Type) where
  hasMtmd : Bool := false
  mapIdxToMedia : List (ℕ × C) := []
  tokens : List LlamaToken := []

inductive ServerTokensError
  | assertion
  | chunkNotFound
  | invalidToken
  | stateTooLarge
  | cannotSerialize
  | unexpectedEnd
  | unsupportedVersion
  | noMmproj
  | cannotLoad
  | trailingData
  deriving DecidableEq

/-- The text of the exception; an assertion stops the server instead. -/
def ServerTokensError.what : ServerTokensError → Option String
  | .assertion => none
  | .chunkNotFound => some "Chunk not found"
  | .invalidToken => some "Invalid token"
  | .stateTooLarge => some "Server tokens state is too large"
  | .cannotSerialize => some "Cannot serialize media chunk in server tokens"
  | .unexpectedEnd => some "Unexpected end of server tokens state"
  | .unsupportedVersion => some "Unsupported server tokens state version"
  | .noMmproj => some "Cannot restore media tokens without an mmproj"
  | .cannotLoad => some "Cannot load media chunk from server tokens state"
  | .trailingData => some "Trailing data in server tokens state"

namespace ServerTokens

variable {C : Type} (api : Mtmd C)

def llamaTokenNull : LlamaToken := -1

/-- `map[idx] = chunk` on a map that is kept as a list sorted by its keys. -/
def setChunk (idx : ℕ) (chunk : C) : List (ℕ × C) → List (ℕ × C)
  | [] => [(idx, chunk)]
  | (k, c) :: m =>
    if idx < k then (idx, chunk) :: (k, c) :: m
    else if idx = k then (idx, chunk) :: m
    else (k, c) :: setChunk idx chunk m

def findChunk (s : ServerTokens C) (idx : ℕ) : Except ServerTokensError C :=
  match s.mapIdxToMedia.lookup idx with
  | some chunk => .ok chunk
  | none => .error .chunkNotFound

/-- A member function that may throw: the list is what it was changed to so far. -/
abbrev Method (C : Type) := EStateM ServerTokensError (ServerTokens C)

def pushBack (tok : LlamaToken) : Method C Unit := fun s =>
  if tok = llamaTokenNull then .error .invalidToken s
  else .ok () { s with tokens := s.tokens ++ [tok] }

def pushMedia (nTokens : ℕ) (newChunk : C) : Method C Unit := fun s =>
  .ok () { s with
    tokens := s.tokens ++ List.replicate nTokens llamaTokenNull
    mapIdxToMedia := setChunk s.tokens.length newChunk s.mapIdxToMedia }

def pushBackChunk (chunk : C) : Method C Unit := fun s =>
  match api.getType chunk with
  | .text => (api.getTokensText chunk).forM pushBack s
  | .image | .audio =>
    if s.hasMtmd then pushMedia (api.getNTokens chunk) (api.copy chunk) s
    else .error .assertion s

def pushBackPlaceholder (chunk : C) : Method C Unit := fun s =>
  match api.getType chunk with
  | .text => pushBackChunk api chunk s
  | .image | .audio =>
    if s.hasMtmd then
      match api.getPlaceholder chunk with
      | some newChunk => pushMedia (api.getNTokens chunk) newChunk s
      | none => .error .assertion s
    else .error .assertion s

/-- The constructor from chunks. -/
def ofChunks (chunks : List C) (hasMtmd : Bool) : Except ServerTokensError (ServerTokens C) :=
  match chunks.forM (pushBackChunk api) { hasMtmd := hasMtmd } with
  | .ok () s => .ok s
  | .error e _ => .error e

/-- The constructor from tokens. -/
def ofTokens (tokens : List LlamaToken) (hasMtmd : Bool) : ServerTokens C :=
  { hasMtmd := hasMtmd, tokens := tokens }

/-- What `keep_first` looks at before it removes anything. -/
def checkCut (s : ServerTokens C) (n : ℕ) : Except ServerTokensError Unit :=
  if 0 < n ∧ s.tokens[n - 1]? = some llamaTokenNull ∧ s.tokens[n]? = some llamaTokenNull then
    (s.findChunk n).map fun _ => ()
  else .ok ()

def keepFirst (n : ℕ) : Method C Unit := fun s =>
  if s.tokens.length < n then .error .assertion s
  else if s.hasMtmd then
    if n = s.tokens.length then .ok () s
    else
      match s.checkCut n with
      | .error e => .error e s
      | .ok () => .ok () { s with
          mapIdxToMedia := s.mapIdxToMedia.filter fun m => m.1 < n
          tokens := s.tokens.take n }
  else .ok () { s with tokens := s.tokens.take n }

def clone (s : ServerTokens C) : ServerTokens C where
  hasMtmd := s.hasMtmd
  tokens := s.tokens
  mapIdxToMedia := s.mapIdxToMedia.map fun m => (m.1, api.copy m.2)

/-! ## What a list of tokens stands for -/

/-- A text token, or a chunk of media with all its null tokens. -/
inductive Item (C : Type)
  | text (tok : LlamaToken)
  | media (chunk : C)

variable {api}

def Item.tokens (api : Mtmd C) : Item C → List LlamaToken
  | .text tok => [tok]
  | .media chunk => List.replicate (api.getNTokens chunk) llamaTokenNull

def Item.Valid (api : Mtmd C) : Item C → Prop
  | .text tok => tok ≠ llamaTokenNull
  | .media chunk => api.getType chunk ≠ .text ∧ 0 < api.getNTokens chunk

def flat (api : Mtmd C) (items : List (Item C)) : List LlamaToken := items.flatMap (Item.tokens api)

/-- The chunks among the items, each at the index of its first null token. -/
def keysFrom (api : Mtmd C) (i : ℕ) : List (Item C) → List (ℕ × C)
  | [] => []
  | .text _ :: items => keysFrom api (i + 1) items
  | .media chunk :: items => (i, chunk) :: keysFrom api (i + api.getNTokens chunk) items

structure Tiles (api : Mtmd C) (s : ServerTokens C) (items : List (Item C)) : Prop where
  tokens_eq : s.tokens = flat api items
  media_eq : s.mapIdxToMedia = keysFrom api 0 items
  valid : ∀ item ∈ items, item.Valid api
  admitted : s.mapIdxToMedia = [] ∨ s.hasMtmd

/-- The null tokens are exactly those of the chunks of the map, each chunk at its key. -/
def WellFormed (api : Mtmd C) (s : ServerTokens C) : Prop := ∃ items, Tiles api s items

@[simp] theorem flat_nil : flat api [] = [] := rfl

@[simp] theorem flat_text (tok : LlamaToken) (items : List (Item C)) :
    flat api (.text tok :: items) = tok :: flat api items := rfl

@[simp] theorem flat_media (chunk : C) (items : List (Item C)) :
    flat api (.media chunk :: items) =
      List.replicate (api.getNTokens chunk) llamaTokenNull ++ flat api items := rfl

theorem flat_append (xs ys : List (Item C)) : flat api (xs ++ ys) = flat api xs ++ flat api ys :=
  List.flatMap_append

theorem keysFrom_append (i : ℕ) (xs ys : List (Item C)) :
    keysFrom api i (xs ++ ys) =
      keysFrom api i xs ++ keysFrom api (i + (flat api xs).length) ys := by
  induction xs generalizing i with
  | nil => rfl
  | cons x xs ih =>
    cases x with
    | text tok =>
      rw [List.cons_append, keysFrom, keysFrom, ih, flat_text, List.length_cons]
      congr 2
      omega
    | media chunk =>
      rw [List.cons_append, keysFrom, keysFrom, ih, flat_media, List.length_append,
        List.length_replicate, List.cons_append, Nat.add_assoc]

theorem le_of_mem_keysFrom {i : ℕ} {items : List (Item C)} {m : ℕ × C}
    (h : m ∈ keysFrom api i items) : i ≤ m.1 := by
  induction items generalizing i with
  | nil => exact absurd h List.not_mem_nil
  | cons item items ih =>
    cases item with
    | text tok => exact Nat.le_trans (Nat.le_succ i) (ih h)
    | media chunk =>
      rcases List.mem_cons.mp h with rfl | h
      · exact le_rfl
      · exact Nat.le_trans (Nat.le_add_right i _) (ih h)

theorem add_le_of_mem_keysFrom {i : ℕ} {items : List (Item C)} {m : ℕ × C}
    (h : m ∈ keysFrom api i items) :
    m.1 + api.getNTokens m.2 ≤ i + (flat api items).length := by
  induction items generalizing i with
  | nil => exact absurd h List.not_mem_nil
  | cons item items ih =>
    cases item with
    | text tok =>
      have hle := ih h
      rw [flat_text, List.length_cons]
      omega
    | media chunk =>
      rw [flat_media, List.length_append, List.length_replicate]
      rcases List.mem_cons.mp h with rfl | h
      · exact Nat.add_le_add_left (Nat.le_add_right _ _) i
      · have hle := ih h
        omega

theorem lt_of_mem_keysFrom {i : ℕ} {items : List (Item C)} {m : ℕ × C}
    (hvalid : ∀ item ∈ items, item.Valid api) (h : m ∈ keysFrom api i items) :
    m.1 < i + (flat api items).length ∧ 0 < api.getNTokens m.2 := by
  have hpos : 0 < api.getNTokens m.2 := by
    induction items generalizing i with
    | nil => exact absurd h List.not_mem_nil
    | cons item items ih =>
      obtain ⟨hitem, hitems⟩ := List.forall_mem_cons.mp hvalid
      cases item with
      | text tok => exact ih hitems h
      | media chunk =>
        rcases List.mem_cons.mp h with rfl | h
        · exact hitem.2
        · exact ih hitems h
  have hle := add_le_of_mem_keysFrom h
  exact ⟨by omega, hpos⟩

theorem keysFrom_texts {items : List (Item C)} {i : ℕ} (h : keysFrom api i items = [])
    (j : ℕ) : keysFrom api j items = [] := by
  induction items generalizing i j with
  | nil => rfl
  | cons item items ih =>
    cases item with
    | text tok => exact ih h (j + 1)
    | media chunk => exact nomatch h

theorem setChunk_of_lt {idx : ℕ} {chunk : C} {m : List (ℕ × C)} (h : ∀ p ∈ m, p.1 < idx) :
    setChunk idx chunk m = m ++ [(idx, chunk)] := by
  induction m with
  | nil => rfl
  | cons p m ih =>
    obtain ⟨hp, hm⟩ := List.forall_mem_cons.mp h
    have hlt : p.1 < idx := hp
    rw [setChunk, if_neg (by omega), if_neg (by omega), ih hm, List.cons_append]

end ServerTokens
end RocmFpx

/-!
What the member functions do to a well-formed list of tokens: appending, cutting and copying keep
the null tokens tiled by the chunks, and a cut is refused exactly inside a chunk.
-/

namespace RocmFpx
namespace ServerTokens

variable {C : Type} {api : Mtmd C} {s : ServerTokens C} {items p r : List (Item C)}

/-! ## Appending -/

/-- The list when the member function has returned or thrown. -/
def after (m : Method C Unit) (s : ServerTokens C) : ServerTokens C :=
  match m s with
  | .ok _ s' => s'
  | .error _ s' => s'

def Keeps (P : ServerTokens C → Prop) (m : Method C Unit) : Prop := ∀ s, P s → P (after m s)

theorem Keeps.forM {α : Type} {P : ServerTokens C → Prop} {f : α → Method C Unit} {l : List α}
    (h : ∀ a ∈ l, Keeps P (f a)) : Keeps P (l.forM f) := by
  induction l with
  | nil => exact fun s hs => hs
  | cons a l ih =>
    obtain ⟨ha, hl⟩ := List.forall_mem_cons.mp h
    intro s hs
    have hfirst := ha s hs
    have hrest := ih hl
    unfold Keeps after at hfirst hrest
    change P (match EStateM.bind (f a) (fun _ => l.forM f) s with | .ok _ s' => s' | .error _ s' => s')
    unfold EStateM.bind
    cases hrun : f a s with
    | ok u s' =>
      rw [hrun] at hfirst
      exact hrest s' hfirst
    | error e s' =>
      rw [hrun] at hfirst
      exact hfirst

theorem Tiles.pushText (h : Tiles api s items) {tok : LlamaToken} (htok : tok ≠ llamaTokenNull) :
    Tiles api { s with tokens := s.tokens ++ [tok] } (items ++ [.text tok]) where
  tokens_eq := by rw [flat_append, ← h.tokens_eq]; rfl
  media_eq := by rw [keysFrom_append, ← h.media_eq]; exact (List.append_nil _).symm
  valid := List.forall_mem_append.mpr ⟨h.valid, List.forall_mem_singleton.mpr htok⟩
  admitted := h.admitted

theorem Tiles.key_lt (h : Tiles api s items) {m : ℕ × C} (hm : m ∈ s.mapIdxToMedia) :
    m.1 < s.tokens.length := by
  rw [h.media_eq] at hm
  have hlt := (lt_of_mem_keysFrom h.valid hm).1
  rwa [Nat.zero_add, ← h.tokens_eq] at hlt

theorem Tiles.pushMedia (h : Tiles api s items) (hmtmd : s.hasMtmd) {chunk : C}
    (htype : api.getType chunk ≠ .text) (hpos : 0 < api.getNTokens chunk) :
    Tiles api { s with
      tokens := s.tokens ++ List.replicate (api.getNTokens chunk) llamaTokenNull
      mapIdxToMedia := setChunk s.tokens.length chunk s.mapIdxToMedia }
      (items ++ [.media chunk]) where
  tokens_eq := by rw [flat_append, ← h.tokens_eq, flat_media, flat_nil, List.append_nil]
  media_eq := by
    rw [setChunk_of_lt fun m hm => h.key_lt hm, keysFrom_append, ← h.media_eq, ← h.tokens_eq,
      Nat.zero_add]
    rfl
  valid := List.forall_mem_append.mpr ⟨h.valid, List.forall_mem_singleton.mpr ⟨htype, hpos⟩⟩
  admitted := .inr hmtmd

theorem keeps_pushBack (tok : LlamaToken) : Keeps (WellFormed api) (pushBack tok) := by
  rintro s ⟨items, h⟩
  unfold after pushBack
  split_ifs with htok
  · exact ⟨items, h⟩
  · exact ⟨_, h.pushText htok⟩

theorem keeps_pushMedia {chunk c : C} (hsame : api.Same c chunk)
    (htype : api.getType chunk ≠ .text) (hpos : 0 < api.getNTokens chunk) :
    Keeps (fun s => WellFormed api s ∧ s.hasMtmd) (pushMedia (api.getNTokens chunk) c) := by
  rintro s ⟨⟨items, h⟩, hmtmd⟩
  rw [← hsame.getNTokens] at hpos ⊢
  rw [← hsame.getType] at htype
  exact ⟨⟨_, h.pushMedia hmtmd htype hpos⟩, hmtmd⟩

/-- A chunk of media that is pushed takes at least one token. -/
def Sized (api : Mtmd C) (chunk : C) : Prop := api.getType chunk ≠ .text → 0 < api.getNTokens chunk

theorem keeps_pushBackChunk (hapi : api.Faithful) {chunk : C} (hsized : Sized api chunk) :
    Keeps (WellFormed api) (pushBackChunk api chunk) := by
  intro s hs
  unfold after pushBackChunk
  cases htype : api.getType chunk with
  | text => exact Keeps.forM (fun tok _ => keeps_pushBack tok) s hs
  | image | audio =>
    have hmedia : api.getType chunk ≠ .text := by rw [htype]; exact nofun
    by_cases hmtmd : s.hasMtmd
    · dsimp only
      rw [if_pos hmtmd]
      exact (keeps_pushMedia (hapi.copy chunk) hmedia (hsized hmedia) s ⟨hs, hmtmd⟩).1
    · dsimp only
      rw [if_neg hmtmd]
      exact hs

theorem keeps_pushBackPlaceholder (hapi : api.Faithful) {chunk : C} (hsized : Sized api chunk) :
    Keeps (WellFormed api) (pushBackPlaceholder api chunk) := by
  intro s hs
  unfold after pushBackPlaceholder
  cases htype : api.getType chunk with
  | text => exact keeps_pushBackChunk hapi hsized s hs
  | image | audio =>
    have hmedia : api.getType chunk ≠ .text := by rw [htype]; exact nofun
    by_cases hmtmd : s.hasMtmd
    · dsimp only
      rw [if_pos hmtmd]
      cases hplace : api.getPlaceholder chunk with
      | some c =>
        exact (keeps_pushMedia (hapi.placeholder hplace) hmedia (hsized hmedia) s ⟨hs, hmtmd⟩).1
      | none => exact hs
    · dsimp only
      rw [if_neg hmtmd]
      exact hs

theorem wellFormed_empty (hasMtmd : Bool) : WellFormed api { hasMtmd := hasMtmd } :=
  ⟨[], rfl, rfl, fun _ h => absurd h List.not_mem_nil, .inl rfl⟩

theorem ofChunks_wellFormed (hapi : api.Faithful) {chunks : List C} {hasMtmd : Bool}
    (hsized : ∀ chunk ∈ chunks, Sized api chunk) (h : ofChunks api chunks hasMtmd = .ok s) :
    WellFormed api s := by
  have hkeeps := Keeps.forM (fun chunk hc => keeps_pushBackChunk hapi (hsized chunk hc)) _
    (wellFormed_empty hasMtmd)
  unfold ofChunks at h
  unfold after at hkeeps
  cases hrun : chunks.forM (pushBackChunk api) { hasMtmd := hasMtmd } with
  | ok u s' =>
    rw [hrun] at h hkeeps
    exact Except.ok.inj h ▸ hkeeps
  | error e s' =>
    rw [hrun] at h
    exact nomatch h

/-! ## Copying -/

def Item.copy (api : Mtmd C) : Item C → Item C
  | .text tok => .text tok
  | .media chunk => .media (api.copy chunk)

theorem flat_copy (hapi : api.Faithful) (items : List (Item C)) :
    flat api (items.map (Item.copy api)) = flat api items := by
  induction items with
  | nil => rfl
  | cons item items ih =>
    cases item with
    | text tok => rw [List.map_cons, Item.copy, flat_text, ih, flat_text]
    | media chunk =>
      rw [List.map_cons, Item.copy, flat_media, ih, flat_media, (hapi.copy chunk).getNTokens]

theorem keysFrom_copy (hapi : api.Faithful) (i : ℕ) (items : List (Item C)) :
    keysFrom api i (items.map (Item.copy api)) =
      (keysFrom api i items).map fun m => (m.1, api.copy m.2) := by
  induction items generalizing i with
  | nil => rfl
  | cons item items ih =>
    cases item with
    | text tok => exact ih (i + 1)
    | media chunk =>
      rw [List.map_cons, Item.copy, keysFrom, keysFrom, List.map_cons, ih,
        (hapi.copy chunk).getNTokens]

theorem Tiles.clone (hapi : api.Faithful) (h : Tiles api s items) :
    Tiles api (s.clone api) (items.map (Item.copy api)) where
  tokens_eq := by rw [flat_copy hapi]; exact h.tokens_eq
  media_eq := by rw [keysFrom_copy hapi, ← h.media_eq]; rfl
  valid := by
    intro item hitem
    obtain ⟨item, hmem, rfl⟩ := List.mem_map.mp hitem
    have hvalid := h.valid item hmem
    cases item with
    | text tok => exact hvalid
    | media chunk =>
      obtain ⟨htype, hpos⟩ := hvalid
      rw [← (hapi.copy chunk).getType] at htype
      rw [← (hapi.copy chunk).getNTokens] at hpos
      exact ⟨htype, hpos⟩
  admitted := h.admitted.imp_left fun hnil => by
    change s.mapIdxToMedia.map _ = []
    rw [hnil, List.map_nil]

/-! ## Cutting -/

/-- The cut is strictly inside a chunk. -/
def Inside (api : Mtmd C) (s : ServerTokens C) (n : ℕ) : Prop :=
  ∃ m ∈ s.mapIdxToMedia, m.1 < n ∧ n < m.1 + api.getNTokens m.2

theorem cut_cases (items : List (Item C)) {n : ℕ} (hn : n ≤ (flat api items).length) :
    (∃ p r, items = p ++ r ∧ (flat api p).length = n) ∨
    ∃ p chunk r, items = p ++ .media chunk :: r ∧ (flat api p).length < n ∧
      n < (flat api p).length + api.getNTokens chunk := by
  induction items generalizing n with
  | nil => exact .inl ⟨[], [], rfl, (Nat.le_zero.mp hn).symm⟩
  | cons item items ih =>
    cases Nat.eq_zero_or_pos n with
    | inl hzero => exact .inl ⟨[], item :: items, rfl, hzero.symm⟩
    | inr hpos =>
      have hsplit : flat api (item :: items) = item.tokens api ++ flat api items := rfl
      by_cases hwidth : (item.tokens api).length ≤ n
      · rw [hsplit, List.length_append] at hn
        obtain ⟨p, r, rfl, hlen⟩ | ⟨p, chunk, r, rfl, hlo, hhi⟩ :=
          ih (n := n - (item.tokens api).length) (by omega)
        · refine .inl ⟨item :: p, r, rfl, ?_⟩
          change (item.tokens api ++ flat api p).length = n
          rw [List.length_append]
          omega
        · refine .inr ⟨item :: p, chunk, r, rfl, ?_⟩
          change (item.tokens api ++ flat api p).length < n ∧
            n < (item.tokens api ++ flat api p).length + _
          rw [List.length_append]
          omega
      · cases item with
        | text tok => exact absurd hpos hwidth
        | media chunk =>
          refine .inr ⟨[], chunk, items, rfl, hpos, ?_⟩
          change ¬ (List.replicate _ _).length ≤ n at hwidth
          rw [List.length_replicate] at hwidth
          rw [flat_nil, List.length_nil]
          omega

theorem lookup_keysFrom {i idx : ℕ} (h : i + (flat api p).length = idx)
    (hvalid : ∀ item ∈ p, item.Valid api) (r : List (Item C)) :
    (keysFrom api i (p ++ r)).lookup idx = (keysFrom api idx r).lookup idx := by
  have hnone : (keysFrom api i p).lookup idx = none := by
    refine List.lookup_eq_none_iff.mpr fun m hm => ?_
    have hlt := (lt_of_mem_keysFrom hvalid hm).1
    simp only [bne_iff_ne]
    omega
  rw [keysFrom_append, List.lookup_append, hnone, h, Option.none_or]

theorem getElem?_flat {i idx : ℕ} (h : (flat api p).length + i = idx) (r : List (Item C)) :
    (flat api (p ++ r))[idx]? = (flat api r)[i]? := by
  rw [flat_append, ← h, List.getElem?_append_right (Nat.le_add_right _ _), Nat.add_sub_cancel_left]

theorem getElem?_media {i idx : ℕ} {chunk : C} (h : (flat api p).length + i = idx)
    (hi : i < api.getNTokens chunk) (r : List (Item C)) :
    (flat api (p ++ .media chunk :: r))[idx]? = some llamaTokenNull := by
  rw [getElem?_flat h, flat_media, List.getElem?_append_left (by rwa [List.length_replicate]),
    List.getElem?_replicate_of_lt hi]

theorem media_of_null (hvalid : ∀ item ∈ r, item.Valid api)
    (h : (flat api r)[0]? = some llamaTokenNull) : ∃ chunk r', r = .media chunk :: r' := by
  cases r with
  | nil => exact nomatch h
  | cons item r =>
    cases item with
    | text tok => exact absurd (Option.some.inj h) (hvalid _ List.mem_cons_self)
    | media chunk => exact ⟨chunk, r, rfl⟩

theorem Tiles.findChunk (h : Tiles api s (p ++ .media chunk :: r)) {n : ℕ}
    (hn : (flat api p).length = n) : s.findChunk n = .ok chunk := by
  have hlookup := lookup_keysFrom (i := 0) (by rw [Nat.zero_add, hn])
    (fun item hm => h.valid item (List.mem_append_left _ hm)) (.media chunk :: r)
  rw [← h.media_eq] at hlookup
  unfold ServerTokens.findChunk
  rw [hlookup, keysFrom, List.lookup_cons_self]

theorem Tiles.not_inside (h : Tiles api s (p ++ r)) {n : ℕ} (hn : (flat api p).length = n) :
    ¬ Inside api s n := by
  rintro ⟨m, hm, hlo, hhi⟩
  rw [h.media_eq, keysFrom_append, List.mem_append] at hm
  rcases hm with hm | hm
  · have hle := add_le_of_mem_keysFrom hm
    omega
  · have hle := le_of_mem_keysFrom hm
    omega

theorem Tiles.inside {chunk : C} (h : Tiles api s (p ++ .media chunk :: r)) {n : ℕ}
    (hlo : (flat api p).length < n) (hhi : n < (flat api p).length + api.getNTokens chunk) :
    Inside api s n := by
  refine ⟨((flat api p).length, chunk), ?_, hlo, hhi⟩
  rw [h.media_eq, keysFrom_append, Nat.zero_add]
  exact List.mem_append_right _ List.mem_cons_self

theorem Tiles.checkCut (h : Tiles api s (p ++ r)) {n : ℕ} (hn : (flat api p).length = n) :
    s.checkCut n = .ok () := by
  unfold ServerTokens.checkCut
  split_ifs with hcut
  · have hnull := hcut.2.2
    rw [h.tokens_eq, getElem?_flat (i := 0) hn] at hnull
    obtain ⟨chunk, r', rfl⟩ := media_of_null
      (fun item hm => h.valid item (List.mem_append_right _ hm)) hnull
    rw [h.findChunk hn]
    rfl
  · rfl

theorem keysFrom_filter_lt {n : ℕ} (hn : (flat api p).length = n)
    (hvalid : ∀ item ∈ p, item.Valid api) (r : List (Item C)) :
    (keysFrom api 0 (p ++ r)).filter (fun m => m.1 < n) = keysFrom api 0 p := by
  have hkeep : (keysFrom api 0 p).filter (fun m => m.1 < n) = keysFrom api 0 p := by
    refine List.filter_eq_self.mpr fun m hm => decide_eq_true ?_
    have hlt := (lt_of_mem_keysFrom hvalid hm).1
    omega
  have hdrop : (keysFrom api (0 + (flat api p).length) r).filter (fun m => m.1 < n) = [] := by
    refine List.filter_eq_nil_iff.mpr fun m hm hlt => ?_
    have hle := le_of_mem_keysFrom hm
    have hlt := of_decide_eq_true hlt
    omega
  rw [keysFrom_append, List.filter_append, hkeep, hdrop, List.append_nil]

/-- The list that is left by a cut between two items. -/
def cut (s : ServerTokens C) (n : ℕ) : ServerTokens C :=
  { s with
    mapIdxToMedia := s.mapIdxToMedia.filter fun m => m.1 < n
    tokens := s.tokens.take n }

theorem Tiles.cut (h : Tiles api s (p ++ r)) {n : ℕ} (hn : (flat api p).length = n) :
    Tiles api (s.cut n) p where
  tokens_eq := by
    change s.tokens.take n = _
    rw [h.tokens_eq, flat_append, List.take_left' hn]
  media_eq := by
    change s.mapIdxToMedia.filter _ = _
    rw [h.media_eq]
    exact keysFrom_filter_lt hn (fun item hm => h.valid item (List.mem_append_left _ hm)) r
  valid := fun item hm => h.valid item (List.mem_append_left _ hm)
  admitted := h.admitted.imp_left fun hnil => by
    change s.mapIdxToMedia.filter _ = []
    rw [hnil, List.filter_nil]

theorem Tiles.cut_length (h : Tiles api s items) : s.cut s.tokens.length = s := by
  have hkeys : s.mapIdxToMedia.filter (fun m => m.1 < s.tokens.length) = s.mapIdxToMedia :=
    List.filter_eq_self.mpr fun m hm => decide_eq_true (h.key_lt hm)
  unfold ServerTokens.cut
  rw [hkeys, List.take_length]

theorem Tiles.keepFirst (h : Tiles api s (p ++ r)) {n : ℕ} (hn : (flat api p).length = n) :
    keepFirst n s = .ok () (s.cut n) := by
  have hle : ¬ s.tokens.length < n := by
    rw [h.tokens_eq, flat_append, List.length_append]
    omega
  unfold ServerTokens.keepFirst
  rw [if_neg hle]
  by_cases hmtmd : s.hasMtmd
  · rw [if_pos hmtmd]
    split_ifs with hlen
    · rw [hlen, h.cut_length]
    · rw [h.checkCut hn]
      rfl
  · rw [if_neg hmtmd]
    have hnil := h.admitted.resolve_right hmtmd
    unfold ServerTokens.cut
    rw [hnil, List.filter_nil, ← hnil]

theorem Tiles.keepFirst_inside {chunk : C} (h : Tiles api s (p ++ .media chunk :: r)) {n : ℕ}
    (hlo : (flat api p).length < n) (hhi : n < (flat api p).length + api.getNTokens chunk) :
    ServerTokens.keepFirst n s = .error .chunkNotFound s := by
  have hlen : n < s.tokens.length := by
    rw [h.tokens_eq, flat_append, flat_media, List.length_append, List.length_append,
      List.length_replicate]
    omega
  have hmtmd : s.hasMtmd := by
    refine h.admitted.resolve_left fun hnil => ?_
    obtain ⟨m, hm, -⟩ := h.inside hlo hhi
    rw [hnil] at hm
    exact absurd hm List.not_mem_nil
  have hprev : s.tokens[n - 1]? = some llamaTokenNull := by
    rw [h.tokens_eq]
    exact getElem?_media (i := n - 1 - (flat api p).length) (by omega) (by omega) r
  have hnext : s.tokens[n]? = some llamaTokenNull := by
    rw [h.tokens_eq]
    exact getElem?_media (i := n - (flat api p).length) (by omega) (by omega) r
  have hnone : s.mapIdxToMedia.lookup n = none := by
    refine List.lookup_eq_none_iff.mpr fun m hm => ?_
    rw [h.media_eq, keysFrom_append, Nat.zero_add, List.mem_append, keysFrom, List.mem_cons] at hm
    simp only [bne_iff_ne]
    rcases hm with hm | rfl | hm
    · have hle := add_le_of_mem_keysFrom hm
      omega
    · exact Nat.ne_of_gt hlo
    · have hle := le_of_mem_keysFrom hm
      omega
  unfold ServerTokens.keepFirst ServerTokens.checkCut ServerTokens.findChunk
  rw [if_neg (Nat.lt_asymm hlen), if_pos hmtmd, if_neg (Nat.ne_of_lt hlen),
    if_pos ⟨Nat.zero_lt_of_lt hlo, hprev, hnext⟩, hnone]
  rfl

theorem keepFirst_cases (hs : WellFormed api s) {n : ℕ} (hn : n ≤ s.tokens.length) :
    Inside api s n ∧ ServerTokens.keepFirst n s = .error .chunkNotFound s ∨
    ¬ Inside api s n ∧ ServerTokens.keepFirst n s = .ok () (s.cut n) ∧ WellFormed api (s.cut n) := by
  obtain ⟨items, h⟩ := hs
  obtain ⟨p, r, rfl, hlen⟩ | ⟨p, chunk, r, rfl, hlo, hhi⟩ := cut_cases items (h.tokens_eq ▸ hn)
  · exact .inr ⟨h.not_inside hlen, h.keepFirst hlen, p, h.cut hlen⟩
  · exact .inl ⟨h.inside hlo hhi, h.keepFirst_inside hlo hhi⟩

end ServerTokens
end RocmFpx
