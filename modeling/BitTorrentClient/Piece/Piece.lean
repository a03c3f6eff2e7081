import Mathlib.Algebra.BigOperators.Group.List
import BitTorrentClient.Basic

/-!
# One piece and its blocks

`piece.Piece` of `internal/piece/manager.go`: a piece cut by `NewPiece` into 16 KiB blocks, the
payload slot of each block, and the pending-request map.

A block's place in the piece (its index, offset and length) is fixed by `NewPiece` and no
operation changes it; only payloads and request timestamps move.  That is `Piece.layout`, and
every operation here comes with the lemma that keeps it.  The other fact the store needs is that
a payload always has its block's length (`Piece.Sized`): `SetBlockData` checks it, so
`getData_length` gives the length of an assembled piece as the sum of its blocks.

`newBlocks_length_sum` is the block-partition arithmetic of `NewPiece`: the blocks of a piece of
length `L` add up to `L`.
-/

namespace BitTorrent

/-- `BlockSize`: the standard block size for piece requests (16KB). -/
def BlockSize : Nat := 16384

/-- `PieceState`.  `requested` is declared by the source and never assigned by it. -/
inductive PieceState where
  | missing
  | requested
  | downloaded
  | verified
  deriving DecidableEq, Repr

/-- `Block`: a block of a piece.  `data = none` is the `nil` slice of a block not yet
downloaded; `requestedAt = none` is the zero `time.Time`. -/
structure Block where
  index : Nat
  begin : Nat
  length : Nat
  data : Option Bytes
  requestedAt : Option Nat
  deriving DecidableEq, Repr

/-- `Request`: a pending block request. -/
structure Request where
  block : Block
  peerID : Bytes
  timestamp : Nat
  deriving DecidableEq, Repr

/-- The key of `Piece.Requests`, `fmt.Sprintf("%s-%d-%d", peerID, begin, length)`.  For
non-negative offsets and lengths the formatted string determines the triple (read it from the
right), so the triple is the key. -/
structure RequestKey where
  peerID : Bytes
  begin : Nat
  length : Nat
  deriving DecidableEq, Repr

/-- `Piece`.  The `Hash` field is never read by the source and is left out; the `Requests` map
is an association list with at most one entry per key. -/
structure Piece where
  index : Nat
  length : Nat
  state : PieceState
  blocks : List Block
  requests : List (RequestKey × Request)
  deriving DecidableEq, Repr

/-- The block loop of `NewPiece`: block `i` starts at `i * BlockSize`, and the last one is
shortened to what remains of the piece. -/
def newBlocks (index length : Nat) : List Block :=
  let numBlocks := (length + BlockSize - 1) / BlockSize
  (List.range numBlocks).map fun i =>
    let remaining := length - i * BlockSize
    let blockLength :=
      if i = numBlocks - 1 then (if remaining < BlockSize then remaining else BlockSize)
      else BlockSize
    { index := index, begin := i * BlockSize, length := blockLength, data := none,
      requestedAt := none }

/-- `NewPiece`. -/
def newPiece (index length : Nat) : Piece :=
  { index := index, length := length, state := .missing, blocks := newBlocks index length,
    requests := [] }

/-- `Piece.IsComplete`: every block holds a payload. -/
def Piece.isComplete (p : Piece) : Bool := p.blocks.all fun b => b.data.isSome

/-- `Piece.GetMissingBlocks`. -/
def Piece.getMissingBlocks (p : Piece) : List Block := p.blocks.filter fun b => b.data.isNone

/-- `Piece.AddRequest`: `p.Requests[key] = Request{...}`, replacing an entry of the same key. -/
def Piece.addRequest (p : Piece) (peerID : Bytes) (block : Block) (now : Nat) : Piece :=
  let key : RequestKey := ⟨peerID, block.begin, block.length⟩
  { p with requests := (key, ⟨block, peerID, now⟩) :: p.requests.filter (·.1 ≠ key) }

/-- `Piece.RemoveRequest`: `delete(p.Requests, key)`. -/
def Piece.removeRequest (p : Piece) (peerID : Bytes) (begin length : Nat) : Piece :=
  { p with requests := p.requests.filter (·.1 ≠ ⟨peerID, begin, length⟩) }

/-- The loop of `SetBlockData`: the first block starting at `begin` takes a copy of `data`,
provided the length matches. -/
def storeBlock (begin : Nat) (data : Bytes) : List Block → Except String (List Block)
  | [] => .error s!"block with begin offset {begin} not found"
  | b :: bs =>
      if b.begin = begin then
        if data.length ≠ b.length then
          .error s!"block data length mismatch: got {data.length}, expected {b.length}"
        else .ok ({ b with data := some data } :: bs)
      else (b :: ·) <$> storeBlock begin data bs

/-- `Piece.SetBlockData`: store the payload and drop every pending request for that offset. -/
def Piece.setBlockData (p : Piece) (begin : Nat) (data : Bytes) : Except String Piece := do
  let blocks ← storeBlock begin data p.blocks
  return { p with blocks := blocks, requests := p.requests.filter (·.2.block.begin ≠ begin) }

/-- `Piece.GetData`: the payloads in block order, once every block has one. -/
def Piece.getData (p : Piece) : Except String Bytes :=
  if !p.isComplete then .error s!"piece {p.index} is not complete"
  else .ok (p.blocks.map fun b => b.data.getD []).flatten

/-- The reset of `verifyAndStorePiece` after a failed hash check: state `Missing`, every
payload cleared. -/
def Piece.reset (p : Piece) : Piece :=
  { p with state := .missing, blocks := p.blocks.map fun b => { b with data := none } }

/-- The block loop of `Manager.RequestBlock`: the first block at `(begin, length)` is stamped. -/
def stampBlock (begin length now : Nat) : List Block → List Block
  | [] => []
  | b :: bs =>
      if b.begin = begin ∧ b.length = length then { b with requestedAt := some now } :: bs
      else b :: stampBlock begin length now bs

/-! ## The layout of a piece -/

/-- Where each block sits: what `NewPiece` fixed and no operation moves. -/
def Piece.layout (p : Piece) : List (Nat × Nat × Nat) :=
  p.blocks.map fun b => (b.index, b.begin, b.length)

/-- Every payload has its block's length. -/
def Piece.Sized (p : Piece) : Prop := ∀ b ∈ p.blocks, ∀ d ∈ b.data, d.length = b.length

lemma storeBlock_ok {begin : Nat} {data : Bytes} :
    ∀ {bs bs' : List Block}, storeBlock begin data bs = .ok bs' →
      bs'.map (fun b => (b.index, b.begin, b.length)) = bs.map (fun b => (b.index, b.begin, b.length)) ∧
      ∀ b ∈ bs', b ∈ bs ∨ (b.data = some data ∧ data.length = b.length)
  | [], _, h => by simp [storeBlock] at h
  | b :: bs, bs', h => by
      unfold storeBlock at h
      split at h
      · split at h
        · cases h
        · cases h
          refine ⟨by simp, fun c hc => ?_⟩
          rcases List.mem_cons.1 hc with rfl | hc
          · exact .inr ⟨rfl, by simp only; omega⟩
          · exact .inl (List.mem_cons_of_mem _ hc)
      · cases hr : storeBlock begin data bs with
        | error e => simp [hr] at h
        | ok r =>
          simp only [hr, Functor.map, Except.map, Except.ok.injEq] at h
          cases h
          obtain ⟨hl, hm⟩ := storeBlock_ok hr
          refine ⟨by simp [hl], fun c hc => ?_⟩
          rcases List.mem_cons.1 hc with rfl | hc
          · exact .inl (List.mem_cons_self _ _)
          · exact (hm c hc).imp_left (List.mem_cons_of_mem _)

theorem Piece.setBlockData_ok {p p' : Piece} {begin : Nat} {data : Bytes}
    (h : p.setBlockData begin data = .ok p') :
    p'.layout = p.layout ∧ p'.index = p.index ∧ p'.length = p.length ∧ p'.state = p.state ∧
      (p.Sized → p'.Sized) := by
  unfold Piece.setBlockData at h
  cases hs : storeBlock begin data p.blocks with
  | error e => simp [hs] at h
  | ok bs =>
    simp only [hs, bind, Except.bind, pure, Except.pure, Except.ok.injEq] at h
    cases h
    obtain ⟨hl, hm⟩ := storeBlock_ok hs
    refine ⟨hl, rfl, rfl, rfl, fun hp b hb d hd => ?_⟩
    rcases hm b hb with hb | ⟨hbd, hlen⟩
    · exact hp b hb d hd
    · rw [hbd, Option.mem_some_iff] at hd
      exact hd ▸ hlen

@[simp] lemma Piece.reset_layout (p : Piece) : p.reset.layout = p.layout := by
  simp [Piece.reset, Piece.layout, Function.comp_def]

lemma Piece.reset_sized (p : Piece) : p.reset.Sized := by
  simp [Piece.Sized, Piece.reset]

lemma stampBlock_layout (begin length now : Nat) :
    ∀ bs : List Block, (stampBlock begin length now bs).map (fun b => (b.index, b.begin, b.length))
      = bs.map (fun b => (b.index, b.begin, b.length))
  | [] => rfl
  | b :: bs => by
      unfold stampBlock
      split <;> simp [stampBlock_layout begin length now bs]

lemma stampBlock_data (begin length now : Nat) :
    ∀ bs : List Block, (stampBlock begin length now bs).map (·.data) = bs.map (·.data)
  | [] => rfl
  | b :: bs => by
      unfold stampBlock
      split <;> simp [stampBlock_data begin length now bs]

lemma stampBlock_sized (begin length now : Nat) :
    ∀ bs : List Block, (∀ b ∈ bs, ∀ d ∈ b.data, d.length = b.length) →
      ∀ b ∈ stampBlock begin length now bs, ∀ d ∈ b.data, d.length = b.length
  | [], _ => by simp [stampBlock]
  | b :: bs, h => by
      unfold stampBlock
      split
      · simpa using h
      · simp only [List.mem_cons, forall_eq_or_imp] at h ⊢
        exact ⟨h.1, stampBlock_sized begin length now bs h.2⟩

/-- **An assembled piece has the length of its blocks.**  When every payload is present and
sized, `GetData` returns their concatenation, of length the sum of the block lengths. -/
theorem Piece.getData_length {p : Piece} {d : Bytes} (hs : p.Sized) (h : p.getData = .ok d) :
    d.length = (p.blocks.map (·.length)).sum := by
  unfold Piece.getData at h
  split at h
  · cases h
  · cases h
    rename_i hc
    simp only [Bool.not_eq_true', Bool.not_eq_false, Piece.isComplete, List.all_eq_true,
      Option.isSome_iff_exists] at hc
    simp only [List.length_flatten, List.map_map]
    congr 1
    apply List.map_congr_left
    intro b hb
    obtain ⟨x, hx⟩ := hc b hb
    simp [hx, hs b hb x (by simp [hx])]

/-! ## The block partition of `NewPiece` -/

@[simp] lemma newPiece_layout_length (index length : Nat) :
    (newPiece index length).layout.length = (length + BlockSize - 1) / BlockSize := by
  simp [newPiece, Piece.layout, newBlocks]

lemma sum_map_range_const (f : Nat → Nat) (c : Nat) :
    ∀ m, (∀ i < m, f i = c) → ((List.range m).map f).sum = m * c
  | 0, _ => by simp
  | m + 1, h => by
      rw [List.range_succ, List.map_append, List.sum_append,
        sum_map_range_const f c m fun i hi => h i (by omega)]
      simp [h m (by omega), Nat.succ_mul]

/-- **The blocks of `NewPiece` partition the piece**: their lengths add up to the piece
length. -/
theorem newBlocks_length_sum (index length : Nat) :
    ((newBlocks index length).map (·.length)).sum = length := by
  unfold newBlocks
  simp only [List.map_map]
  generalize hn : (length + BlockSize - 1) / BlockSize = n
  have hBS : BlockSize = 16384 := rfl
  match n, hn with
  | 0, hn => rw [hBS] at hn; simp; omega
  | m + 1, hn =>
    rw [List.range_succ, List.map_append, List.sum_append,
      sum_map_range_const _ BlockSize m fun i hi => by simp [show i ≠ m by omega]]
    simp only [Function.comp_apply, List.map_cons, List.map_nil, List.sum_cons,
      List.sum_nil, Nat.add_sub_cancel, if_true]
    rw [hBS] at hn ⊢
    split <;> omega

/-! ## Sequences of `SetBlockData` calls

`setBlockData_sequence` is the contract of a piece under any sequence of `SetBlockData` calls:
a call succeeds exactly on the offset of one of the `⌈L / BlockSize⌉` blocks with the data of
that block's length; a failing call changes nothing; the piece is complete once every block was
accepted, and `GetData` then assembles the last accepted payload of each block in place.  The
proof puts the piece after any calls in closed form (`setBlocks_newPiece`): `NewPiece` with the
last accepted payload of each block. -/

/-- Block `k` of `NewPiece(index, length)`: at `k * BlockSize`, with what remains of the piece,
at most `BlockSize`. -/
def blockAt (index length k : Nat) : Block :=
  { index := index, begin := k * BlockSize, length := min BlockSize (length - k * BlockSize),
    data := none, requestedAt := none }

/-- A caller's sequence of `SetBlockData(begin, data)` calls on one piece.  A call that fails
returns before it writes anything, so the piece is then the one before the call. -/
def Piece.setBlocks (p : Piece) (calls : List (Nat × Bytes)) : Piece :=
  calls.foldl (fun p c => (p.setBlockData c.1 c.2).toOption.getD p) p

/-- The calls the block arithmetic accepts on a piece of length `L`: `begin` is the offset of one
of its `⌈L / BlockSize⌉` blocks, and `data` has that block's length. -/
def BlockCall (L begin : Nat) (data : Bytes) : Prop :=
  ∃ k < (L + BlockSize - 1) / BlockSize, begin = k * BlockSize ∧ data.length = min BlockSize (L - begin)

instance (L begin : Nat) (data : Bytes) : Decidable (BlockCall L begin data) :=
  inferInstanceAs (Decidable (∃ k < _, _))

/-- The payload of the last call of `calls` accepted at offset `begin`. -/
def lastAccepted (L : Nat) (calls : List (Nat × Bytes)) (begin : Nat) : Option Bytes :=
  (calls.reverse.find? fun c => c.1 = begin ∧ BlockCall L c.1 c.2).map (·.2)

/-- `NewPiece(index, L)` with the payload `f begin` in its block at `begin`. -/
def filledPiece (index L : Nat) (f : Nat → Option Bytes) : Piece :=
  { newPiece index L with blocks := (newBlocks index L).map fun b => { b with data := f b.begin } }

lemma newBlocks_eq (index length : Nat) :
    newBlocks index length =
      (List.range ((length + BlockSize - 1) / BlockSize)).map (blockAt index length) := by
  unfold newBlocks
  refine List.map_congr_left fun k hk => ?_
  have hBS : BlockSize = 16384 := rfl
  simp only [List.mem_range, hBS] at hk
  simp only [blockAt, Block.mk.injEq, true_and, and_true, hBS]
  split_ifs <;> omega

lemma newBlocks_begin_nodup (index length : Nat) :
    ((newBlocks index length).map (·.begin)).Nodup := by
  rw [newBlocks_eq, List.map_map]
  exact (List.nodup_range _).map fun a b h => Nat.eq_of_mul_eq_mul_right (by decide) h

/-- The block `SetBlockData` looks for exists, with the data's length, exactly on the calls the
block arithmetic accepts. -/
lemma exists_newBlock_iff (index L begin : Nat) (data : Bytes) :
    (∃ b ∈ newBlocks index L, b.begin = begin ∧ data.length = b.length) ↔ BlockCall L begin data := by
  simp only [newBlocks_eq, List.mem_map, List.mem_range, BlockCall]
  constructor
  · rintro ⟨_, ⟨k, hk, rfl⟩, rfl, hlen⟩
    exact ⟨k, hk, rfl, hlen⟩
  · rintro ⟨k, hk, rfl, hlen⟩
    exact ⟨_, ⟨k, hk, rfl⟩, rfl, hlen⟩

/-- `SetBlockData`'s loop on blocks with distinct offsets stores the payload in the one block at
`begin`. -/
lemma storeBlock_fill {begin : Nat} {data : Bytes} {f g : Nat → Option Bytes}
    (hg : g begin = some data) (hfg : ∀ x, x ≠ begin → g x = f x) :
    ∀ {bs : List Block}, (bs.map (·.begin)).Nodup → ∀ b ∈ bs, b.begin = begin → data.length = b.length →
      storeBlock begin data (bs.map fun b => { b with data := f b.begin }) =
        .ok (bs.map fun b => { b with data := g b.begin })
  | [], _, b, hb, _, _ => absurd hb (List.not_mem_nil b)
  | c :: cs, hnd, b, hb, hbeg, hlen => by
    simp only [List.map_cons, List.nodup_cons, List.mem_map, not_exists, not_and] at hnd
    have hrest : ∀ x ∈ cs, x.begin ≠ c.begin := fun x hx he => hnd.1 x hx he
    simp only [List.map_cons, storeBlock]
    by_cases hc : c.begin = begin
    · have hbc : b = c := by
        rcases List.mem_cons.mp hb with rfl | hb
        · rfl
        · exact absurd (hbeg.trans hc.symm) (hrest b hb)
      subst hbc
      rw [if_pos hc, if_neg (by omega), hc, hg]
      congr 2
      exact (List.map_congr_left fun x hx => by rw [hfg _ (hc ▸ hrest x hx)]).symm
    · have hb' : b ∈ cs := (List.mem_cons.mp hb).resolve_left fun h => hc (h ▸ hbeg)
      rw [if_neg hc, storeBlock_fill hg hfg hnd.2 b hb' hbeg hlen, hfg _ hc]
      rfl

/-- A call `SetBlockData`'s loop accepts found a block at `begin` of the data's length. -/
lemma storeBlock_isOk {begin : Nat} {data : Bytes} :
    ∀ {bs : List Block}, (storeBlock begin data bs).isOk = true →
      ∃ b ∈ bs, b.begin = begin ∧ data.length = b.length
  | [], h => by simp [storeBlock, Except.isOk, Except.toBool] at h
  | c :: cs, h => by
    unfold storeBlock at h
    split_ifs at h with hc hlen
    · simp [Except.isOk, Except.toBool] at h
    · exact ⟨c, List.mem_cons_self _ _, hc, by omega⟩
    · cases hr : storeBlock begin data cs with
      | error e => simp [hr, Except.isOk, Except.toBool, Functor.map, Except.map] at h
      | ok r =>
        obtain ⟨b, hb, hbeg, hlen⟩ :=
          @storeBlock_isOk begin data cs (by simp [hr, Except.isOk, Except.toBool])
        exact ⟨b, List.mem_cons_of_mem _ hb, hbeg, hlen⟩

lemma newPiece_eq_filled (index L : Nat) : newPiece index L = filledPiece index L fun _ => none := by
  simp only [filledPiece, newPiece, Piece.mk.injEq, true_and, and_true]
  rw [newBlocks_eq, List.map_map]
  exact List.map_congr_left fun _ _ => rfl

lemma Piece.setBlockData_isOk (p : Piece) (begin : Nat) (data : Bytes) :
    (p.setBlockData begin data).isOk = (storeBlock begin data p.blocks).isOk := by
  unfold Piece.setBlockData
  cases storeBlock begin data p.blocks <;> rfl

/-- One call on a filled piece: accepted exactly by the block arithmetic, and then the payload
takes the block's slot. -/
lemma filledPiece_setBlockData (index L begin : Nat) (data : Bytes) (f g : Nat → Option Bytes)
    (hg : g begin = some data) (hfg : ∀ x, x ≠ begin → g x = f x) :
    (((filledPiece index L f).setBlockData begin data).isOk = true ↔ BlockCall L begin data) ∧
      (BlockCall L begin data →
        (filledPiece index L f).setBlockData begin data = .ok (filledPiece index L g)) := by
  have hok : BlockCall L begin data →
      (filledPiece index L f).setBlockData begin data = .ok (filledPiece index L g) := fun h => by
    obtain ⟨b, hb, hbeg, hlen⟩ := (exists_newBlock_iff index L begin data).mpr h
    simp only [Piece.setBlockData, filledPiece,
      storeBlock_fill hg hfg (newBlocks_begin_nodup index L) b hb hbeg hlen]
    rfl
  refine ⟨⟨fun h => ?_, fun h => by rw [hok h]; rfl⟩, hok⟩
  rw [Piece.setBlockData_isOk] at h
  obtain ⟨_, hmem, hbeg, hlen⟩ := storeBlock_isOk h
  obtain ⟨b, hb, rfl⟩ := List.mem_map.mp hmem
  exact (exists_newBlock_iff index L begin data).mp ⟨b, hb, hbeg, hlen⟩

/-- A call that fails leaves the piece as it was. -/
lemma Piece.getD_setBlockData {p : Piece} {begin : Nat} {data : Bytes}
    (h : ¬(p.setBlockData begin data).isOk = true) : (p.setBlockData begin data).toOption.getD p = p := by
  cases hs : p.setBlockData begin data with
  | ok p' => rw [hs] at h; exact absurd rfl h
  | error e => rfl

lemma Piece.setBlocks_snoc (p : Piece) (calls : List (Nat × Bytes)) (c : Nat × Bytes) :
    p.setBlocks (calls ++ [c]) =
      ((p.setBlocks calls).setBlockData c.1 c.2).toOption.getD (p.setBlocks calls) := by
  simp [Piece.setBlocks, List.foldl_append]

lemma lastAccepted_append (L : Nat) (calls : List (Nat × Bytes)) (c : Nat × Bytes) (begin : Nat) :
    lastAccepted L (calls ++ [c]) begin =
      if c.1 = begin ∧ BlockCall L c.1 c.2 then some c.2 else lastAccepted L calls begin := by
  unfold lastAccepted
  rw [List.reverse_append, List.reverse_singleton, List.singleton_append, List.find?_cons]
  by_cases h : c.1 = begin ∧ BlockCall L c.1 c.2
  · rw [decide_eq_true h, if_pos h]; rfl
  · rw [decide_eq_false h, if_neg h]

lemma lastAccepted_isSome (L : Nat) (calls : List (Nat × Bytes)) (begin : Nat) :
    (lastAccepted L calls begin).isSome ↔ ∃ data, (begin, data) ∈ calls ∧ BlockCall L begin data := by
  simp only [lastAccepted, Option.isSome_map', List.find?_isSome, List.mem_reverse, decide_eq_true_eq]
  constructor
  · rintro ⟨⟨b, data⟩, hc, rfl, hb⟩
    exact ⟨data, hc, hb⟩
  · rintro ⟨data, hc, hb⟩
    exact ⟨_, hc, rfl, hb⟩

lemma lastAccepted_length {L : Nat} {calls : List (Nat × Bytes)} {begin : Nat} {data : Bytes}
    (h : lastAccepted L calls begin = some data) : data.length = min BlockSize (L - begin) := by
  obtain ⟨c, hc, rfl⟩ := Option.map_eq_some'.mp h
  have hp := List.find?_some hc
  simp only [decide_eq_true_eq] at hp
  obtain ⟨rfl, -, -, -, hlen⟩ := hp
  exact hlen

/-- **The piece after any calls**: `NewPiece` with the last accepted payload in each block. -/
theorem setBlocks_newPiece (index L : Nat) (calls : List (Nat × Bytes)) :
    (newPiece index L).setBlocks calls = filledPiece index L (lastAccepted L calls) := by
  induction calls using List.reverseRecOn with
  | nil => exact newPiece_eq_filled index L
  | append_singleton calls c ih =>
    let g x := if x = c.1 then some c.2 else lastAccepted L calls x
    have step := filledPiece_setBlockData index L c.1 c.2 _ g (if_pos rfl) fun x hx => if_neg hx
    rw [Piece.setBlocks_snoc, ih]
    by_cases hc : BlockCall L c.1 c.2
    · have hlast : lastAccepted L (calls ++ [c]) = g := funext fun x => by
        rw [lastAccepted_append]
        by_cases hx : x = c.1
        · subst hx; simp [g, hc]
        · simp [g, hx, Ne.symm hx]
      rw [step.2 hc, hlast]; rfl
    · have hlast : lastAccepted L (calls ++ [c]) = lastAccepted L calls := funext fun x => by
        rw [lastAccepted_append, if_neg fun h => hc h.2]
      rw [hlast]
      exact Piece.getD_setBlockData (mt step.1.mp hc)

lemma filledPiece_isComplete (index L : Nat) (f : Nat → Option Bytes) :
    (filledPiece index L f).isComplete = true ↔
      ∀ k < (L + BlockSize - 1) / BlockSize, (f (k * BlockSize)).isSome := by
  simp only [Piece.isComplete, filledPiece, newPiece, newBlocks_eq, List.map_map, List.all_map,
    List.all_eq_true, List.forall_mem_map, List.mem_range, Function.comp_def, blockAt]

lemma filledPiece_getData (index L : Nat) (f : Nat → Option Bytes)
    (hc : (filledPiece index L f).isComplete = true) :
    (filledPiece index L f).getData =
      .ok ((List.range ((L + BlockSize - 1) / BlockSize)).map fun k => (f (k * BlockSize)).getD []).flatten := by
  rw [Piece.getData, if_neg (by simp [hc])]
  simp only [filledPiece, newPiece, newBlocks_eq, List.map_map]
  rfl

/-- The slice of a concatenation at the sum of the lengths before the `k`-th part is that part. -/
lemma take_drop_flatten {α : Type} (Ls : List (List α)) {k : Nat} (hk : k < Ls.length) :
    (Ls.flatten.drop ((Ls.map List.length).take k).sum).take Ls[k].length = Ls[k] := by
  rw [List.drop_sum_flatten, List.drop_eq_getElem_cons hk, List.flatten_cons, List.take_left' rfl]

/-- A complete filled piece whose payloads have their blocks' lengths: `GetData` returns `L`
bytes, and each block's slice of them is its payload. -/
lemma filledPiece_data (index L : Nat) (f : Nat → Option Bytes)
    (hlen : ∀ begin data, f begin = some data → data.length = min BlockSize (L - begin))
    (hc : (filledPiece index L f).isComplete = true) :
    ∃ d, (filledPiece index L f).getData = .ok d ∧ d.length = L ∧
      ∀ k < (L + BlockSize - 1) / BlockSize, ∀ data, f (k * BlockSize) = some data →
        (d.drop (k * BlockSize)).take (min BlockSize (L - k * BlockSize)) = data := by
  have hsome := (filledPiece_isComplete index L _).mp hc
  set n := (L + BlockSize - 1) / BlockSize with hn
  set Ls := (List.range n).map fun k => (f (k * BlockSize)).getD []
  have hlens : Ls.map List.length = (List.range n).map fun k => min BlockSize (L - k * BlockSize) := by
    rw [List.map_map]
    refine List.map_congr_left fun k hk => ?_
    obtain ⟨x, hx⟩ := Option.isSome_iff_exists.mp (hsome k (List.mem_range.mp hk))
    simp [hx, hlen _ _ hx]
  refine ⟨_, filledPiece_getData index L _ hc, ?_, fun k hk data hd => ?_⟩
  · have hsum := newBlocks_length_sum index L
    rw [newBlocks_eq, List.map_map] at hsum
    rw [List.length_flatten, hlens]
    exact hsum
  · have hk' : k < Ls.length := by simp [Ls, hk]
    have hLk : Ls[k] = data := by simp [Ls, hd]
    have hpre : ((Ls.map List.length).take k).sum = k * BlockSize := by
      rw [hlens, ← List.map_take, List.take_range, min_eq_left hk.le]
      refine sum_map_range_const _ BlockSize k fun j hj => ?_
      have hBS : BlockSize = 16384 := rfl
      rw [hBS] at hn ⊢
      omega
    have := take_drop_flatten Ls hk'
    rwa [hpre, hLk, hlen _ _ hd] at this

/-- **`SetBlockData` on a fresh piece, under any sequence of calls.**  A call succeeds exactly
when `begin` is the offset `k * BlockSize` of one of the `⌈L / BlockSize⌉` blocks and the data
has that block's length `min BlockSize (L - begin)`; a failing call leaves the piece as it was.
The piece is complete exactly when every block's offset has seen an accepted call, and then
`GetData` returns `L` bytes in which each block's bytes are the payload of the last call
accepted at its offset. -/
theorem setBlockData_sequence (index L : Nat) (calls : List (Nat × Bytes)) :
    let p := (newPiece index L).setBlocks calls
    (∀ begin data, (p.setBlockData begin data).isOk = true ↔ BlockCall L begin data) ∧
    (∀ begin data, ¬BlockCall L begin data →
      (newPiece index L).setBlocks (calls ++ [(begin, data)]) = p) ∧
    (p.isComplete = true ↔ ∀ k < (L + BlockSize - 1) / BlockSize,
      ∃ data, (k * BlockSize, data) ∈ calls ∧ BlockCall L (k * BlockSize) data) ∧
    (p.isComplete = true → ∃ d, p.getData = .ok d ∧ d.length = L ∧
      ∀ k < (L + BlockSize - 1) / BlockSize, ∀ data, lastAccepted L calls (k * BlockSize) = some data →
        (d.drop (k * BlockSize)).take (min BlockSize (L - k * BlockSize)) = data) := by
  intro p
  have hp : p = filledPiece index L (lastAccepted L calls) := setBlocks_newPiece index L calls
  have hok : ∀ begin data, (p.setBlockData begin data).isOk = true ↔ BlockCall L begin data :=
    fun begin data => hp ▸ (filledPiece_setBlockData index L begin data _
      (fun x => if x = begin then some data else lastAccepted L calls x) (if_pos rfl)
      fun x hx => if_neg hx).1
  refine ⟨hok, fun begin data hc => ?_, ?_, fun hc => ?_⟩
  · rw [Piece.setBlocks_snoc]
    exact Piece.getD_setBlockData (mt (hok begin data).mp hc)
  · rw [hp, filledPiece_isComplete]
    exact forall₂_congr fun k _ => lastAccepted_isSome L calls _
  · rw [hp] at hc ⊢
    exact filledPiece_data index L _ (fun _ _ => lastAccepted_length) hc

end BitTorrent
