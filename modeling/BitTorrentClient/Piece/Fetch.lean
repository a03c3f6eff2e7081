import BitTorrentClient.Piece.Invariants

/-!
# Fetching a piece's missing blocks

`Manager.GetNextBlocks(i, maxBlocks)` hands out the first `maxBlocks` blocks of piece `i` that
hold no payload.  The download simulation (`cmd/download-simulation`) feeds each of them back
through `Manager.AddBlockData` with a payload of the block's length (`blockData`), skipping a
call that fails.

* `Piece.Shaped.setBlockData_first` — `SetBlockData` on the first missing block stores the
  payload in that block, so the missing list loses exactly its head.
* `addBlockData_first` — the same call through the manager: it succeeds, and launches a
  verification exactly when that block was the last one missing (`Fetched` collects what the
  call leaves).
* **`fetchBlocks_getNextBlocks`** — from any manager of the shape every run keeps, the whole
  loop over `GetNextBlocks(i, maxBlocks)`: no call fails, the missing blocks of piece `i`
  become those past the first `maxBlocks`, and the piece enters `Downloaded` with exactly one
  verification launched when the batch held every missing block, none otherwise.  The
  bitfield and every other piece are left as they were, and the byte counter grows by the
  lengths of the blocks handed out.
-/

namespace BitTorrent

/-! ## The first missing block -/

/-- `Piece.IsComplete` is an empty `GetMissingBlocks`. -/
lemma Piece.isComplete_eq (p : Piece) : p.isComplete = p.getMissingBlocks.isEmpty := by
  rw [Bool.eq_iff_iff, List.isEmpty_eq_true, Piece.isComplete, Piece.getMissingBlocks,
    List.all_eq_true, List.filter_eq_nil_iff]
  simp [Option.isSome_iff_ne_none]

/-- The loop of `SetBlockData` on the first block with no payload, among blocks at distinct
offsets: that block takes the payload, so the missing list loses exactly its head. -/
lemma storeBlock_first_missing {b : Block} {rest : List Block} {data : Bytes}
    (hlen : data.length = b.length) :
    ∀ {bs : List Block}, (bs.map (·.begin)).Nodup → bs.filter (·.data.isNone) = b :: rest →
      ∃ bs', storeBlock b.begin data bs = .ok bs' ∧ bs'.filter (·.data.isNone) = rest
  | [], _, h => by simp at h
  | c :: cs, hnd, h => by
    rw [List.map_cons, List.nodup_cons] at hnd
    by_cases hc : c.data.isNone
    · rw [List.filter_cons_of_pos (p := fun x : Block => x.data.isNone) hc, List.cons.injEq] at h
      obtain ⟨rfl, rfl⟩ := h
      exact ⟨{ c with data := some data } :: cs, by simp [storeBlock, hlen], by simp [List.filter_cons]⟩
    · rw [List.filter_cons_of_neg (p := fun x : Block => x.data.isNone) hc] at h
      have hb : b ∈ cs := List.mem_of_mem_filter (h ▸ List.mem_cons_self _ _)
      have hne : c.begin ≠ b.begin := fun he => hnd.1 (he ▸ List.mem_map_of_mem _ hb)
      obtain ⟨bs', hs, hf⟩ := storeBlock_first_missing hlen hnd.2 h
      refine ⟨c :: bs', ?_, by rw [List.filter_cons_of_neg (p := fun x : Block => x.data.isNone) hc, hf]⟩
      simp only [storeBlock, hne, if_false, hs]
      rfl

namespace Piece.Shaped

variable {i L : Nat} {p : Piece}

/-- The blocks of a shaped piece start at distinct offsets. -/
lemma begin_nodup (h : p.Shaped i L) : (p.blocks.map (·.begin)).Nodup := by
  have hb : p.blocks.map (·.begin) = (newBlocks i L).map (·.begin) := by
    simpa [Piece.layout, BitTorrent.newPiece] using congrArg (List.map fun x => x.2.1) h.layout
  exact hb ▸ newBlocks_begin_nodup i L

/-- **`SetBlockData` on the first missing block** of a shaped piece, with a payload of the
block's length: it succeeds, and the missing list loses exactly that block. -/
lemma setBlockData_first (h : p.Shaped i L) {b : Block} {rest : List Block} {data : Bytes}
    (hm : p.getMissingBlocks = b :: rest) (hlen : data.length = b.length) :
    ∃ p', p.setBlockData b.begin data = .ok p' ∧ p'.getMissingBlocks = rest ∧ p'.state = p.state := by
  obtain ⟨bs', hs, hf⟩ := storeBlock_first_missing hlen h.begin_nodup hm
  refine ⟨{ p with blocks := bs', requests := p.requests.filter (·.2.block.begin ≠ b.begin) }, ?_,
    hf, rfl⟩
  rw [Piece.setBlockData, hs]
  rfl

end Piece.Shaped

namespace PieceManager

/-- `Manager.GetNextBlocks`: the first `maxBlocks` missing blocks of piece `pieceIndex`, and none
for an index out of range. -/
def getNextBlocks (m : PieceManager) (pieceIndex maxBlocks : Nat) : List Block :=
  match m.pieces[pieceIndex]? with
  | none => []
  | some p => p.getMissingBlocks.take maxBlocks

/-- The payload the download simulation makes up for a block:
`blockData[j] = byte((block.Begin + j) % 256)`. -/
def blockData (b : Block) : Bytes :=
  (List.range b.length).map fun j => ((b.begin + j) % 256).toUInt8

lemma blockData_length (b : Block) : (blockData b).length = b.length := by
  simp [blockData]

/-- The block loop of the download simulation: `AddBlockData(pieceIndex, block.Begin, data)` for
each block in turn, where a call that returns an error is reported and skipped (`continue`) and a
panic ends the program.  The manager afterwards, with the number of `verifyAndStorePiece`
goroutines launched. -/
def fetchBlocks (pieceIndex : Nat) (data : Block → Bytes) :
    PieceManager × Nat → List Block → Outcome (PieceManager × Nat)
  | acc, [] => .ok acc
  | (m, launched), b :: bs =>
    match m.addBlockData pieceIndex b.begin (data b) with
    | .ok (m', l) => fetchBlocks pieceIndex data (m', if l then launched + 1 else launched) bs
    | .err _ => fetchBlocks pieceIndex data (m, launched) bs
    | .panic e => .panic e

/-! ## What a batch of calls leaves -/

/-- What calls on piece `i` of a manager `m` of `n` pieces of lengths `len` leave in `m'`: the
shape, piece `i` with missing blocks `rest` and state `st`, every other piece and the bitfield as
in `m`, and `bytes` more downloaded bytes. -/
structure Fetched (n : Nat) (len : Nat → Nat) (m : PieceManager) (i : Nat) (m' : PieceManager)
    (rest : List Block) (st : PieceState) (bytes : Nat) : Prop where
  shape : m'.Shape n len
  piece : ∃ p', m'.pieces[i]? = some p' ∧ p'.getMissingBlocks = rest ∧ p'.state = st
  others : ∀ j, j ≠ i → m'.pieces[j]? = m.pieces[j]?
  bitfield : m'.bitfield = m.bitfield
  downloaded : m'.stats.bytesDownloaded = m.stats.bytesDownloaded + bytes

variable {n : Nat} {len : Nat → Nat} {m m' : PieceManager} {i : Nat} {p : Piece}

lemma Fetched.refl (h : m.Shape n len) (hp : m.pieces[i]? = some p) :
    Fetched n len m i m p.getMissingBlocks p.state 0 :=
  ⟨h, ⟨p, hp, rfl, rfl⟩, fun _ _ => rfl, rfl, rfl⟩

lemma Fetched.trans {m'' : PieceManager} {rest rest' : List Block} {st st' : PieceState}
    {bytes bytes' : Nat} (h : Fetched n len m i m' rest st bytes)
    (h' : Fetched n len m' i m'' rest' st' bytes') : Fetched n len m i m'' rest' st' (bytes + bytes') :=
  ⟨h'.shape, h'.piece, fun j hj => (h'.others j hj).trans (h.others j hj),
    h'.bitfield.trans h.bitfield, by rw [h'.downloaded, h.downloaded, Nat.add_assoc]⟩

/-- **One `AddBlockData` on the first missing block** of piece `i`, with a payload of the
block's length: it succeeds, takes the block off the missing list, and launches a verification
(the piece entering `Downloaded`) exactly when that was the last missing block. -/
lemma addBlockData_first (h : m.Shape n len) (hp : m.pieces[i]? = some p) {b : Block}
    {rest : List Block} {data : Bytes} (hm : p.getMissingBlocks = b :: rest)
    (hlen : data.length = b.length) :
    ∃ m', m.addBlockData i b.begin data = .ok (m', rest.isEmpty) ∧
      Fetched n len m i m' rest (if rest.isEmpty then .downloaded else p.state) b.length := by
  obtain ⟨q, hq, hmq, hst⟩ := (h.pieces i p hp).setBlockData_first hm hlen
  have hi : i < m.pieces.length := (List.getElem?_eq_some_iff.mp hp).1
  let m₁ : PieceManager :=
    { m with pieces := m.pieces.set i q,
             stats := { m.stats with bytesDownloaded := m.stats.bytesDownloaded + data.length } }
  have hr : m.receiveBlock i b.begin data = .ok m₁ := by
    simp only [receiveBlock, goIndex, hp, hq]
  have h₁ : m₁.pieces[i]? = some q := by simp [m₁, hi]
  have hf₁ : Fetched n len m i m₁ rest p.state b.length :=
    ⟨(h.receiveBlock hr).2, ⟨q, h₁, hmq, hst⟩,
      fun j hj => by simp [m₁, List.getElem?_set, Ne.symm hj], rfl, by simp [m₁, hlen]⟩
  have hc : m₁.pieceComplete i = rest.isEmpty := by
    simp [pieceComplete, h₁, Piece.isComplete_eq, hmq]
  simp only [addBlockData, hr, hc]
  cases hre : rest.isEmpty
  · exact ⟨m₁, rfl, by simpa using hf₁⟩
  · refine ⟨m₁.setDownloaded i, rfl, hf₁.shape.setDownloaded i, ⟨{ q with state := .downloaded },
      ?_, hmq, rfl⟩, fun j hj => ?_, hf₁.bitfield, hf₁.downloaded⟩
    · simp [setDownloaded, modifyPiece_getElem?, h₁]
    · simp only [setDownloaded, modifyPiece_getElem?, Ne.symm hj, if_false, hf₁.others j hj]

/-! ## The loop -/

variable {data : Block → Bytes}

/-- The loop over blocks that are, in order, the first missing blocks of piece `i`: every call
succeeds, and one verification is launched, at the last call, exactly when the blocks were all
the missing ones. -/
lemma fetchBlocks_prefix (hdata : ∀ b, (data b).length = b.length) :
    ∀ (bs : List Block) {m : PieceManager} {p : Piece} {rest : List Block} (c : Nat),
      m.Shape n len → m.pieces[i]? = some p → p.getMissingBlocks = bs ++ rest →
      ∃ m', fetchBlocks i data (m, c) bs = .ok (m', if bs ≠ [] ∧ rest = [] then c + 1 else c) ∧
        Fetched n len m i m' rest (if bs ≠ [] ∧ rest = [] then .downloaded else p.state)
          (bs.map (·.length)).sum
  | [], m, p, rest, c, h, hp, hm => ⟨m, by simp [fetchBlocks], by simpa [hm] using Fetched.refl h hp⟩
  | b :: bs, m, p, rest, c, h, hp, hm => by
    have hm : p.getMissingBlocks = b :: (bs ++ rest) := hm
    obtain ⟨m₁, hstep, hf₁⟩ := addBlockData_first h hp hm (hdata b)
    obtain ⟨p₁, hp₁, hm₁, hst₁⟩ := hf₁.piece
    obtain ⟨m₂, hrun, hf₂⟩ :=
      fetchBlocks_prefix hdata bs (if (bs ++ rest).isEmpty then c + 1 else c) hf₁.shape hp₁ hm₁
    refine ⟨m₂, ?_, ?_⟩
    · simp only [fetchBlocks, hstep]
      rw [hrun]
      cases bs <;> simp
    · have := hf₁.trans hf₂
      rw [hst₁] at this
      rw [List.map_cons, List.sum_cons]
      cases bs <;> simpa using this

/-- **The download simulation's batch**: from a manager of the shape every run keeps, feeding
back each block of `GetNextBlocks(i, maxBlocks)` with a payload of its length makes no call
fail; the missing blocks of piece `i` become those past the first `maxBlocks`, and the piece
enters `Downloaded`, with exactly one verification launched, exactly when it had at most
`maxBlocks` missing blocks and at least one.  The bitfield and every other piece are untouched,
and the byte counter grows by the lengths of the blocks handed out. -/
theorem fetchBlocks_getNextBlocks (h : m.Shape n len) (hp : m.pieces[i]? = some p)
    (maxBlocks : Nat) (hdata : ∀ b, (data b).length = b.length) :
    ∃ m', fetchBlocks i data (m, 0) (m.getNextBlocks i maxBlocks) =
        .ok (m', if 0 < p.getMissingBlocks.length ∧ p.getMissingBlocks.length ≤ maxBlocks then 1
          else 0) ∧
      Fetched n len m i m' (p.getMissingBlocks.drop maxBlocks)
        (if 0 < p.getMissingBlocks.length ∧ p.getMissingBlocks.length ≤ maxBlocks then .downloaded
          else p.state)
        ((p.getMissingBlocks.take maxBlocks).map (·.length)).sum := by
  have hiff : (p.getMissingBlocks.take maxBlocks ≠ [] ∧ p.getMissingBlocks.drop maxBlocks = []) ↔
      (0 < p.getMissingBlocks.length ∧ p.getMissingBlocks.length ≤ maxBlocks) := by
    rw [Ne, List.take_eq_nil_iff, List.drop_eq_nil_iff, ← List.length_eq_zero]
    omega
  obtain ⟨m', hrun, hf⟩ := fetchBlocks_prefix hdata (p.getMissingBlocks.take maxBlocks) 0 h hp
    (List.take_append_drop maxBlocks _).symm
  simp only [hiff] at hrun hf
  exact ⟨m', by simpa [getNextBlocks, hp] using hrun, hf⟩

theorem fetchBlocks_getNextBlocks_sample :
    ∃ m', fetchBlocks 0 blockData ((new 1 20000 20000), 0) ((new 1 20000 20000).getNextBlocks 0 100)
        = .ok (m', 1) ∧
      Fetched 1 (pieceLengthOf 1 20000 20000) (new 1 20000 20000) 0 m' [] .downloaded 20000 :=
  fetchBlocks_getNextBlocks (p := newPiece 0 20000) (Shape.new 1 20000 20000) rfl 100
    blockData_length

end PieceManager

end BitTorrent
