import BitTorrentClient.Piece.Piece

/-!
# The piece manager

`piece.Manager` of `internal/piece/manager.go`: the pieces of a torrent, our bitfield, and the
statistics counters, with every operation the rest of the client calls.

Each operation is a function on `PieceManager`.  `AddBlockData` and `verifyAndStorePiece` take
several locks one after the other, and other goroutines run in between; so besides the
sequential `addBlockData` the file gives its lock sections one by one (`receiveBlock`,
`setDownloaded`, `resetPiece`, `markPieceVerified`), and `Piece/Store.lean` interleaves them.

`DiskManager` is the Go interface the manager writes verified pieces through; it is a record of
functions over an arbitrary disk state, so every result about the manager holds for every disk.
-/

namespace BitTorrent

/-- `Statistics`: the counters kept under `stats.mu`.  The download-speed fields are floating
point and time based, and are not modelled. -/
structure Statistics where
  totalPieces : Nat
  completedPieces : Nat
  verifiedPieces : Nat
  activeRequests : Nat
  bytesDownloaded : Nat
  bytesVerified : Nat
  deriving DecidableEq, Repr

/-- `piece.Manager`.  The selection strategy is passed to the functions that use it. -/
structure PieceManager where
  pieces : List Piece
  bitfield : Bytes
  stats : Statistics
  deriving DecidableEq, Repr

/-- `piece.DiskManager`, over a disk state `D`.  `VerifyPiece` reads no disk state. -/
structure DiskManager (D : Type) where
  writePiece : D → Nat → Bytes → Except String D
  readPiece : D → Nat → Except String Bytes
  readBlock : D → Nat → Nat → Nat → Except String Bytes
  verifyPiece : Nat → Bytes → Bool

namespace PieceManager

/-- The length `NewManager` gives piece `i`: `lastPieceLength` for the last piece when it is
positive, `pieceLength` otherwise. -/
def pieceLengthOf (numPieces pieceLength lastPieceLength i : Nat) : Nat :=
  if i = numPieces - 1 ∧ lastPieceLength > 0 then lastPieceLength else pieceLength

/-- `NewManager(numPieces, pieceLength, lastPieceLength, pieceHashes)`.  The hashes only fill
`Piece.Hash`, which nothing reads. -/
def new (numPieces pieceLength lastPieceLength : Nat) : PieceManager :=
  { pieces := (List.range numPieces).map fun i =>
      newPiece i (pieceLengthOf numPieces pieceLength lastPieceLength i)
    bitfield := List.replicate ((numPieces + 7) / 8) 0
    stats := { totalPieces := numPieces, completedPieces := 0, verifiedPieces := 0,
               activeRequests := 0, bytesDownloaded := 0, bytesVerified := 0 } }

/-- Replace piece `i` by `f` of it (nothing happens past the end). -/
def modifyPiece (m : PieceManager) (i : Nat) (f : Piece → Piece) : PieceManager :=
  { m with pieces := m.pieces.modify f i }

/-- `Manager.HasPiece`. -/
def hasPiece (m : PieceManager) (i : Nat) : Bool :=
  match m.pieces[i]? with
  | some p => p.state = .verified
  | none => false

/-- `Manager.IsComplete`: the verified counter has reached the piece count. -/
def isComplete (m : PieceManager) : Bool := m.stats.verifiedPieces = m.stats.totalPieces

/-- `Manager.GetNeededPieces` (and `GetMissingPieces`): the indices not yet verified. -/
def getNeededPieces (m : PieceManager) : List Nat :=
  (List.range m.pieces.length).filter fun i => m.pieces[i]?.any (·.state ≠ .verified)

/-- `Manager.GetProgressCounts`: (verified pieces, total pieces). -/
def getProgressCounts (m : PieceManager) : Nat × Nat :=
  ((m.pieces.filter (·.state = .verified)).length, m.pieces.length)

/-- `Manager.GetBlockRequests`: `(begin, length)` of every block of piece `i` without payload. -/
def getBlockRequests (m : PieceManager) (i : Nat) : List (Nat × Nat) :=
  match m.pieces[i]? with
  | some p => (p.blocks.filter (·.data.isNone)).map fun b => (b.begin, b.length)
  | none => []

/-- `peerHasPiece` of `strategy.go`: an empty bitfield has nothing. -/
def peerHasPiece (bitfield : Bytes) (i : Nat) : Bool :=
  if bitfield.length = 0 then false else bitfieldHas bitfield i

/-- `SequentialStrategy.SelectPiece`, the strategy `NewManager` installs: the first piece not
yet verified that the peer has. -/
def sequentialSelectPiece (pieces : List Piece) (peerBitfield : Bytes) : Option Piece :=
  (pieces.enum.find? fun (i, p) => p.state ≠ .verified && peerHasPiece peerBitfield i).map (·.2)

/-- `Manager.SelectPieceForPeer` under the default strategy: the selected piece's `Index`. -/
def selectPieceForPeer (m : PieceManager) (peerBitfield : Bytes) : Except String Nat :=
  match sequentialSelectPiece m.pieces peerBitfield with
  | some p => .ok p.index
  | none => .error "no piece selected"

/-- `Manager.MarkPieceVerified`: state `Verified`, bitfield bit set, and the three counters
bumped. -/
def markPieceVerified (m : PieceManager) (i : Nat) : Except String PieceManager :=
  match m.pieces[i]? with
  | none => .error s!"piece index {i} out of range"
  | some p =>
    .ok { pieces := m.pieces.modify (fun q => { q with state := .verified }) i
          bitfield := bitfieldSet m.bitfield i
          stats := { m.stats with completedPieces := m.stats.completedPieces + 1,
                                  verifiedPieces := m.stats.verifiedPieces + 1,
                                  bytesVerified := m.stats.bytesVerified + p.length } }

/-- The first lock section of `AddBlockData`: `m.pieces[pieceIndex]` (which panics past the
end: there is no bounds check), then `SetBlockData`, then the downloaded-bytes counter. -/
def receiveBlock (m : PieceManager) (i begin : Nat) (data : Bytes) : Outcome PieceManager :=
  match goIndex m.pieces i with
  | .ok p =>
    match p.setBlockData begin data with
    | .error e => .err e
    | .ok p' => .ok { m with pieces := m.pieces.set i p',
                             stats := { m.stats with bytesDownloaded := m.stats.bytesDownloaded + data.length } }
  | .err e => .err e
  | .panic e => .panic e

/-- The last lock section of `AddBlockData`: `piece.State = PieceStateDownloaded`. -/
def setDownloaded (m : PieceManager) (i : Nat) : PieceManager :=
  m.modifyPiece i fun p => { p with state := .downloaded }

/-- The failed-hash branch of `verifyAndStorePiece`. -/
def resetPiece (m : PieceManager) (i : Nat) : PieceManager := m.modifyPiece i Piece.reset

/-- Whether piece `i` holds a payload in every block (`piece.IsComplete()`). -/
def pieceComplete (m : PieceManager) (i : Nat) : Bool := m.pieces[i]?.any Piece.isComplete

/-- **`Manager.AddBlockData`**, run without interference: the manager afterwards, and whether a
`verifyAndStorePiece` goroutine was launched. -/
def addBlockData (m : PieceManager) (i begin : Nat) (data : Bytes) : Outcome (PieceManager × Bool) :=
  match m.receiveBlock i begin data with
  | .ok m' => if m'.pieceComplete i then .ok (m'.setDownloaded i, true) else .ok (m', false)
  | .err e => .err e
  | .panic e => .panic e

/-- `Manager.AddRequest`: record the request and bump `ActiveRequests`. -/
def addRequest (m : PieceManager) (i : Nat) (peerID : Bytes) (block : Block) (now : Nat) :
    PieceManager :=
  if i < m.pieces.length then
    { m.modifyPiece i (·.addRequest peerID block now) with
      stats := { m.stats with activeRequests := m.stats.activeRequests + 1 } }
  else m

/-- `Manager.RemoveRequest`: drop the request, and decrement `ActiveRequests` when positive
(`Nat` subtraction stops at zero, as the source's guard does). -/
def removeRequest (m : PieceManager) (i : Nat) (peerID : Bytes) (begin length : Nat) :
    PieceManager :=
  if i < m.pieces.length then
    { m.modifyPiece i (·.removeRequest peerID begin length) with
      stats := { m.stats with activeRequests := m.stats.activeRequests - 1 } }
  else m

/-- `Manager.CancelRequest`: drop the request, leaving the counter alone. -/
def cancelRequest (m : PieceManager) (i : Nat) (peerID : Bytes) (begin length : Nat) :
    PieceManager :=
  if i < m.pieces.length then m.modifyPiece i (·.removeRequest peerID begin length) else m

/-- `Manager.RequestBlock`: stamp the block at `(begin, length)` with the request time. -/
def requestBlock (m : PieceManager) (i begin length now : Nat) : Except String PieceManager :=
  if i < m.pieces.length then
    .ok (m.modifyPiece i fun p => { p with blocks := stampBlock begin length now p.blocks })
  else .error s!"invalid piece index: {i}"

/-- `Manager.ReadBlockFromDisk`: `m.pieces[pieceIndex]` (unchecked, so it panics past the end),
then the verified check, then the disk. -/
def readBlockFromDisk {D : Type} (dm : DiskManager D) (disk : D) (m : PieceManager)
    (i begin length : Nat) : Outcome Bytes :=
  match goIndex m.pieces i with
  | .ok p =>
    if p.state ≠ .verified then .err s!"piece {i} not verified"
    else match dm.readBlock disk i begin length with
      | .ok b => .ok b
      | .error e => .err e
  | .err e => .err e
  | .panic e => .panic e

/-! ## Lemmas -/

@[simp] lemma modifyPiece_length (m : PieceManager) (i : Nat) (f : Piece → Piece) :
    (m.modifyPiece i f).pieces.length = m.pieces.length := by
  simp [modifyPiece]

lemma modifyPiece_getElem? (m : PieceManager) (i j : Nat) (f : Piece → Piece) :
    (m.modifyPiece i f).pieces[j]? = if i = j then f <$> m.pieces[j]? else m.pieces[j]? := by
  simp only [modifyPiece, List.getElem?_modify]
  split <;> cases m.pieces[j]? <;> simp_all

@[simp] lemma new_pieces_length (n pl lpl : Nat) : (new n pl lpl).pieces.length = n := by
  simp [new]

lemma new_getElem? (n pl lpl i : Nat) :
    (new n pl lpl).pieces[i]? =
      if i < n then some (newPiece i (pieceLengthOf n pl lpl i)) else none := by
  by_cases h : i < n
  · simp [new, h]
  · simp [new, h]; omega

/-- The spec of `receiveBlock`: it panics exactly past the end, and otherwise either fails with
nothing changed or replaces piece `i` by what `SetBlockData` made of it. -/
theorem receiveBlock_spec {m : PieceManager} {i begin : Nat} {data : Bytes} :
    (m.pieces.length ≤ i →
      m.receiveBlock i begin data =
        .panic s!"runtime error: index out of range [{i}] with length {m.pieces.length}") ∧
    (∀ m', m.receiveBlock i begin data = .ok m' →
      ∃ p p', m.pieces[i]? = some p ∧ p.setBlockData begin data = .ok p' ∧
        m'.pieces = m.pieces.set i p' ∧ m'.bitfield = m.bitfield ∧
        m'.stats = { m.stats with bytesDownloaded := m.stats.bytesDownloaded + data.length }) := by
  refine ⟨fun h => by simp [receiveBlock, goIndex_of_le h], fun m' h => ?_⟩
  unfold receiveBlock at h
  by_cases hi : i < m.pieces.length
  · rw [goIndex_of_lt hi] at h
    simp only at h
    split at h
    · cases h
    · rename_i p' hp
      cases h
      exact ⟨_, p', List.getElem?_eq_getElem hi, hp, rfl, rfl, rfl⟩
  · rw [goIndex_of_le (by omega)] at h
    cases h

/-! ## Piece states and counters after each operation -/

/-- The state of piece `i`, if there is one. -/
def stateOf (m : PieceManager) (i : Nat) : Option PieceState := m.pieces[i]?.map (·.state)

variable {m m' : PieceManager}

lemma stateOf_modifyPiece (m : PieceManager) (i j : Nat) (f : Piece → Piece) :
    (m.modifyPiece i f).stateOf j =
      if i = j then m.pieces[j]?.map (fun p => (f p).state) else m.stateOf j := by
  simp only [stateOf, modifyPiece_getElem?]
  split <;> cases m.pieces[j]? <;> simp

@[simp] lemma stateOf_setDownloaded (m : PieceManager) (i j : Nat) :
    (m.setDownloaded i).stateOf j =
      if i = j then (m.stateOf j).map fun _ => .downloaded else m.stateOf j := by
  rw [setDownloaded, stateOf_modifyPiece]
  simp [stateOf, Option.map_map, Function.comp_def]

@[simp] lemma stateOf_resetPiece (m : PieceManager) (i j : Nat) :
    (m.resetPiece i).stateOf j =
      if i = j then (m.stateOf j).map fun _ => .missing else m.stateOf j := by
  rw [resetPiece, stateOf_modifyPiece]
  simp [stateOf, Piece.reset, Option.map_map, Function.comp_def]

lemma stateOf_receiveBlock {i begin : Nat} {data : Bytes} (h : m.receiveBlock i begin data = .ok m')
    (j : Nat) : m'.stateOf j = m.stateOf j := by
  obtain ⟨p, p', hp, hs, hpieces, -, -⟩ := receiveBlock_spec.2 m' h
  simp only [stateOf, hpieces, List.getElem?_set]
  split
  · subst j
    simp [(List.getElem?_eq_some_iff.mp hp).1, hp, (Piece.setBlockData_ok hs).2.2.2.1]
  · rfl

/-- `MarkPieceVerified` on a piece that exists. -/
lemma markPieceVerified_of_getElem? {i : Nat} {p : Piece} (hp : m.pieces[i]? = some p) :
    (m.markPieceVerified i).toOption.getD m =
      { pieces := m.pieces.modify (fun q => { q with state := .verified }) i
        bitfield := bitfieldSet m.bitfield i
        stats := { m.stats with completedPieces := m.stats.completedPieces + 1,
                                verifiedPieces := m.stats.verifiedPieces + 1,
                                bytesVerified := m.stats.bytesVerified + p.length } } := by
  simp [markPieceVerified, hp, Except.toOption]

/-- `MarkPieceVerified` past the end changes nothing. -/
lemma markPieceVerified_of_none {i : Nat} (hp : m.pieces[i]? = none) :
    (m.markPieceVerified i).toOption.getD m = m := by
  simp [markPieceVerified, hp, Except.toOption]

end PieceManager

end BitTorrent
