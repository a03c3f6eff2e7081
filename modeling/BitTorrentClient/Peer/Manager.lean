import BitTorrentClient.Peer.Peer
import BitTorrentClient.Piece.Store

/-!
# The peer manager's message handler

`peer.Manager`: the component between the peer sessions and the piece store.  Its message loop
takes the messages the sessions forward (everything but the control messages) one at a time and
runs `handlePeerMessage` on each: a REQUEST is answered from disk if we have the piece and may
upload, a PIECE goes to the piece store's `AddBlockData`, a CANCEL is ignored.

The piece store is the one of `Piece/Store.lean`; a PIECE message runs the whole
`AddBlockData` call (`Store.addBlockData`), which `Store.addBlockData_run` shows is a run of the
store's own steps.

* `handlePeerMessage_panic` — with our bitfield naming only existing pieces, the handler
  panics only on a PIECE message whose index is past the last piece;
* `handlePeerMessage_piece_of_le` — and every such message does panic: `AddBlockData` indexes
  `m.pieces[pieceIndex]` before its `nil` check, so the error the code means to return is never
  reached (`piece_out_of_range_panics`).
-/

namespace BitTorrent

/-- The state of `peer.Manager` its message handler reads and writes: our bitfield, the byte
counters, and whether `SetPieceManager` and `SetPieceHandler` were called. -/
structure PeerManager where
  bitfield : Bytes
  bytesDownloaded : Nat
  bytesUploaded : Nat
  hasPieceManager : Bool
  hasPieceHandler : Bool
  deriving DecidableEq, Repr

/-- What a handled message leaves behind: the peer manager, the piece store, the sending peer's
session, and the `(index, begin)` pairs passed to the piece handler's `HandlePieceReceived`. -/
abbrev Handled (D : Type) := PeerManager × Store D × Peer × List (Nat × Nat)

namespace PeerManager

variable {D : Type}

/-- `NewManager(infoHash, peerID, numPieces)`: an all-zero bitfield of `(numPieces + 7) / 8`
bytes, nothing wired. -/
def new (numPieces : Nat) : PeerManager :=
  { bitfield := List.replicate ((numPieces + 7) / 8) 0, bytesDownloaded := 0, bytesUploaded := 0,
    hasPieceManager := false, hasPieceHandler := false }

/-- `Manager.setPiece` (the bitfield update of `BroadcastHave`). -/
def setPiece (m : PeerManager) (index : Nat) : PeerManager :=
  { m with bitfield := bitfieldSet m.bitfield index }

/-- `Manager.hasPieceIndex`. -/
def hasPieceIndex (m : PeerManager) (index : Nat) : Bool := bitfieldHas m.bitfield index

/-- `Manager.handlePieceRequest`: answer from disk if we have the piece and the peer may
download from us; the send's error is ignored, the upload counter counts the block anyway. -/
def handlePieceRequest (dm : DiskManager D) (m : PeerManager) (s : Store D) (peer : Peer)
    (index begin length : UInt32) : Outcome (PeerManager × Peer) :=
  if !m.hasPieceIndex index.toNat || !peer.canUpload || !m.hasPieceManager then .ok (m, peer)
  else
    match PieceManager.readBlockFromDisk dm s.disk s.mgr index.toNat begin.toNat length.toNat with
    | .ok blockData =>
      .ok ({ m with bytesUploaded := m.bytesUploaded + blockData.length },
        (peer.sendMessage (Message.newPieceMessage index begin blockData)).toOption.getD peer)
    | .err _ => .ok (m, peer)
    | .panic e => .panic e

/-- `Manager.handlePieceData`: count the bytes, hand the block to `AddBlockData` (its error is
ignored), then tell the piece handler. -/
def handlePieceData (m : PeerManager) (s : Store D) (peer : Peer) (index begin : UInt32)
    (block : Bytes) : Outcome (Handled D) :=
  let m := { m with bytesDownloaded := m.bytesDownloaded + block.length }
  let notified := if m.hasPieceHandler then [(index.toNat, begin.toNat)] else []
  if !m.hasPieceManager then .ok (m, s, peer, [])
  else
    match s.addBlockData index.toNat begin.toNat block with
    | .ok s' => .ok (m, s', peer, notified)
    | .err _ => .ok (m, s, peer, notified)
    | .panic e => .panic e

/-- `Manager.handlePeerMessage`: a message that fails to parse is dropped. -/
def handlePeerMessage (dm : DiskManager D) (m : PeerManager) (s : Store D) (peer : Peer) :
    Option Message → Outcome (Handled D)
  | none => .ok (m, s, peer, [])
  | some msg =>
    if msg.id = msgRequest then
      match msg.parseRequest with
      | .ok (index, begin, length) =>
        match m.handlePieceRequest dm s peer index begin length with
        | .ok (m', peer') => .ok (m', s, peer', [])
        | .err e => .err e
        | .panic e => .panic e
      | .error _ => .ok (m, s, peer, [])
    else if msg.id = msgPiece then
      match msg.parsePiece with
      | .ok (index, begin, block) => m.handlePieceData s peer index begin block
      | .error _ => .ok (m, s, peer, [])
    else .ok (m, s, peer, [])

/-! ## Where the handler panics -/

lemma readBlockFromDisk_not_panic {dm : DiskManager D} {disk : D} {pm : PieceManager}
    {i begin length : Nat} (hi : i < pm.pieces.length) (e : String) :
    PieceManager.readBlockFromDisk dm disk pm i begin length ≠ .panic e := by
  simp only [PieceManager.readBlockFromDisk, goIndex_of_lt hi]
  split_ifs
  · simp
  · split <;> simp

lemma handlePieceRequest_not_panic {dm : DiskManager D} {m : PeerManager} {s : Store D}
    {peer : Peer} {index begin length : UInt32}
    (hbf : ∀ j, m.hasPieceIndex j = true → j < s.mgr.pieces.length) (e : String) :
    m.handlePieceRequest dm s peer index begin length ≠ .panic e := by
  unfold handlePieceRequest
  split
  · simp
  · rename_i hguard
    have hi : index.toNat < s.mgr.pieces.length := hbf _ (by simp at hguard; exact hguard.1.1)
    split
    · simp
    · simp
    · rename_i hr; exact absurd hr (readBlockFromDisk_not_panic hi _)

lemma receiveBlock_panic {pm : PieceManager} {i begin : Nat} {data : Bytes} {e : String}
    (h : pm.receiveBlock i begin data = .panic e) : pm.pieces.length ≤ i := by
  by_contra hlt
  rw [PieceManager.receiveBlock, goIndex_of_lt (by omega)] at h
  dsimp only at h
  split at h <;> cases h

lemma addBlockData_panic {s : Store D} {i begin : Nat} {data : Bytes} {e : String}
    (h : s.addBlockData i begin data = .panic e) : s.mgr.pieces.length ≤ i := by
  unfold Store.addBlockData PieceManager.addBlockData at h
  cases hr : s.mgr.receiveBlock i begin data with
  | panic e' => exact receiveBlock_panic hr
  | ok m => rw [hr] at h; dsimp only at h; split_ifs at h
  | err e' => rw [hr] at h; cases h

lemma handlePieceData_of_le {m : PeerManager} (hm : m.hasPieceManager = true) (s : Store D)
    (peer : Peer) {index : UInt32} (begin : UInt32) (block : Bytes)
    (hi : s.mgr.pieces.length ≤ index.toNat) :
    m.handlePieceData s peer index begin block =
      .panic s!"runtime error: index out of range [{index.toNat}] with length {s.mgr.pieces.length}" := by
  simp [handlePieceData, hm, Store.addBlockData, PieceManager.addBlockData,
    (@PieceManager.receiveBlock_spec s.mgr index.toNat begin.toNat block).1 hi]

lemma handlePieceData_panic {m : PeerManager} {s : Store D} {peer : Peer} {index begin : UInt32}
    {block : Bytes} {e : String} (h : m.handlePieceData s peer index begin block = .panic e) :
    s.mgr.pieces.length ≤ index.toNat ∧
      e = s!"runtime error: index out of range [{index.toNat}] with length {s.mgr.pieces.length}" := by
  have hle : s.mgr.pieces.length ≤ index.toNat := by
    cases hr : s.addBlockData index.toNat begin.toNat block with
    | panic e' => exact addBlockData_panic hr
    | _ => simp only [handlePieceData, hr] at h; split_ifs at h
  have hm : m.hasPieceManager = true := by
    by_contra hm
    simp [handlePieceData, hm] at h
  rw [handlePieceData_of_le hm s peer begin block hle] at h
  exact ⟨hle, (Outcome.panic.inj h).symm⟩

/-- With our bitfield naming only existing pieces, `handlePeerMessage` panics only on a PIECE
message that parses and whose index is past the last piece, and then with the runtime's
index-out-of-range message. -/
theorem handlePeerMessage_panic {dm : DiskManager D} {m : PeerManager} {s : Store D} {peer : Peer}
    {msg : Option Message} {e : String}
    (hbf : ∀ j, m.hasPieceIndex j = true → j < s.mgr.pieces.length)
    (h : m.handlePeerMessage dm s peer msg = .panic e) :
    ∃ x index begin block, msg = some x ∧ x.id = msgPiece ∧
      x.parsePiece = .ok (index, begin, block) ∧ s.mgr.pieces.length ≤ index.toNat ∧
      e = s!"runtime error: index out of range [{index.toNat}] with length {s.mgr.pieces.length}" := by
  cases msg with
  | none => cases h
  | some x =>
    simp only [handlePeerMessage] at h
    split at h
    · split at h
      · split at h
        · cases h
        · cases h
        · rename_i hp; exact absurd hp (handlePieceRequest_not_panic hbf _)
      · cases h
    · split at h
      · split at h
        · rename_i index begin block hparse
          exact ⟨x, index, begin, block, rfl, by assumption, hparse, handlePieceData_panic h⟩
        · cases h
      · cases h

/-- And every such message does panic, once a piece manager is wired. -/
theorem handlePeerMessage_piece_of_le (dm : DiskManager D) {m : PeerManager}
    (hm : m.hasPieceManager = true) (s : Store D) (peer : Peer) {index : UInt32} (begin : UInt32)
    (block : Bytes) (hi : s.mgr.pieces.length ≤ index.toNat) :
    m.handlePeerMessage dm s peer (some (Message.newPieceMessage index begin block)) =
      .panic s!"runtime error: index out of range [{index.toNat}] with length {s.mgr.pieces.length}" := by
  obtain ⟨-, -, -, hparse, -, -⟩ := Message.parse_new index begin 0 [] block 0
  simp only [handlePeerMessage, Message.newPieceMessage, if_neg (by decide : msgPiece ≠ msgRequest),
    if_pos rfl]
  rw [show (⟨msgPiece, putUint32 index ++ putUint32 begin ++ block⟩ : Message).parsePiece =
    .ok (index, begin, block) from hparse]
  exact handlePieceData_of_le hm s peer begin block hi

/-! ## What a handled message keeps -/

lemma addBlockData_pieces_length {s s' : Store D} {i begin : Nat} {data : Bytes}
    (h : s.addBlockData i begin data = .ok s') : s'.mgr.pieces.length = s.mgr.pieces.length := by
  unfold Store.addBlockData PieceManager.addBlockData at h
  cases hr : s.mgr.receiveBlock i begin data with
  | ok m' =>
    obtain ⟨p, p', _, _, hpieces, _⟩ := PieceManager.receiveBlock_spec.2 m' hr
    rw [hr] at h
    dsimp only at h
    split_ifs at h <;> cases h <;>
      simp [PieceManager.setDownloaded, PieceManager.modifyPiece, hpieces]
  | err e => rw [hr] at h; cases h
  | panic e => rw [hr] at h; cases h

lemma handlePieceRequest_bitfield {dm : DiskManager D} {m m' : PeerManager} {s : Store D}
    {peer peer' : Peer} {index begin length : UInt32}
    (h : m.handlePieceRequest dm s peer index begin length = .ok (m', peer')) :
    m'.bitfield = m.bitfield := by
  unfold handlePieceRequest at h
  split at h
  · cases h; rfl
  · split at h <;> cases h <;> rfl

lemma handlePieceData_keeps {m : PeerManager} {s : Store D} {peer : Peer} {index begin : UInt32}
    {block : Bytes} {r : Handled D} (h : m.handlePieceData s peer index begin block = .ok r) :
    r.1.bitfield = m.bitfield ∧ r.2.1.mgr.pieces.length = s.mgr.pieces.length := by
  unfold handlePieceData at h
  by_cases hm : m.hasPieceManager = true
  · rw [if_neg (by simp [hm])] at h
    cases hs : s.addBlockData index.toNat begin.toNat block <;> rw [hs] at h <;> cases h
    · exact ⟨rfl, addBlockData_pieces_length hs⟩
    · exact ⟨rfl, rfl⟩
  · rw [if_pos (by simpa using hm)] at h
    cases h; exact ⟨rfl, rfl⟩

/-- A message handled without a panic leaves our bitfield and the number of pieces as they
were. -/
lemma handlePeerMessage_keeps {dm : DiskManager D} {m : PeerManager} {s : Store D} {peer : Peer}
    {msg : Option Message} {r : Handled D} (h : m.handlePeerMessage dm s peer msg = .ok r) :
    r.1.bitfield = m.bitfield ∧ r.2.1.mgr.pieces.length = s.mgr.pieces.length := by
  cases msg with
  | none => cases h; exact ⟨rfl, rfl⟩
  | some x =>
    simp only [handlePeerMessage] at h
    split at h
    · split at h
      · split at h
        · rename_i hr; cases h; exact ⟨handlePieceRequest_bitfield hr, rfl⟩
        · cases h
        · cases h
      · cases h; exact ⟨rfl, rfl⟩
    · split at h
      · split at h
        · exact handlePieceData_keeps h
        · cases h; exact ⟨rfl, rfl⟩
      · cases h; exact ⟨rfl, rfl⟩

/-- A fresh peer manager with the piece store wired in, as the client sets them up. -/
def wired (numPieces : Nat) : PeerManager := { new numPieces with hasPieceManager := true }

/-- A PIECE message for piece `1` of a one-piece torrent crashes the client: `AddBlockData`'s
unchecked `m.pieces[1]` panics instead of returning its "piece 1 not found" error. -/
theorem piece_out_of_range_panics (dm : DiskManager D) (disk : D) :
    (wired 1).handlePeerMessage dm (Store.init (PieceManager.new 1 1 1) disk) Peer.new
      (some (Message.newPieceMessage 1 0 [7])) =
      .panic "runtime error: index out of range [1] with length 1" := by
  rw [handlePeerMessage_piece_of_le dm rfl _ _ 0 [7] (by simp [Store.init])]
  simp only [Store.init, PieceManager.new_pieces_length]
  exact congrArg Outcome.panic (by decide)

end PeerManager

end BitTorrent
