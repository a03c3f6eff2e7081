import BitTorrentClient.Download.Client

/-!
# What one request call does

The coordinator's three operations on `activeRequests` run under `c.mu`, one at a time:
`requestPiecesFromPeer` for whichever session the download cycle reaches, `HandlePieceReceived`
from the peer manager's message loop, and the timeout sweep.  `Call` is one of them with any
arguments, so a list of calls is any interleaving, for any sessions and any piece-manager state.

* **`requests_per_peer_bounded`** — over every interleaving, no session has more than
  `maxRequestsPerPeer` records: the request loop's budget is the allowance left at entry, and
  the two other operations only delete;
* **`requests_selected_piece`** — when a call sends a request: for a session that may download,
  accepts requests, has a known bitfield, is below its allowance and has a needed piece, the call
  sends one exactly when the piece the selector returns has a block with no payload and no record;
* `idle_with_free_block` — so a session can get no request although another piece it has has a
  free block: the selector returned a piece whose only block is already requested from another
  session.
-/

namespace BitTorrent

namespace Coordinator

/-- One operation on the coordinator under its mutex, with any arguments. -/
inductive Call where
  /-- `requestPiecesFromPeer` for session `peer`. -/
  | requestPiecesFromPeer (pm : PieceManager) (p : Peer) (peer : Nat) (neededPieces : List Nat)
      (now : Nat)
  /-- `HandlePieceReceived`. -/
  | handlePieceReceived (pieceIndex begin : Nat)
  /-- `cleanupTimedOutRequests`. -/
  | cleanupTimedOutRequests (now : Nat)

/-- The coordinator after a call. -/
def call (c : Coordinator) : Call → Coordinator
  | .requestPiecesFromPeer pm p peer neededPieces now =>
    (c.requestPiecesFromPeer pm p peer neededPieces now).1
  | .handlePieceReceived pieceIndex begin => c.handlePieceReceived pieceIndex begin
  | .cleanupTimedOutRequests now => c.cleanupTimedOutRequests now

/-- No session has more than `maxRequestsPerPeer` records. -/
def PerPeer (c : Coordinator) : Prop := ∀ peer, c.countActiveRequestsForPeer peer ≤ c.maxRequestsPerPeer

/-- Dropping records keeps every session within the bound. -/
lemma PerPeer.filter {c : Coordinator} (h : c.PerPeer) (f : String × RequestInfo → Bool) :
    ({ c with activeRequests := c.activeRequests.filter f } : Coordinator).PerPeer := fun peer =>
  le_trans (List.Sublist.countP_le _ (List.filter_sublist _)) (h peer)

/-- Every call keeps every session within the bound, and keeps the bound. -/
lemma PerPeer.step {c : Coordinator} (h : c.PerPeer) :
    ∀ k : Call, (c.call k).PerPeer ∧ (c.call k).maxRequestsPerPeer = c.maxRequestsPerPeer
  | .requestPiecesFromPeer pm p peer neededPieces now => by
    obtain ⟨added, hc, -, hcount, hadded, -⟩ := requestPiecesFromPeer_spec c pm p peer neededPieces now
    simp only [Coordinator.call]
    rw [hc]
    exact ⟨perPeer_append h (fun e he => (hadded e he).1) hcount, rfl⟩
  | .handlePieceReceived _ _ => ⟨h.filter _, rfl⟩
  | .cleanupTimedOutRequests _ => ⟨h.filter _, rfl⟩

lemma PerPeer.run {c : Coordinator} (h : c.PerPeer) :
    ∀ calls : List Call, (calls.foldl Coordinator.call c).PerPeer ∧
      (calls.foldl Coordinator.call c).maxRequestsPerPeer = c.maxRequestsPerPeer
  | [] => ⟨h, rfl⟩
  | k :: calls => by
    obtain ⟨h₁, hmax₁⟩ := h.step k
    obtain ⟨h₂, hmax₂⟩ := h₁.run calls
    exact ⟨h₂, hmax₂.trans hmax₁⟩

/-- **At most `maxRequestsPerPeer` requests per session.**  Over every interleaving of
`requestPiecesFromPeer` (for any sessions, piece-manager states and needed pieces),
`HandlePieceReceived` and `cleanupTimedOutRequests` from `NewCoordinator`, the bound stays ten
and no session has more records than it. -/
theorem requests_per_peer_bounded (calls : List Call) :
    (calls.foldl call new).maxRequestsPerPeer = 10 ∧
      ∀ peer, (calls.foldl call new).countActiveRequestsForPeer peer ≤
        (calls.foldl call new).maxRequestsPerPeer :=
  have h := @PerPeer.run new (fun _ => Nat.zero_le _) calls
  ⟨h.2, h.1⟩

/-! ## When a call sends a request -/

/-- With allowance left and a session that accepts requests, the block loop sends a request
exactly when one of the blocks has no record. -/
lemma requestBlocks_issues_iff (peer pieceIndex now requestsToMake : Nat) :
    ∀ (blocks : List (Nat × Nat)) (made : Nat) (c : Coordinator) (pm : PieceManager) (p : Peer),
      made < requestsToMake → p.connected = true → p.state.peerChoking = false →
      (c.activeRequests.length <
          (requestBlocks peer pieceIndex now requestsToMake blocks made (c, pm, p)).1.activeRequests.length ↔
        ∃ b ∈ blocks, (c.activeRequests.lookup (requestKey pieceIndex b.1)).isNone)
  | [], _, _, _, _, _, _, _ => by simp [requestBlocks]
  | (begin, length) :: rest, made, c, pm, p, hmade, hconn, hchoke => by
    simp only [requestBlocks, if_neg (Nat.not_le.mpr hmade)]
    by_cases hfound : (c.activeRequests.lookup (requestKey pieceIndex begin)).isSome
    · rw [if_pos hfound, requestBlocks_issues_iff peer pieceIndex now requestsToMake rest made c pm p
        hmade hconn hchoke]
      have hnot : ¬(c.activeRequests.lookup (requestKey pieceIndex begin)).isNone = true := by
        rw [Option.isNone_iff_eq_none]
        exact Option.ne_none_iff_isSome.mpr hfound
      simp only [List.mem_cons, exists_eq_or_imp, hnot, Bool.false_eq_true, false_or]
    · have hreq : p.requestPiece pieceIndex.toUInt32 begin.toUInt32 length.toUInt32 =
          .ok { p with sent := p.sent ++ [Message.newRequestMessage pieceIndex.toUInt32
            begin.toUInt32 length.toUInt32] } := by
        simp [Peer.requestPiece, Peer.sendMessage, hconn, hchoke]
      rw [if_neg hfound, hreq]
      dsimp only
      obtain ⟨added, hc, -⟩ := requestBlocks_spec peer pieceIndex now requestsToMake rest (made + 1)
        { c with activeRequests := c.activeRequests ++ [(requestKey pieceIndex begin,
          ⟨pieceIndex, begin, length, now, peer⟩)] }
        ((pm.requestBlock pieceIndex begin length now).toOption.getD pm)
        { p with sent := p.sent ++ [Message.newRequestMessage pieceIndex.toUInt32 begin.toUInt32
          length.toUInt32] }
      rw [hc]
      simp only [List.length_append, List.length_singleton]
      exact ⟨fun _ => ⟨(begin, length), List.mem_cons_self _ _,
          Option.isNone_iff_eq_none.mpr (Option.not_isSome_iff_eq_none.mp hfound)⟩, fun _ => by omega⟩

/-- **When a call of `requestPiecesFromPeer` sends a request.**  For a session we may download
from, that accepts requests, whose bitfield is known, that is below its allowance and has one of
the needed pieces: the call sends at least one request exactly when the piece `SelectPieceForPeer`
returns has a block without payload and without a record. -/
theorem requests_selected_piece (c : Coordinator) (pm : PieceManager) (p : Peer) (peer : Nat)
    (neededPieces : List Nat) (now : Nat) {bitfield : Bytes}
    (hdl : p.canDownload = true) (hconn : p.connected = true) (hbf : p.bitfield = some bitfield)
    (hcount : c.countActiveRequestsForPeer peer < c.maxRequestsPerPeer)
    (hhas : ∃ i ∈ neededPieces, p.hasPiece i = true) :
    (c.activeRequests.length <
        (c.requestPiecesFromPeer pm p peer neededPieces now).1.activeRequests.length ↔
      ∃ pieceIndex, pm.selectPieceForPeer bitfield = .ok pieceIndex ∧
        ∃ b ∈ pm.getBlockRequests pieceIndex,
          (c.activeRequests.lookup (requestKey pieceIndex b.1)).isNone) := by
  have hchoke : p.state.peerChoking = false := by
    simp only [Peer.canDownload, Bool.and_eq_true, Bool.not_eq_true'] at hdl
    exact hdl.1
  have hne : (neededPieces.filter p.hasPiece).isEmpty = false := by
    obtain ⟨i, hi, hp⟩ := hhas
    simpa [List.isEmpty_iff, List.filter_eq_nil_iff] using ⟨i, hi, hp⟩
  unfold requestPiecesFromPeer
  simp only [if_neg (Nat.not_le.mpr hcount), hbf, hne]
  cases hsel : pm.selectPieceForPeer bitfield with
  | error e => simp
  | ok i =>
    simp only [Except.ok.injEq, exists_eq_left']
    exact requestBlocks_issues_iff peer i now _ _ 0 c pm p (by omega) hconn hchoke

/-- A session that has both pieces of a two-piece torrent, has unchoked us, and interests us. -/
def twoPiecePeer : Peer :=
  { state := { newPeerState with peerChoking := false, amInterested := true }
    bitfield := some [192]
    sent := []
    connected := true }

/-- Session 1 is served first: the selector gives it piece 0, and it requests that piece's only
block. -/
def afterFirstPeer : Coordinator × PieceManager × Peer :=
  new.requestPiecesFromPeer (PieceManager.new 2 1 1) twoPiecePeer 1 [0, 1] 0

theorem requests_selected_piece_sample :
    (twoPiecePeer.canDownload = true ∧ twoPiecePeer.connected = true ∧
      twoPiecePeer.bitfield = some [192] ∧
      afterFirstPeer.1.countActiveRequestsForPeer 0 < afterFirstPeer.1.maxRequestsPerPeer ∧
      ∃ i ∈ [0, 1], twoPiecePeer.hasPiece i = true) ∧
    (afterFirstPeer.1.activeRequests.length <
        (afterFirstPeer.1.requestPiecesFromPeer afterFirstPeer.2.1 twoPiecePeer 0 [0, 1] 1).1.activeRequests.length ↔
      ∃ pieceIndex, afterFirstPeer.2.1.selectPieceForPeer [192] = .ok pieceIndex ∧
        ∃ b ∈ afterFirstPeer.2.1.getBlockRequests pieceIndex,
          (afterFirstPeer.1.activeRequests.lookup (requestKey pieceIndex b.1)).isNone) :=
  ⟨⟨by decide, rfl, rfl, by decide, 1, by decide, by decide⟩,
    requests_selected_piece _ _ _ 0 [0, 1] 1 (by decide) rfl rfl (by decide) ⟨1, by decide, by decide⟩⟩

/-- **A session that gets no request although a free block is there.**  Session 0 may download,
accepts requests, has both pieces and no record; piece 1 is needed, has a block without payload
and without a record; yet `requestPiecesFromPeer` for session 0 changes nothing and sends
nothing, because the selector returns piece 0, whose only block session 1 was asked for. -/
theorem idle_with_free_block :
    twoPiecePeer.canDownload = true ∧ twoPiecePeer.connected = true ∧
      afterFirstPeer.1.countActiveRequestsForPeer 0 < afterFirstPeer.1.maxRequestsPerPeer ∧
      twoPiecePeer.hasPiece 1 = true ∧ 1 ∈ afterFirstPeer.2.1.getNeededPieces ∧
      (∃ b ∈ afterFirstPeer.2.1.getBlockRequests 1,
        (afterFirstPeer.1.activeRequests.lookup (requestKey 1 b.1)).isNone) ∧
      afterFirstPeer.1.requestPiecesFromPeer afterFirstPeer.2.1 twoPiecePeer 0 [0, 1] 1 =
        (afterFirstPeer.1, afterFirstPeer.2.1, twoPiecePeer) := by
  decide

end Coordinator

end BitTorrent
