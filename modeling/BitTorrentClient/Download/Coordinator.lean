import BitTorrentClient.Peer.Peer
import BitTorrentClient.Piece.Manager

/-!
# The download coordinator

`download.Coordinator` of `internal/download/coordinator.go`: every half second
`processDownloadCycle` updates our interest in each connected peer and asks each peer we may
download from for blocks of a piece it has, recording every request it sends in
`activeRequests`; `HandlePieceReceived` drops the record of a block that arrived, and every ten
seconds `cleanupTimedOutRequests` drops the records older than `requestTimeout`.

The coordinator reaches the peers through the peer manager's `GetConnectedPeers` and the pieces
through the piece manager.  Here the peers are the client's sessions, numbered: a request
record names its session by number, as the Go record holds the session's pointer, and a cycle
is given the numbers `GetConnectedPeers` returned, in the map's iteration order.  The piece
manager is `PieceManager` with its default (sequential) selection strategy.

`activeRequests` is a Go map keyed by `requestKey`; it is an association list here, and every
insertion is guarded by a lookup of the same key, so its keys stay distinct (`Client.Valid`).
Times are nanoseconds of the monotonic clock.
-/

namespace BitTorrent

/-- `RequestInfo`: a block requested from a peer and not yet seen arriving.  `peer` is the
number of the session it was sent to. -/
structure RequestInfo where
  pieceIndex : Nat
  begin : Nat
  length : Nat
  requestedAt : Nat
  peer : Nat
  deriving DecidableEq, Repr

/-- The key of `activeRequests`: `fmt.Sprintf("%d:%d", pieceIndex, begin)`. -/
def requestKey (pieceIndex begin : Nat) : String := s!"{pieceIndex}:{begin}"

/-- The coordinator's state under `c.mu`. -/
structure Coordinator where
  activeRequests : List (String × RequestInfo)
  maxRequestsPerPeer : Nat
  requestTimeout : Nat
  downloadedPieces : Nat
  totalPieces : Nat
  deriving DecidableEq, Repr

namespace Coordinator

/-- `NewCoordinator`: ten requests per peer at most, a fifteen-second request timeout. -/
def new : Coordinator :=
  { activeRequests := [], maxRequestsPerPeer := 10, requestTimeout := 15000000000,
    downloadedPieces := 0, totalPieces := 0 }

/-- `countActiveRequestsForPeer`. -/
def countActiveRequestsForPeer (c : Coordinator) (peer : Nat) : Nat :=
  c.activeRequests.countP (·.2.peer = peer)

/-- The block loop of `requestPiecesFromPeer`: skip blocks already requested, stop once
`requestsToMake` requests went out, record each request that `RequestPiece` sent and stamp it
in the piece manager (whose error is only logged). -/
def requestBlocks (peer pieceIndex now requestsToMake : Nat) :
    List (Nat × Nat) → Nat → Coordinator × PieceManager × Peer → Coordinator × PieceManager × Peer
  | [], _, acc => acc
  | (begin, length) :: rest, requestsMade, (c, pm, p) =>
    if requestsMade ≥ requestsToMake then (c, pm, p)
    else
      let key := requestKey pieceIndex begin
      if (c.activeRequests.lookup key).isSome then
        requestBlocks peer pieceIndex now requestsToMake rest requestsMade (c, pm, p)
      else
        match p.requestPiece pieceIndex.toUInt32 begin.toUInt32 length.toUInt32 with
        | .error _ => requestBlocks peer pieceIndex now requestsToMake rest requestsMade (c, pm, p)
        | .ok p' =>
          let info : RequestInfo := ⟨pieceIndex, begin, length, now, peer⟩
          requestBlocks peer pieceIndex now requestsToMake rest (requestsMade + 1)
            ({ c with activeRequests := c.activeRequests ++ [(key, info)] },
              (pm.requestBlock pieceIndex begin length now).toOption.getD pm, p')

/-- `requestPiecesFromPeer` for session number `peer`. -/
def requestPiecesFromPeer (c : Coordinator) (pm : PieceManager) (p : Peer) (peer : Nat)
    (neededPieces : List Nat) (now : Nat) : Coordinator × PieceManager × Peer :=
  let activeCount := c.countActiveRequestsForPeer peer
  if activeCount ≥ c.maxRequestsPerPeer then (c, pm, p)
  else
    match p.bitfield with
    | none => (c, pm, p)
    | some bitfield =>
      if (neededPieces.filter p.hasPiece).isEmpty then (c, pm, p)
      else
        match pm.selectPieceForPeer bitfield with
        | .error _ => (c, pm, p)
        | .ok pieceIndex =>
          requestBlocks peer pieceIndex now (c.maxRequestsPerPeer - activeCount)
            (pm.getBlockRequests pieceIndex) 0 (c, pm, p)

/-- The interest loop of `processDownloadCycle`, at one session. -/
def ensureInterestedAt (neededPieces : List Nat) (peers : List Peer) (peer : Nat) : List Peer :=
  peers.modify (fun p => (p.ensureInterested neededPieces).1) peer

/-- The request loop of `processDownloadCycle`, at one session. -/
def requestAt (neededPieces : List Nat) (now : Nat) :
    Coordinator × PieceManager × List Peer → Nat → Coordinator × PieceManager × List Peer
  | (c, pm, peers), peer =>
    match peers[peer]? with
    | some p =>
      if p.canDownload then
        let (c', pm', p') := c.requestPiecesFromPeer pm p peer neededPieces now
        (c', pm', peers.set peer p')
      else (c, pm, peers)
    | none => (c, pm, peers)

/-- `updateProgress`. -/
def updateProgress (c : Coordinator) (pm : PieceManager) : Coordinator :=
  { c with downloadedPieces := pm.getProgressCounts.1, totalPieces := pm.getProgressCounts.2 }

/-- `processDownloadCycle`, with `connected` the sessions `GetConnectedPeers` returned. -/
def processDownloadCycle (c : Coordinator) (pm : PieceManager) (peers : List Peer)
    (connected : List Nat) (now : Nat) : Coordinator × PieceManager × List Peer :=
  if connected = [] then (c, pm, peers)
  else if pm.getNeededPieces = [] then (c, pm, peers)
  else
    let neededPieces := pm.getNeededPieces.take 500
    let peers := connected.foldl (ensureInterestedAt neededPieces) peers
    let (c, pm, peers) := connected.foldl (requestAt neededPieces now) (c, pm, peers)
    (c.updateProgress pm, pm, peers)

/-- `HandlePieceReceived`: drop the record of the block, if there is one. -/
def handlePieceReceived (c : Coordinator) (pieceIndex begin : Nat) : Coordinator :=
  { c with activeRequests := c.activeRequests.filter (·.1 ≠ requestKey pieceIndex begin) }

/-- `cleanupTimedOutRequests`: drop every record older than `requestTimeout`. -/
def cleanupTimedOutRequests (c : Coordinator) (now : Nat) : Coordinator :=
  { c with activeRequests :=
      c.activeRequests.filter fun e => !(now - e.2.requestedAt > c.requestTimeout) }

end Coordinator

end BitTorrent
