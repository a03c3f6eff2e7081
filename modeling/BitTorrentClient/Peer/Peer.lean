import BitTorrentClient.Peer.Message

/-!
# A peer session

`peer.Peer`: one connection's choke and interest flags, the remote bitfield, and the messages
queued for the send loop.  `handleMessage` is the receive loop's step: it updates the flags and
the bitfield from the control messages, and an error from it (a HAVE with a malformed payload)
ends the loop, which cancels the session's context: the peer is no longer connected.

The connection, its goroutines and their timers are not modelled: `sendMessage` succeeds while
the session is connected and fails with the closed-connection error after; the select's third
case, a send channel still full after five seconds, is a timing outcome left out.
-/

namespace BitTorrent

/-- `PeerState`: who chokes whom, and who is interested. -/
structure PeerState where
  amChoking : Bool
  amInterested : Bool
  peerChoking : Bool
  peerInterested : Bool
  deriving DecidableEq, Repr

/-- `NewPeerState`: both sides choking, neither interested. -/
def newPeerState : PeerState :=
  { amChoking := true, amInterested := false, peerChoking := true, peerInterested := false }

/-- A peer session.  `bitfield` is `none` until the peer's first BITFIELD message; `sent` is
what `SendMessage` has queued, oldest first; `connected` is `IsConnected()`. -/
structure Peer where
  state : PeerState
  bitfield : Option Bytes
  sent : List Message
  connected : Bool
  deriving DecidableEq, Repr

namespace Peer

/-- `NewPeer` after a successful `Start`. -/
def new : Peer := { state := newPeerState, bitfield := none, sent := [], connected := true }

/-- `Peer.HasPiece`. -/
def hasPiece (p : Peer) (index : Nat) : Bool :=
  match p.bitfield with
  | none => false
  | some bf => bitfieldHas bf index

/-- `Peer.setPieceUnsafe` (and `SetPiece`): nothing before the first bitfield, and nothing for
an index past it. -/
def setPieceUnsafe (p : Peer) (index : Nat) : Peer :=
  match p.bitfield with
  | none => p
  | some bf => { p with bitfield := some (bitfieldSet bf index) }

/-- `Peer.CanDownload`. -/
def canDownload (p : Peer) : Bool := !p.state.peerChoking && p.state.amInterested

/-- `Peer.CanUpload`. -/
def canUpload (p : Peer) : Bool := !p.state.amChoking && p.state.peerInterested

/-- `Peer.SendMessage`. -/
def sendMessage (p : Peer) (msg : Message) : Except String Peer :=
  if p.connected then .ok { p with sent := p.sent ++ [msg] } else .error "peer connection closed"

/-- `Peer.RequestPiece`: refused while the peer chokes us. -/
def requestPiece (p : Peer) (index begin length : UInt32) : Except String Peer :=
  if p.state.peerChoking then .error "peer is choking us"
  else p.sendMessage (Message.newRequestMessage index begin length)

/-- `Peer.Interested` / `Peer.NotInterested`: the flag is set first, then the message is sent;
an error from the send leaves the flag set. -/
def setInterest (p : Peer) (interested : Bool) : Peer × Option String :=
  let p' := { p with state := { p.state with amInterested := interested } }
  let msg : Message := ⟨if interested then msgInterested else msgNotInterested, []⟩
  match p'.sendMessage msg with
  | .ok p'' => (p'', none)
  | .error e => (p', some e)

/-- `Peer.NeedsPieces`. -/
def needsPieces (p : Peer) (neededPieces : List Nat) : Bool :=
  p.bitfield.isSome && neededPieces.any p.hasPiece

/-- `Peer.EnsureInterested`. -/
def ensureInterested (p : Peer) (neededPieces : List Nat) : Peer × Option String :=
  let should := p.needsPieces neededPieces
  if should && !p.state.amInterested then p.setInterest true
  else if !should && p.state.amInterested then p.setInterest false
  else (p, none)

/-- `Peer.handleMessage`: the receive loop's update of the session from one message. -/
def handleMessage (p : Peer) : Option Message → Except String Peer
  | none => .ok p
  | some msg =>
    if msg.id = msgChoke then .ok { p with state := { p.state with peerChoking := true } }
    else if msg.id = msgUnchoke then .ok { p with state := { p.state with peerChoking := false } }
    else if msg.id = msgInterested then
      .ok { p with state := { p.state with peerInterested := true } }
    else if msg.id = msgNotInterested then
      .ok { p with state := { p.state with peerInterested := false } }
    else if msg.id = msgHave then
      match msg.parseHave with
      | .ok index => .ok (p.setPieceUnsafe index.toNat)
      | .error e => .error e
    else if msg.id = msgBitfield then
      match msg.parseBitfield with
      | .ok bitfield => .ok { p with bitfield := some bitfield }
      | .error e => .error e
    else .ok p

/-- `Peer.isControlMessage`: the messages the receive loop consumes itself. -/
def isControlMessage (msg : Message) : Bool :=
  msg.id = msgChoke || msg.id = msgUnchoke || msg.id = msgInterested ||
    msg.id = msgNotInterested || msg.id = msgHave || msg.id = msgBitfield

/-- One turn of `receiveLoop` after `ReadMessage` returned `msg`: `handleMessage`, and on its
error the loop returns and its deferred `cancel` disconnects the session. -/
def receive (p : Peer) (msg : Option Message) : Peer :=
  match p.handleMessage msg with
  | .ok p' => p'
  | .error _ => { p with connected := false }

/-! ## Lemmas -/

/-- `handleMessage` changes only the flags and the bitfield. -/
lemma handleMessage_frame {p p' : Peer} {msg : Option Message} (h : p.handleMessage msg = .ok p') :
    p'.connected = p.connected ∧ p'.sent = p.sent := by
  cases msg with
  | none => cases h; exact ⟨rfl, rfl⟩
  | some msg =>
    simp only [handleMessage] at h
    split_ifs at h
    all_goals first
      | (cases h; exact ⟨rfl, rfl⟩)
      | (split at h
         · cases h; unfold setPieceUnsafe; split <;> exact ⟨rfl, rfl⟩
         · cases h)
      | (split at h
         · cases h; exact ⟨rfl, rfl⟩
         · cases h)

/-- A message never reconnects a session, and never touches the queue of sent messages. -/
lemma receive_connected_sent (p : Peer) (msg : Option Message) :
    ((p.receive msg).connected = true → p.connected = true) ∧ (p.receive msg).sent = p.sent := by
  unfold receive
  split
  · rename_i p' h
    obtain ⟨hc, hs⟩ := handleMessage_frame h
    exact ⟨fun h' => hc ▸ h', hs⟩
  · exact ⟨fun h' => Bool.noConfusion h', rfl⟩

/-- A CHOKE makes the peer choke us. -/
@[simp] lemma receive_choke (p : Peer) : (p.receive (some ⟨msgChoke, []⟩)).state.peerChoking = true := by
  simp [receive, handleMessage]

/-- A request goes out only to a connected peer that is not choking us. -/
lemma requestPiece_ok {p p' : Peer} {index begin length : UInt32}
    (h : p.requestPiece index begin length = .ok p') :
    p.state.peerChoking = false ∧ p.connected = true ∧
      p' = { p with sent := p.sent ++ [Message.newRequestMessage index begin length] } := by
  unfold requestPiece sendMessage at h
  split at h
  · cases h
  · split at h
    · cases h; simp_all
    · cases h

/-! ## What HAVE records -/

/-- `setPieceUnsafe` clears no bit, and sets bit `i` when the bitfield is known and long
enough. -/
lemma setPieceUnsafe_hasPiece (p : Peer) (i j : Nat) :
    (p.setPieceUnsafe i).hasPiece j =
      (p.hasPiece j || p.bitfield.any fun bf => decide (i = j) && decide (i / 8 < bf.length)) := by
  unfold setPieceUnsafe hasPiece
  cases hb : p.bitfield <;> simp [hb, bitfieldHas_bitfieldSet]

/-- A message other than BITFIELD clears no bit of the remote bitfield. -/
lemma handleMessage_hasPiece {p p' : Peer} {msg : Option Message}
    (hmsg : ∀ m, msg = some m → m.id ≠ msgBitfield) (h : p.handleMessage msg = .ok p') {j : Nat}
    (hj : p.hasPiece j = true) : p'.hasPiece j = true := by
  cases msg with
  | none => cases h; exact hj
  | some m =>
    have hb := hmsg m rfl
    simp only [handleMessage, hb, if_false] at h
    split_ifs at h
    all_goals first
      | (cases h; exact hj)
      | (split at h
         · cases h; simp [setPieceUnsafe_hasPiece, hj]
         · cases h)

/-- HAVE(i) on a session whose bitfield is known and covers `i` sets bit `i`. -/
lemma handleMessage_have {p p' : Peer} {bf : Bytes} {i : UInt32} (hbf : p.bitfield = some bf)
    (hi : i.toNat < 8 * bf.length) (h : p.handleMessage (some (Message.newHaveMessage i)) = .ok p') :
    p'.hasPiece i.toNat = true := by
  simp only [handleMessage, show (Message.newHaveMessage i).id = msgHave from rfl,
    (Message.parse_new i 0 0 [] [] 0).1, show msgHave ≠ msgChoke by decide,
    show msgHave ≠ msgUnchoke by decide, show msgHave ≠ msgInterested by decide,
    show msgHave ≠ msgNotInterested by decide, if_false, if_true, Except.ok.injEq] at h
  subst h
  simp [setPieceUnsafe_hasPiece, hbf]
  omega

/-- The receive loop's `handleMessage` over a sequence of messages, stopping at the first
error (on which the loop returns). -/
def handleMessages (p : Peer) (msgs : List (Option Message)) : Except String Peer :=
  msgs.foldlM handleMessage p

/-- A run of messages that succeeds handles its first message successfully, then the rest. -/
lemma handleMessages_cons {p p' : Peer} {msg : Option Message} {msgs : List (Option Message)}
    (h : handleMessages p (msg :: msgs) = .ok p') :
    ∃ q, p.handleMessage msg = .ok q ∧ handleMessages q msgs = .ok p' := by
  simp only [handleMessages, List.foldlM_cons] at h
  cases hm : p.handleMessage msg with
  | error e => rw [hm] at h; cases h
  | ok q => rw [hm] at h; exact ⟨q, rfl, h⟩

lemma handleMessages_hasPiece {j : Nat} :
    ∀ {p p' : Peer} {msgs : List (Option Message)}, (∀ m, some m ∈ msgs → m.id ≠ msgBitfield) →
      handleMessages p msgs = .ok p' → p.hasPiece j = true → p'.hasPiece j = true
  | _, _, [], _, h, hj => by cases h; exact hj
  | _, _, _ :: _, hnb, h, hj => by
    obtain ⟨q, hm, h⟩ := handleMessages_cons h
    exact handleMessages_hasPiece (fun m hm' => hnb m (List.mem_cons_of_mem _ hm')) h
      (handleMessage_hasPiece (fun m he => hnb m (he ▸ List.mem_cons_self _ _)) hm hj)

/-- **A HAVE is kept until the next BITFIELD.**  On a session whose bitfield is known and covers
piece `i`, once HAVE(i) has been handled, `HasPiece(i)` holds after any later messages up to the
next BITFIELD. -/
theorem have_kept_until_bitfield {p p' : Peer} {bf : Bytes} {i : UInt32}
    (msgs : List (Option Message)) (hbf : p.bitfield = some bf) (hi : i.toNat < 8 * bf.length)
    (hnb : ∀ m, some m ∈ msgs → m.id ≠ msgBitfield)
    (h : handleMessages p (some (Message.newHaveMessage i) :: msgs) = .ok p') :
    p'.hasPiece i.toNat = true := by
  obtain ⟨q, hm, h⟩ := handleMessages_cons h
  exact handleMessages_hasPiece hnb h (handleMessage_have hbf hi hm)

/-- A session that sent the empty bitfield of a torrent of up to eight pieces. -/
def emptyBitfieldPeer : Peer := { new with bitfield := some [0] }

theorem have_kept_until_bitfield_sample :
    ∃ p', emptyBitfieldPeer.bitfield = some [0] ∧ (3 : UInt32).toNat < 8 * [(0 : UInt8)].length ∧
      (∀ m, some m ∈ [some (⟨msgChoke, []⟩ : Message)] → m.id ≠ msgBitfield) ∧
      handleMessages emptyBitfieldPeer [some (Message.newHaveMessage 3), some ⟨msgChoke, []⟩] = .ok p' ∧
      p'.hasPiece (3 : UInt32).toNat = true :=
  have hnb : ∀ m, some m ∈ [some (⟨msgChoke, []⟩ : Message)] → m.id ≠ msgBitfield := fun m hm => by
    simp only [List.mem_singleton, Option.some.injEq] at hm
    subst hm
    decide
  ⟨_, rfl, by decide, hnb, rfl, have_kept_until_bitfield [some ⟨msgChoke, []⟩] rfl (by decide) hnb rfl⟩

/-- **A HAVE before any BITFIELD is dropped.**  A fresh session that handles HAVE(0) records
nothing: it is the fresh session again, and `HasPiece(0)` is false. -/
theorem have_before_bitfield_dropped :
    new.handleMessage (some (Message.newHaveMessage 0)) = .ok new ∧ new.hasPiece 0 = false :=
  ⟨rfl, rfl⟩

/-- Before the first BITFIELD no message gives the session a bitfield. -/
lemma handleMessage_bitfield_none {p p' : Peer} {msg : Option Message}
    (hmsg : ∀ m, msg = some m → m.id ≠ msgBitfield) (h : p.handleMessage msg = .ok p')
    (hp : p.bitfield = none) : p'.bitfield = none := by
  cases msg with
  | none => cases h; exact hp
  | some m =>
    simp only [handleMessage, hmsg m rfl, if_false] at h
    split_ifs at h
    all_goals first
      | (cases h; exact hp)
      | (split at h
         · cases h; simp [setPieceUnsafe, hp]
         · cases h)

lemma handleMessages_bitfield_none :
    ∀ {p p' : Peer} {msgs : List (Option Message)}, (∀ m, some m ∈ msgs → m.id ≠ msgBitfield) →
      handleMessages p msgs = .ok p' → p.bitfield = none → p'.bitfield = none
  | _, _, [], _, h, hp => by cases h; exact hp
  | _, _, _ :: _, hnb, h, hp => by
    obtain ⟨q, hm, h⟩ := handleMessages_cons h
    exact handleMessages_bitfield_none (fun m hm' => hnb m (List.mem_cons_of_mem _ hm')) h
      (handleMessage_bitfield_none (fun m he => hnb m (he ▸ List.mem_cons_self _ _)) hm hp)

/-- **What a fresh session records of HAVE.**  Up to its first BITFIELD a fresh session has no
bitfield, so `HasPiece` is false for every piece and every HAVE handled meanwhile is dropped.
Once a BITFIELD has given it a bitfield that covers piece `i`, HAVE(i) sets bit `i`, and the bit
stays set through every later message up to the next BITFIELD. -/
theorem have_recorded_once_bitfield_known :
    (∀ (msgs : List (Option Message)) (p : Peer), (∀ m, some m ∈ msgs → m.id ≠ msgBitfield) →
      handleMessages new msgs = .ok p → ∀ j, p.hasPiece j = false) ∧
    ∀ (pre post : List (Option Message)) (p p' : Peer) (bf : Bytes) (i : UInt32),
      handleMessages new pre = .ok p → p.bitfield = some bf → i.toNat < 8 * bf.length →
      (∀ m, some m ∈ post → m.id ≠ msgBitfield) →
      handleMessages p (some (Message.newHaveMessage i) :: post) = .ok p' →
      p'.hasPiece i.toNat = true := by
  refine ⟨fun msgs p hnb h j => ?_, fun pre post p p' bf i _ hbf hi hnb h => ?_⟩
  · simp [hasPiece, handleMessages_bitfield_none hnb h rfl]
  · obtain ⟨q, hm, h⟩ := handleMessages_cons h
    exact handleMessages_hasPiece hnb h (handleMessage_have hbf hi hm)

/-- HAVE(3) before the bitfield is dropped; after an empty one-byte bitfield it is kept through a
CHOKE. -/
theorem have_recorded_once_bitfield_known_sample :
    (∃ p, handleMessages new [some (Message.newHaveMessage 3)] = .ok p ∧ p.hasPiece 3 = false) ∧
    ∃ p p', handleMessages new [some (Message.newHaveMessage 3), some ⟨msgBitfield, [0]⟩] = .ok p ∧
      handleMessages p [some (Message.newHaveMessage 3), some ⟨msgChoke, []⟩] = .ok p' ∧
      p'.hasPiece (3 : UInt32).toNat = true :=
  have hhave : ∀ m, some m ∈ [some (Message.newHaveMessage 3)] → m.id ≠ msgBitfield := fun m hm => by
    simp only [List.mem_singleton, Option.some.injEq] at hm
    subst hm
    decide
  have hchoke : ∀ m, some m ∈ [some (⟨msgChoke, []⟩ : Message)] → m.id ≠ msgBitfield := fun m hm => by
    simp only [List.mem_singleton, Option.some.injEq] at hm
    subst hm
    decide
  ⟨⟨_, rfl, have_recorded_once_bitfield_known.1 _ _ hhave rfl 3⟩,
    _, _, rfl, rfl, have_recorded_once_bitfield_known.2
      [some (Message.newHaveMessage 3), some ⟨msgBitfield, [0]⟩] [some ⟨msgChoke, []⟩] _ _ [0] 3 rfl
      rfl (by decide) hchoke rfl⟩

end Peer

end BitTorrent
