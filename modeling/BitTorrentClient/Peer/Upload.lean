import BitTorrentClient.Peer.Manager
import BitTorrentClient.Piece.Lifecycle

/-!
# Serving blocks

`peer.Manager` has an upload path: `handlePieceRequest` answers a REQUEST from disk when our
bitfield has the piece and the session `CanUpload`, and `connectToPeer` sends a new session our
bitfield when `hasPieces`.  Both read state that only two methods write.  Our bitfield changes
only in `BroadcastHave`, through `setPiece`; a session's `AmChoking` starts `true` and only
`Peer.Unchoke` clears it.

`Swarm` is the peer manager with its sessions and its piece store, and `Swarm.step` one event of
any of their goroutines: a session joining, a receive loop reading a message, the message loop
handling one (a remote peer sends what it likes), `BroadcastHave`, `Choke` and `Unchoke`, the
coordinator's `Interested`, `NotInterested` and `RequestPiece`, a connection dropping, a session
leaving the map, a step of the piece store, and the two setters.

* `Traced.step` — what one event keeps: every PIECE a session was sent, every BITFIELD, every
  cleared `AmChoking`, every bit of our bitfield and every uploaded byte is accounted for by an
  `Unchoke` or a `BroadcastHave` earlier in the run;
* **`served_only_after`** — so on every run from `NewManager`, a session is sent a PIECE only
  once the run unchoked it and only for a piece the run broadcast, a BITFIELD only after some
  broadcast, and `BytesUploaded` grows only after both.  Nothing in the program calls
  `BroadcastHave` or `Unchoke`: the client never sends a block or a bitfield.
-/

namespace BitTorrent

namespace Peer

/-- `Peer.Choke` (`choking = true`) and `Peer.Unchoke`: the flag is set first, then CHOKE or
UNCHOKE is sent; an error from the send leaves the flag set. -/
def setChoking (p : Peer) (choking : Bool) : Peer × Option String :=
  let p' := { p with state := { p.state with amChoking := choking } }
  match p'.sendMessage ⟨if choking then msgChoke else msgUnchoke, []⟩ with
  | .ok p'' => (p'', none)
  | .error e => (p', some e)

/-- `Peer.Choke`. -/
def choke (p : Peer) : Peer × Option String := p.setChoking true

/-- `Peer.Unchoke`. -/
def unchoke (p : Peer) : Peer × Option String := p.setChoking false

/-- A session after sending `msg` whatever the outcome: the callers here drop the error. -/
def sendTo (msg : Message) (p : Peer) : Peer := (p.sendMessage msg).toOption.getD p

end Peer

namespace PeerManager

/-- `Manager.hasPieces`. -/
def hasPieces (m : PeerManager) : Bool := m.bitfield.any (· != 0)

/-- `Manager.getBitfield`: a copy of our bitfield. -/
def getBitfield (m : PeerManager) : Bytes := m.bitfield

end PeerManager

/-- The peer manager with its sessions: its state, the piece store it reads and feeds, every
session opened so far (numbered in order of opening), and the numbers of those in its map. -/
structure Swarm (D : Type) where
  mgr : PeerManager
  store : Store D
  peers : List Peer
  registered : List Nat

/-- What can happen next. -/
inductive SwarmEvent where
  /-- `connectToPeer`: a session finishes its handshake, joins the map, and is sent our
  bitfield if `hasPieces`. -/
  | connect
  /-- Session `peer`'s receive loop reads `msg` off the wire. -/
  | receive (peer : Nat) (msg : Option Message)
  /-- The message loop runs `handlePeerMessage` on a message session `peer` forwarded. -/
  | handle (peer : Nat) (msg : Option Message)
  /-- `BroadcastHave(index)`. -/
  | broadcastHave (index : Nat)
  /-- `Peer.Choke` on session `peer`. -/
  | choke (peer : Nat)
  /-- `Peer.Unchoke` on session `peer`. -/
  | unchoke (peer : Nat)
  /-- `Peer.Interested` or `Peer.NotInterested`, as `EnsureInterested` calls them. -/
  | interest (peer : Nat) (interested : Bool)
  /-- `Peer.RequestPiece`, as the coordinator calls it. -/
  | request (peer : Nat) (index begin length : UInt32)
  /-- Session `peer`'s connection fails: its context is cancelled. -/
  | disconnect (peer : Nat)
  /-- `removePeer` (or `cleanup`) drops a disconnected session from the map. -/
  | remove (peer : Nat)
  /-- A step of the piece store's goroutines. -/
  | store (a : Action)
  /-- `SetPieceManager`. -/
  | setPieceManager
  /-- `SetPieceHandler`. -/
  | setPieceHandler
  deriving DecidableEq

namespace Swarm

variable {D : Type}

/-- `NewManager(infoHash, peerID, numPieces)` beside a piece store, no session yet. -/
def init (numPieces : Nat) (store : Store D) : Swarm D :=
  { mgr := PeerManager.new numPieces, store := store, peers := [], registered := [] }

/-- Change session `i`, if there is one. -/
def onPeer (s : Swarm D) (i : Nat) (f : Peer → Peer) : Option (Swarm D) :=
  match s.peers[i]? with
  | some p => some { s with peers := s.peers.set i (f p) }
  | none => none

/-- Run one event; `none` when it cannot happen in this state (or the process panics). -/
def step (dm : DiskManager D) (s : Swarm D) : SwarmEvent → Option (Swarm D)
  | .connect =>
    if s.registered.length < 50 then
      let peer := if s.mgr.hasPieces then
        Peer.new.sendTo (Message.newBitfieldMessage s.mgr.getBitfield) else Peer.new
      some { s with peers := s.peers ++ [peer], registered := s.registered ++ [s.peers.length] }
    else none
  | .receive i msg =>
    match s.peers[i]? with
    | some p => if p.connected then some { s with peers := s.peers.set i (p.receive msg) } else none
    | none => none
  | .handle i msg =>
    match s.peers[i]? with
    | some p =>
      match s.mgr.handlePeerMessage dm s.store p msg with
      | .ok (m, st, p', _) => some { s with mgr := m, store := st, peers := s.peers.set i p' }
      | _ => none
    | none => none
  | .broadcastHave index =>
    some { s with
      peers := s.registered.foldl
        (fun ps i => ps.modify (Peer.sendTo (Message.newHaveMessage index.toUInt32)) i) s.peers
      mgr := s.mgr.setPiece index }
  | .choke i => s.onPeer i fun p => p.choke.1
  | .unchoke i => s.onPeer i fun p => p.unchoke.1
  | .interest i b => s.onPeer i fun p => (p.setInterest b).1
  | .request i index begin length =>
    s.onPeer i fun p => (p.requestPiece index begin length).toOption.getD p
  | .disconnect i => s.onPeer i fun p => { p with connected := false }
  | .remove i =>
    match s.peers[i]? with
    | some p => if p.connected then none else some { s with registered := s.registered.erase i }
    | none => none
  | .store a => (Store.step dm s.store a).map fun st => { s with store := st }
  | .setPieceManager => some { s with mgr := { s.mgr with hasPieceManager := true } }
  | .setPieceHandler => some { s with mgr := { s.mgr with hasPieceHandler := true } }

/-- Run events in order. -/
def run (dm : DiskManager D) : Swarm D → List SwarmEvent → Option (Swarm D)
  | s, [] => some s
  | s, e :: es => (step dm s e).bind (run dm · es)

end Swarm

/-! ## Sessions -/

namespace Peer

/-- From `p` to `p'` the session sent nothing but messages other than BITFIELD and PIECE, and
did not clear `AmChoking`. -/
def Quiet (p p' : Peer) : Prop :=
  (p'.state.amChoking = false → p.state.amChoking = false) ∧
    ∃ extra, p'.sent = p.sent ++ extra ∧ ∀ msg ∈ extra, msg.id ≠ msgBitfield ∧ msg.id ≠ msgPiece

lemma Quiet.refl (p : Peer) : Quiet p p := ⟨id, [], by simp, by simp⟩

lemma sendMessage_ok {p p' : Peer} {msg : Message} (h : p.sendMessage msg = .ok p') :
    p' = { p with sent := p.sent ++ [msg] } := by
  unfold sendMessage at h
  split at h
  · exact (Except.ok.inj h).symm
  · cases h

/-- Sending a message that is neither BITFIELD nor PIECE keeps a session quiet. -/
lemma quiet_sendMessage {p p' : Peer} {msg : Message} (h : p.sendMessage msg = .ok p')
    (hb : msg.id ≠ msgBitfield) (hp : msg.id ≠ msgPiece) : Quiet p p' := by
  obtain rfl := sendMessage_ok h
  exact ⟨id, [msg], rfl, by simpa using ⟨hb, hp⟩⟩

lemma quiet_sendTo (p : Peer) {msg : Message} (hb : msg.id ≠ msgBitfield)
    (hp : msg.id ≠ msgPiece) : Quiet p (sendTo msg p) := by
  unfold sendTo
  cases h : p.sendMessage msg with
  | error => exact Quiet.refl p
  | ok p' => exact quiet_sendMessage h hb hp

lemma Quiet.trans {p p' p'' : Peer} (h : Quiet p p') (h' : Quiet p' p'') : Quiet p p'' := by
  obtain ⟨hc, e, he, hm⟩ := h
  obtain ⟨hc', e', he', hm'⟩ := h'
  refine ⟨hc ∘ hc', e ++ e', by rw [he', he, List.append_assoc], fun msg hmsg => ?_⟩
  rcases List.mem_append.mp hmsg with hmsg | hmsg
  · exact hm msg hmsg
  · exact hm' msg hmsg

/-- The receive loop's `handleMessage` never touches `AmChoking`. -/
lemma handleMessage_amChoking {p p' : Peer} {msg : Option Message}
    (h : p.handleMessage msg = .ok p') : p'.state.amChoking = p.state.amChoking := by
  cases msg with
  | none => cases h; rfl
  | some msg =>
    simp only [handleMessage] at h
    split_ifs at h
    all_goals first
      | (cases h; rfl)
      | (split at h
         · cases h; unfold setPieceUnsafe; split <;> rfl
         · cases h)
      | (split at h
         · cases h; rfl
         · cases h)

lemma quiet_receive (p : Peer) (msg : Option Message) : Quiet p (p.receive msg) := by
  refine ⟨fun h => ?_, [], by simp [(receive_connected_sent p msg).2], by simp⟩
  unfold receive at h
  split at h
  · rename_i p' hm
    exact handleMessage_amChoking hm ▸ h
  · exact h

lemma quiet_setInterest (p : Peer) (b : Bool) : Quiet p (p.setInterest b).1 := by
  have h0 : Quiet p { p with state := { p.state with amInterested := b } } :=
    ⟨id, [], by simp, by simp⟩
  unfold setInterest
  dsimp only
  split
  · rename_i p'' h
    exact h0.trans (quiet_sendMessage h (by split <;> decide) (by split <;> decide))
  · exact h0

lemma quiet_choke (p : Peer) : Quiet p p.choke.1 := by
  have h0 : Quiet p { p with state := { p.state with amChoking := true } } :=
    ⟨fun h => Bool.noConfusion h, [], by simp, by simp⟩
  unfold choke setChoking
  dsimp only
  split
  · rename_i p'' h
    exact h0.trans (quiet_sendMessage h (by decide) (by decide))
  · exact h0

lemma quiet_requestPiece (p : Peer) (index begin length : UInt32) :
    Quiet p ((p.requestPiece index begin length).toOption.getD p) := by
  cases h : p.requestPiece index begin length with
  | error => exact Quiet.refl p
  | ok p' =>
    obtain ⟨-, -, rfl⟩ := requestPiece_ok h
    exact ⟨id, [_], rfl, by
      simpa using ⟨show msgRequest ≠ msgBitfield by decide, show msgRequest ≠ msgPiece by decide⟩⟩

/-- `Unchoke` clears `AmChoking` and sends only UNCHOKE. -/
lemma unchoke_sent (p : Peer) :
    (p.unchoke.1.sent = p.sent ∨ p.unchoke.1.sent = p.sent ++ [⟨msgUnchoke, []⟩]) := by
  unfold unchoke setChoking
  dsimp only
  split
  · rename_i p'' h
    rw [sendMessage_ok h]
    exact .inr rfl
  · exact .inl rfl

end Peer

/-! ## What a run accounts for -/

/-- What the events `es` of a run let session `i` hold: it is unchoked only if the run unchoked
it; it was sent a BITFIELD only after some broadcast, and a PIECE only once the run unchoked it
and only for a piece the run broadcast. -/
structure SessionTraced (es : List SwarmEvent) (i : Nat) (p : Peer) : Prop where
  unchoked : p.state.amChoking = false → .unchoke i ∈ es
  bitfield : ∀ msg ∈ p.sent, msg.id = msgBitfield → ∃ j, .broadcastHave j ∈ es
  piece : ∀ msg ∈ p.sent, msg.id = msgPiece → .unchoke i ∈ es ∧
    ∃ index begin block, msg = Message.newPieceMessage index begin block ∧
      .broadcastHave index.toNat ∈ es

/-- What the events `es` let the manager hold: a bit of our bitfield only for a piece the run
broadcast, a non-zero bitfield only after a broadcast, and uploaded bytes only after an unchoke
and a broadcast. -/
structure ManagerTraced (es : List SwarmEvent) (m : PeerManager) : Prop where
  has : ∀ j, m.hasPieceIndex j = true → .broadcastHave j ∈ es
  any : m.hasPieces = true → ∃ j, .broadcastHave j ∈ es
  uploaded : 0 < m.bytesUploaded → ∃ i j, .unchoke i ∈ es ∧ .broadcastHave j ∈ es

section Traced

variable {es es' : List SwarmEvent}

lemma SessionTraced.mono {i : Nat} {p : Peer} (h : SessionTraced es i p) (hs : es ⊆ es') :
    SessionTraced es' i p :=
  ⟨fun hc => hs (h.unchoked hc), fun msg hm hb => (h.bitfield msg hm hb).imp fun _ hj => hs hj,
    fun msg hm hp => (h.piece msg hm hp).imp (@hs _) fun ⟨x, b, bl, he, hj⟩ => ⟨x, b, bl, he, hs hj⟩⟩

lemma ManagerTraced.mono {m : PeerManager} (h : ManagerTraced es m) (hs : es ⊆ es') :
    ManagerTraced es' m :=
  ⟨fun j hj => hs (h.has j hj), fun ha => (h.any ha).imp fun _ hj => hs hj,
    fun hu => (h.uploaded hu).imp fun _ ⟨j, hi, hj⟩ => ⟨j, hs hi, hs hj⟩⟩

lemma SessionTraced.quiet {i : Nat} {p p' : Peer} (h : SessionTraced es i p) (hq : Peer.Quiet p p') :
    SessionTraced es i p' := by
  obtain ⟨hc, extra, hsent, hx⟩ := hq
  refine ⟨h.unchoked ∘ hc, fun msg hm hb => ?_, fun msg hm hp => ?_⟩ <;>
    rw [hsent, List.mem_append] at hm <;> rcases hm with hm | hm
  · exact h.bitfield msg hm hb
  · exact absurd hb (hx msg hm).1
  · exact h.piece msg hm hp
  · exact absurd hp (hx msg hm).2

lemma SessionTraced.unchoke {i : Nat} {p : Peer} (h : SessionTraced es i p)
    (hu : .unchoke i ∈ es) : SessionTraced es i p.unchoke.1 := by
  refine ⟨fun _ => hu, fun msg hm hb => ?_, fun msg hm hp => ?_⟩ <;>
    rcases Peer.unchoke_sent p with hs | hs <;> rw [hs] at hm
  · exact h.bitfield msg hm hb
  · rcases List.mem_append.mp hm with hm | hm
    · exact h.bitfield msg hm hb
    · simp only [List.mem_singleton] at hm; subst hm; cases hb
  · exact h.piece msg hm hp
  · rcases List.mem_append.mp hm with hm | hm
    · exact h.piece msg hm hp
    · simp only [List.mem_singleton] at hm; subst hm; cases hp


end Traced

/-! ## The message handler -/

namespace PeerManager

variable {D : Type} {dm : DiskManager D} {m m' : PeerManager} {s : Store D} {peer peer' : Peer}

/-- What `handlePieceRequest` can do: nothing, or, for a piece in our bitfield asked for by a
session that may download from us, count a block and send it. -/
lemma handlePieceRequest_ok {index begin length : UInt32}
    (h : m.handlePieceRequest dm s peer index begin length = .ok (m', peer')) :
    (m' = m ∧ peer' = peer) ∨ ∃ block : Bytes, m.hasPieceIndex index.toNat = true ∧
      peer.canUpload = true ∧ m' = { m with bytesUploaded := m.bytesUploaded + block.length } ∧
      peer' = peer.sendTo (Message.newPieceMessage index begin block) := by
  unfold handlePieceRequest at h
  split at h
  · cases h; exact .inl ⟨rfl, rfl⟩
  · rename_i hg
    simp only [Bool.or_eq_true, Bool.not_eq_true', not_or, Bool.not_eq_false] at hg
    split at h
    · cases h; exact .inr ⟨_, hg.1.1, hg.1.2, rfl, rfl⟩
    · cases h; exact .inl ⟨rfl, rfl⟩
    · cases h

lemma handlePieceData_ok {index begin : UInt32} {block : Bytes} {r : Handled D}
    (h : m.handlePieceData s peer index begin block = .ok r) :
    r.1 = { m with bytesDownloaded := m.bytesDownloaded + block.length } ∧ r.2.2.1 = peer := by
  unfold handlePieceData at h
  dsimp only at h
  split_ifs at h <;> (try split at h) <;> cases h <;> exact ⟨rfl, rfl⟩

/-- What `handlePeerMessage` can do to our bitfield, our upload counter and the sending session:
nothing, or serve a block as `handlePieceRequest` does. -/
lemma handlePeerMessage_ok {msg : Option Message} {r : Handled D}
    (h : m.handlePeerMessage dm s peer msg = .ok r) :
    (r.1.bitfield = m.bitfield ∧ r.1.bytesUploaded = m.bytesUploaded ∧ r.2.2.1 = peer) ∨
    ∃ (index begin : UInt32) (block : Bytes), m.hasPieceIndex index.toNat = true ∧
      peer.canUpload = true ∧ r.1 = { m with bytesUploaded := m.bytesUploaded + block.length } ∧
      r.2.2.1 = peer.sendTo (Message.newPieceMessage index begin block) := by
  cases msg with
  | none => cases h; exact .inl ⟨rfl, rfl, rfl⟩
  | some x =>
    simp only [handlePeerMessage] at h
    split at h
    · split at h
      · rename_i index begin length _
        split at h
        · rename_i m₁ p₁ hr
          cases h
          rcases handlePieceRequest_ok hr with ⟨rfl, rfl⟩ | ⟨block, hb, hu, rfl, rfl⟩
          · exact .inl ⟨rfl, rfl, rfl⟩
          · exact .inr ⟨index, begin, block, hb, hu, rfl, rfl⟩
        · cases h
        · cases h
      · cases h; exact .inl ⟨rfl, rfl, rfl⟩
    · split at h
      · split at h
        · obtain ⟨h₁, h₂⟩ := handlePieceData_ok h
          exact .inl ⟨by rw [h₁], by rw [h₁], h₂⟩
        · cases h; exact .inl ⟨rfl, rfl, rfl⟩
      · cases h; exact .inl ⟨rfl, rfl, rfl⟩

end PeerManager

/-! ## One step, then every run -/

section Traced

variable {es : List SwarmEvent}

lemma ManagerTraced.of_eq {m m' : PeerManager} (h : ManagerTraced es m)
    (hb : m'.bitfield = m.bitfield) (hu : m'.bytesUploaded = m.bytesUploaded) :
    ManagerTraced es m' :=
  ⟨fun j hj => h.has j (by rwa [PeerManager.hasPieceIndex, hb] at hj),
    fun ha => h.any (by rwa [PeerManager.hasPieces, hb] at ha), fun hu' => h.uploaded (hu ▸ hu')⟩

/-- `setPiece` sets only the bit of the piece broadcast. -/
lemma ManagerTraced.setPiece {m : PeerManager} (h : ManagerTraced es m) {index : Nat}
    (hi : .broadcastHave index ∈ es) : ManagerTraced es (m.setPiece index) := by
  refine ⟨fun j hj => ?_, fun _ => ⟨index, hi⟩, h.uploaded⟩
  simp only [PeerManager.hasPieceIndex, PeerManager.setPiece, bitfieldHas_bitfieldSet,
    Bool.or_eq_true, Bool.and_eq_true, decide_eq_true_eq] at hj
  rcases hj with hj | ⟨rfl, -⟩
  · exact h.has j hj
  · exact hi

/-- Sending `msg` on session `i` keeps it accounted for, if a BITFIELD comes after a broadcast
and a PIECE after an unchoke and for a broadcast piece. -/
lemma SessionTraced.sendTo {i : Nat} {p : Peer} (h : SessionTraced es i p) {msg : Message}
    (hb : msg.id = msgBitfield → ∃ j, .broadcastHave j ∈ es)
    (hp : msg.id = msgPiece → .unchoke i ∈ es ∧ ∃ index begin block,
      msg = Message.newPieceMessage index begin block ∧ .broadcastHave index.toNat ∈ es) :
    SessionTraced es i (p.sendTo msg) := by
  unfold Peer.sendTo
  cases hs : p.sendMessage msg with
  | error => exact h
  | ok p' =>
    obtain rfl := Peer.sendMessage_ok hs
    refine ⟨h.unchoked, fun x hm hx => ?_, fun x hm hx => ?_⟩ <;>
      rcases List.mem_append.mp hm with hm | hm
    · exact h.bitfield x hm hx
    · simp only [List.mem_singleton] at hm; subst hm; exact hb hx
    · exact h.piece x hm hx
    · simp only [List.mem_singleton] at hm; subst hm; exact hp hx

/-- Sessions of a list, each accounted for by `es`. -/
def SessionsTraced (es : List SwarmEvent) (ps : List Peer) : Prop :=
  ∀ i p, ps[i]? = some p → SessionTraced es i p

lemma SessionsTraced.set {ps : List Peer} (h : SessionsTraced es ps) {i : Nat} {p : Peer}
    (hp : SessionTraced es i p) : SessionsTraced es (ps.set i p) := fun j q hq => by
  by_cases hij : i = j
  · subst hij
    rw [List.getElem?_set_self'] at hq
    cases hx : ps[i]? <;> simp only [hx, Option.map_eq_map, Option.map_none', Option.map_some',
      Function.const_apply, Option.some.injEq, reduceCtorEq] at hq
    exact hq ▸ hp
  · exact h j q (by rwa [List.getElem?_set_ne hij] at hq)

lemma SessionsTraced.modify {ps : List Peer} (h : SessionsTraced es ps) {f : Peer → Peer}
    {i : Nat} (hf : ∀ p, SessionTraced es i p → SessionTraced es i (f p)) :
    SessionsTraced es (ps.modify f i) := fun j q hq => by
  rw [List.getElem?_modify] at hq
  by_cases hij : i = j
  · subst hij
    cases hx : ps[i]? <;> simp only [hx, Option.map_eq_map, Option.map_none', Option.map_some',
      if_true, Option.some.injEq, reduceCtorEq] at hq
    exact hq ▸ hf _ (h i _ hx)
  · cases hx : ps[j]? <;> simp only [hx, hij, Option.map_eq_map, Option.map_none',
      Option.map_some', if_false, Option.some.injEq, reduceCtorEq] at hq
    exact hq ▸ h j _ hx

lemma SessionsTraced.append {ps : List Peer} (h : SessionsTraced es ps) {p : Peer}
    (hp : SessionTraced es ps.length p) : SessionsTraced es (ps ++ [p]) := fun j q hq => by
  rcases Nat.lt_or_ge j ps.length with hj | hj
  · rw [List.getElem?_append_left hj] at hq
    exact h j q hq
  · rw [List.getElem?_append_right hj] at hq
    cases hk : j - ps.length with
    | zero =>
      rw [hk] at hq
      cases hq
      obtain rfl : j = ps.length := by omega
      exact hp
    | succ k => rw [hk] at hq; cases hq

/-- `BroadcastHave`'s loop: a HAVE to each session of the map. -/
lemma SessionsTraced.foldl_sendTo {msg : Message} (hb : msg.id ≠ msgBitfield)
    (hp : msg.id ≠ msgPiece) :
    ∀ (l : List Nat) {ps : List Peer}, SessionsTraced es ps →
      SessionsTraced es (l.foldl (fun ps i => ps.modify (Peer.sendTo msg) i) ps)
  | [], _, h => h
  | _ :: l, _, h => SessionsTraced.foldl_sendTo hb hp l
    (h.modify fun p hq => hq.quiet (Peer.quiet_sendTo p hb hp))

/-- A session that has just joined: choking, and sent at most our bitfield. -/
lemma sessionTraced_connect {m : PeerManager} (hm : ManagerTraced es m) (i : Nat) :
    SessionTraced es i (if m.hasPieces then
      Peer.new.sendTo (Message.newBitfieldMessage m.getBitfield) else Peer.new) := by
  have hnew : SessionTraced es i Peer.new :=
    { unchoked := fun h => Bool.noConfusion h
      bitfield := fun _ h => by cases h
      piece := fun _ h => by cases h }
  split
  · exact hnew.sendTo (fun _ => hm.any ‹_›) (fun h => by cases h)
  · exact hnew

namespace Swarm

variable {D : Type} {dm : DiskManager D}

/-- The whole system accounted for by `es`. -/
def Traced (es : List SwarmEvent) (s : Swarm D) : Prop :=
  ManagerTraced es s.mgr ∧ SessionsTraced es s.peers

lemma Traced.mono {es' : List SwarmEvent} {s : Swarm D} (h : s.Traced es) (hs : es ⊆ es') :
    s.Traced es' :=
  ⟨h.1.mono hs, fun i p hp => (h.2 i p hp).mono hs⟩

lemma Traced.onPeer {s s' : Swarm D} (h : s.Traced es) {i : Nat} {f : Peer → Peer}
    (hst : s.onPeer i f = some s') (hf : ∀ p, SessionTraced es i p → SessionTraced es i (f p)) :
    s'.Traced es := by
  unfold Swarm.onPeer at hst
  split at hst
  · rename_i p hp
    cases hst
    exact ⟨h.1, h.2.set (hf p (h.2 i p hp))⟩
  · cases hst

lemma traced_init (n : Nat) (st : Store D) : (init n st).Traced [] := by
  refine ⟨⟨fun j hj => ?_, fun ha => ?_, fun hu => by cases hu⟩, fun _ _ h => by cases h⟩
  · simp [init, PeerManager.new, PeerManager.hasPieceIndex] at hj
  · simp [init, PeerManager.new, PeerManager.hasPieces] at ha

/-- **One event.**  Whatever the event, what the state holds stays accounted for by the run
extended with it. -/
theorem Traced.step {s s' : Swarm D} {e : SwarmEvent} (h : s.Traced es)
    (hst : s.step dm e = some s') : s'.Traced (es ++ [e]) := by
  have he : e ∈ es ++ [e] := List.mem_append_right _ (List.mem_singleton_self _)
  obtain ⟨hm, hp⟩ := h.mono (List.subset_append_left es [e])
  cases e with
  | connect =>
    simp only [Swarm.step] at hst
    split at hst
    · cases hst
      exact ⟨hm, hp.append (sessionTraced_connect hm _)⟩
    · cases hst
  | receive i msg =>
    simp only [Swarm.step] at hst
    split at hst
    · rename_i p hpi
      split_ifs at hst
      cases hst
      exact ⟨hm, hp.set ((hp i p hpi).quiet (Peer.quiet_receive p msg))⟩
    · cases hst
  | handle i msg =>
    simp only [Swarm.step] at hst
    split at hst
    · rename_i p hpi
      split at hst
      · rename_i m₁ st₁ p₁ _ hh
        cases hst
        rcases PeerManager.handlePeerMessage_ok hh with ⟨hb, hu, hpeer⟩ |
          ⟨index, begin, block, hhas, hcan, rfl, rfl⟩
        · exact ⟨hm.of_eq hb hu, hp.set ((show p₁ = p from hpeer) ▸ hp i p hpi)⟩
        · have hu : SwarmEvent.unchoke i ∈ es ++ [.handle i msg] :=
            (hp i p hpi).unchoked (by simp [Peer.canUpload] at hcan; exact hcan.1)
          have hb := hm.has _ hhas
          exact ⟨⟨hm.has, hm.any, fun _ => ⟨i, _, hu, hb⟩⟩,
            hp.set ((hp i p hpi).sendTo (fun h => by cases h) fun _ => ⟨hu, _, _, _, rfl, hb⟩)⟩
      · cases hst
    · cases hst
  | broadcastHave index =>
    cases hst
    exact ⟨hm.setPiece he, SessionsTraced.foldl_sendTo (show msgHave ≠ msgBitfield by decide)
      (show msgHave ≠ msgPiece by decide) _ hp⟩
  | choke i => exact Traced.onPeer ⟨hm, hp⟩ hst fun p hq => hq.quiet (Peer.quiet_choke p)
  | unchoke i => exact Traced.onPeer ⟨hm, hp⟩ hst fun p hq => hq.unchoke he
  | interest i b =>
    exact Traced.onPeer ⟨hm, hp⟩ hst fun p hq => hq.quiet (Peer.quiet_setInterest p b)
  | request i index begin length =>
    exact Traced.onPeer ⟨hm, hp⟩ hst fun p hq =>
      hq.quiet (Peer.quiet_requestPiece p index begin length)
  | disconnect i =>
    exact Traced.onPeer ⟨hm, hp⟩ hst fun p hq => hq.quiet ⟨id, [], by simp, by simp⟩
  | remove i =>
    simp only [Swarm.step] at hst
    split at hst
    · split_ifs at hst
      cases hst
      exact ⟨hm, hp⟩
    · cases hst
  | store a =>
    simp only [Swarm.step] at hst
    obtain ⟨st, -, rfl⟩ := Option.map_eq_some'.mp hst
    exact ⟨hm, hp⟩
  | setPieceManager => cases hst; exact ⟨hm.of_eq rfl rfl, hp⟩
  | setPieceHandler => cases hst; exact ⟨hm.of_eq rfl rfl, hp⟩

/-- **Every run.** -/
lemma Traced.run : ∀ {es es' : List SwarmEvent} {s s' : Swarm D}, s.Traced es →
    s.run dm es' = some s' → s'.Traced (es ++ es')
  | es, [], s, s', h, hr => by cases hr; simpa using h
  | es, e :: es', s, s', h, hr => by
    obtain ⟨s₁, h₁, h₂⟩ := Option.bind_eq_some.mp hr
    simpa using (h.step h₁).run h₂

/-- **A block is served only after `Unchoke` and `BroadcastHave`.**  On every run from
`NewManager`, whatever the remote peers send and however the goroutines interleave: a session
is sent a PIECE only if the run unchoked that session, and only for a piece the run broadcast; a
BITFIELD only if the run broadcast some piece; and `BytesUploaded` is positive only after an
`Unchoke` and a `BroadcastHave`.  The program calls neither, so it never uploads. -/
theorem served_only_after {n : Nat} {st : Store D} {es : List SwarmEvent} {s : Swarm D}
    (h : (init n st).run dm es = some s) :
    (∀ i p, s.peers[i]? = some p → ∀ msg ∈ p.sent,
      (msg.id = msgPiece → SwarmEvent.unchoke i ∈ es ∧
        ∃ index begin block, msg = Message.newPieceMessage index begin block ∧
          SwarmEvent.broadcastHave index.toNat ∈ es) ∧
      (msg.id = msgBitfield → ∃ j, SwarmEvent.broadcastHave j ∈ es)) ∧
    (0 < s.mgr.bytesUploaded → ∃ i j, SwarmEvent.unchoke i ∈ es ∧ SwarmEvent.broadcastHave j ∈ es) := by
  obtain ⟨hm, hp⟩ := (traced_init n st).run h
  exact ⟨fun i p hi msg hmsg => ⟨(hp i p hi).piece msg hmsg, (hp i p hi).bitfield msg hmsg⟩,
    hm.uploaded⟩

/-- A one-piece torrent downloaded and verified; then a session joins, is unchoked, says it is
interested, the piece is broadcast, and the session asks for the block. -/
def serveTrace : List SwarmEvent :=
  [.store (.addBlockData 0 0 [7]), .store .checkComplete, .store .setDownloaded, .store (.getData 0),
   .store (.verify 0), .store (.mark 0), .setPieceManager, .connect, .unchoke 0,
   .receive 0 (some ⟨msgInterested, []⟩), .broadcastHave 0,
   .handle 0 (some (Message.newRequestMessage 0 0 1))]

theorem served_only_after_sample :
    ∃ s, (init 1 (Store.init (PieceManager.new 1 1 1) ())).run Store.acceptAll serveTrace = some s ∧
    (∀ i p, s.peers[i]? = some p → ∀ msg ∈ p.sent,
      (msg.id = msgPiece → SwarmEvent.unchoke i ∈ serveTrace ∧
        ∃ index begin block, msg = Message.newPieceMessage index begin block ∧
          SwarmEvent.broadcastHave index.toNat ∈ serveTrace) ∧
      (msg.id = msgBitfield → ∃ j, SwarmEvent.broadcastHave j ∈ serveTrace)) ∧
    (0 < s.mgr.bytesUploaded →
      ∃ i j, SwarmEvent.unchoke i ∈ serveTrace ∧ SwarmEvent.broadcastHave j ∈ serveTrace) :=
  have h : ((init 1 (Store.init (PieceManager.new 1 1 1) ())).run Store.acceptAll serveTrace).isSome :=
    rfl
  ⟨_, (Option.some_get h).symm, served_only_after (Option.some_get h).symm⟩

end Swarm

end Traced

end BitTorrent
