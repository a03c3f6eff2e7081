import BitTorrentClient.Download.Coordinator

/-!
# The coordinator among the peer sessions

The coordinator runs beside the peer sessions: while it cycles, peers choke and unchoke us,
connections drop, blocks arrive and the timeout sweep runs.  `Client` is the state of that
system and `Client.step` one of these events; `Client.Reachable` closes it under any order.

* `Client.Valid` — what holds in every reachable state: the coordinator keeps its limits, the
  keys of `activeRequests` are distinct, each record is stored under the key of its own piece and
  offset, the REQUEST it records was queued on its session, and no session has more than
  `maxRequestsPerPeer` records;
* `step_removes` — what each event removes: `HandlePieceReceived` the record of its block, the
  timeout sweep the records older than `requestTimeout`, and no other event a record: not a
  CHOKE, not a disconnection, not a download cycle;
* **`requests_kept`** — the two together, over every run;
* `choked_request_kept` — so a record of a request to a peer that has since choked us is still
  there at the end of the next download cycle.
-/

namespace BitTorrent

/-- The download side of the client: the coordinator, the piece manager it asks, every session
opened so far (numbered in order of opening), and the numbers of the sessions in the peer
manager's map. -/
structure Client where
  coord : Coordinator
  pieces : PieceManager
  peers : List Peer
  registered : List Nat

/-- What can happen next. -/
inductive Event where
  /-- `processDownloadCycle`; `order` is the map's iteration order of the registered sessions. -/
  | cycle (now : Nat) (order : List Nat)
  /-- `HandlePieceReceived(pieceIndex, begin)`. -/
  | pieceReceived (pieceIndex begin : Nat)
  /-- `cleanupTimedOutRequests`. -/
  | timeout (now : Nat)
  /-- `connectToPeer`: a new session finishes its handshake and joins the map. -/
  | connect
  /-- Session `peer`'s receive loop reads `msg` off the wire. -/
  | receive (peer : Nat) (msg : Option Message)
  /-- Session `peer`'s connection fails: its context is cancelled. -/
  | disconnect (peer : Nat)
  /-- `removePeer` (or `cleanup`) drops a disconnected session from the map. -/
  | remove (peer : Nat)

namespace Client

/-- A client with no session yet. -/
def init (pm : PieceManager) : Client :=
  { coord := Coordinator.new, pieces := pm, peers := [], registered := [] }

/-- Run one event; `none` when it cannot happen in this state. -/
def step (s : Client) : Event → Option Client
  | .cycle now order =>
    if order.Perm s.registered then
      let (c, pm, peers) := s.coord.processDownloadCycle s.pieces s.peers order now
      some { s with coord := c, pieces := pm, peers := peers }
    else none
  | .pieceReceived i b => some { s with coord := s.coord.handlePieceReceived i b }
  | .timeout now => some { s with coord := s.coord.cleanupTimedOutRequests now }
  | .connect =>
    if s.registered.length < 50 then
      some { s with peers := s.peers ++ [Peer.new], registered := s.registered ++ [s.peers.length] }
    else none
  | .receive i msg =>
    match s.peers[i]? with
    | some p => if p.connected then some { s with peers := s.peers.set i (p.receive msg) } else none
    | none => none
  | .disconnect i =>
    match s.peers[i]? with
    | some p => some { s with peers := s.peers.set i { p with connected := false } }
    | none => none
  | .remove i =>
    match s.peers[i]? with
    | some p => if p.connected then none else some { s with registered := s.registered.erase i }
    | none => none

/-- The states reachable from `s₀`. -/
inductive Reachable (s₀ : Client) : Client → Prop where
  | init : Reachable s₀ s₀
  | step {s s' : Client} {e : Event} : Reachable s₀ s → step s e = some s' → Reachable s₀ s'

/-- Run a list of events in order. -/
def run : Client → List Event → Option Client
  | s, [] => some s
  | s, e :: es => (step s e).bind (run · es)

theorem run_reachable {s₀ : Client} :
    ∀ {s s' : Client} {es : List Event}, Reachable s₀ s → run s es = some s' → Reachable s₀ s'
  | _, _, [], hs, h => by cases h; exact hs
  | s, _, e :: es, hs, h => by
    simp only [run] at h
    cases hst : step s e with
    | none => simp [hst] at h
    | some s₁ => simp only [hst, Option.bind_some] at h; exact run_reachable (.step hs hst) h

end Client

/-! ## Sessions only add to what they sent -/

/-- From `ps` to `ps'` no session disappears and no session's queue of sent messages loses
anything. -/
def PeersGrow (ps ps' : List Peer) : Prop :=
  ∀ (i : Nat) (p : Peer), ps[i]? = some p → ∃ p' : Peer, ps'[i]? = some p' ∧ p.sent <+: p'.sent

namespace PeersGrow

lemma refl (ps : List Peer) : PeersGrow ps ps := fun _ p h => ⟨p, h, List.prefix_refl _⟩

lemma trans {ps ps' ps'' : List Peer} (h : PeersGrow ps ps') (h' : PeersGrow ps' ps'') :
    PeersGrow ps ps'' := fun i p hp => by
  obtain ⟨p', hp', hs⟩ := h i p hp
  obtain ⟨p'', hp'', hs'⟩ := h' i p' hp'
  exact ⟨p'', hp'', hs.trans hs'⟩

lemma set {ps : List Peer} {i : Nat} {p p' : Peer} (hp : ps[i]? = some p)
    (hs : p.sent <+: p'.sent) : PeersGrow ps (ps.set i p') := fun j q hq => by
  by_cases hij : i = j
  · subst hij
    rw [hp] at hq; cases hq
    exact ⟨p', by simp [List.getElem?_set, (List.getElem?_eq_some_iff.mp hp).1], hs⟩
  · exact ⟨q, by rw [List.getElem?_set_ne hij]; exact hq, List.prefix_refl _⟩

lemma modify {ps : List Peer} (f : Peer → Peer) (hf : ∀ p, p.sent <+: (f p).sent) (i : Nat) :
    PeersGrow ps (ps.modify f i) := fun j q hq => by
  rw [List.getElem?_modify]
  by_cases hij : i = j
  · subst hij; exact ⟨f q, by simp [hq], hf q⟩
  · exact ⟨q, by simp [hij, hq], List.prefix_refl _⟩

lemma append (ps extra : List Peer) : PeersGrow ps (ps ++ extra) := fun i p hp =>
  ⟨p, by rw [List.getElem?_append_left (List.getElem?_eq_some_iff.mp hp).1]; exact hp,
    List.prefix_refl _⟩

end PeersGrow

lemma Peer.sent_prefix_setInterest (p : Peer) (b : Bool) : p.sent <+: (p.setInterest b).1.sent := by
  unfold Peer.setInterest Peer.sendMessage
  dsimp only
  split_ifs <;> simp [List.prefix_append]

lemma Peer.sent_prefix_ensureInterested (p : Peer) (neededPieces : List Nat) :
    p.sent <+: (p.ensureInterested neededPieces).1.sent := by
  unfold Peer.ensureInterested
  dsimp only
  split_ifs
  · exact p.sent_prefix_setInterest true
  · exact p.sent_prefix_setInterest false
  · exact List.prefix_refl _

/-! ## The invariant of `activeRequests` -/

/-- A record as `requestPiecesFromPeer` writes it: under the key of its own piece and offset,
with its REQUEST queued on its session. -/
structure RequestValid (peers : List Peer) (e : String × RequestInfo) : Prop where
  key : e.1 = requestKey e.2.pieceIndex e.2.begin
  sent : ∃ p, peers[e.2.peer]? = some p ∧
    Message.newRequestMessage e.2.pieceIndex.toUInt32 e.2.begin.toUInt32 e.2.length.toUInt32 ∈ p.sent

lemma RequestValid.mono {ps ps' : List Peer} {e : String × RequestInfo} (h : RequestValid ps e)
    (hg : PeersGrow ps ps') : RequestValid ps' e := by
  obtain ⟨p, hp, hm⟩ := h.sent
  obtain ⟨p', hp', hs⟩ := hg _ p hp
  exact ⟨h.key, p', hp', hs.subset hm⟩

/-- The invariant of the coordinator's request table against the sessions. -/
structure Coordinator.Valid (c : Coordinator) (peers : List Peer) : Prop where
  keys : (c.activeRequests.map (·.1)).Nodup
  entries : ∀ e ∈ c.activeRequests, RequestValid peers e
  perPeer : ∀ peer, c.countActiveRequestsForPeer peer ≤ c.maxRequestsPerPeer

namespace Coordinator.Valid

variable {c : Coordinator} {ps ps' : List Peer}

lemma new (ps : List Peer) : Coordinator.new.Valid ps :=
  ⟨List.nodup_nil, fun _ h => (by cases h), fun _ => Nat.zero_le _⟩

lemma mono (h : c.Valid ps) (hg : PeersGrow ps ps') : c.Valid ps' :=
  ⟨h.keys, fun e he => (h.entries e he).mono hg, h.perPeer⟩

/-- Dropping records keeps the invariant. -/
lemma filter (h : c.Valid ps) (f : String × RequestInfo → Bool) :
    ({ c with activeRequests := c.activeRequests.filter f } : Coordinator).Valid ps := by
  refine ⟨?_, fun e he => h.entries e (List.mem_of_mem_filter he), fun peer => ?_⟩
  · exact (List.filter_sublist _).map _ |>.nodup h.keys
  · exact le_trans (List.Sublist.countP_le _ (List.filter_sublist _)) (h.perPeer peer)

end Coordinator.Valid

/-! ## One call of `requestPiecesFromPeer` -/

namespace Coordinator

lemma lookup_isSome_iff_mem {l : List (String × RequestInfo)} {k : String} :
    (l.lookup k).isSome ↔ k ∈ l.map (·.1) := by
  simp only [List.lookup_isSome_iff, beq_iff_eq, List.mem_map]
  exact ⟨fun ⟨p, hp, h⟩ => ⟨p, hp, h.symm⟩, fun ⟨p, hp, h⟩ => ⟨p, hp, h.symm⟩⟩

/-- What the block loop adds: records of session `peer`, under fresh keys, each with its REQUEST
queued, at most `requestsToMake - requestsMade` of them; nothing else of the coordinator
changes, and the session only gains sent messages. -/
lemma requestBlocks_spec (peer pieceIndex now requestsToMake : Nat) :
    ∀ (blocks : List (Nat × Nat)) (made : Nat) (c : Coordinator) (pm : PieceManager) (p : Peer),
      ∃ added, (requestBlocks peer pieceIndex now requestsToMake blocks made (c, pm, p)).1 =
          { c with activeRequests := c.activeRequests ++ added } ∧
        p.sent <+: (requestBlocks peer pieceIndex now requestsToMake blocks made (c, pm, p)).2.2.sent ∧
        added.length ≤ requestsToMake - made ∧
        (∀ e ∈ added, e.2.peer = peer ∧ e.1 = requestKey e.2.pieceIndex e.2.begin ∧
          Message.newRequestMessage e.2.pieceIndex.toUInt32 e.2.begin.toUInt32 e.2.length.toUInt32 ∈
            (requestBlocks peer pieceIndex now requestsToMake blocks made (c, pm, p)).2.2.sent) ∧
        ((c.activeRequests.map (·.1)).Nodup → ((c.activeRequests ++ added).map (·.1)).Nodup)
  | [], made, c, pm, p => ⟨[], by simp [requestBlocks], List.prefix_refl _, by simp, by simp,
      by simp⟩
  | (begin, length) :: rest, made, c, pm, p => by
    simp only [requestBlocks]
    split_ifs with hmade hfound
    · exact ⟨[], by simp, List.prefix_refl _, by simp, by simp, by simp⟩
    · exact requestBlocks_spec peer pieceIndex now requestsToMake rest made c pm p
    · split
      · exact requestBlocks_spec peer pieceIndex now requestsToMake rest made c pm p
      · rename_i p' hreq
        obtain ⟨-, -, rfl⟩ := Peer.requestPiece_ok hreq
        obtain ⟨added, hc, hs, hlen, hadded, hnodup⟩ := requestBlocks_spec peer pieceIndex now
          requestsToMake rest (made + 1) _ ((pm.requestBlock pieceIndex begin length now).toOption.getD pm)
          { p with sent := p.sent ++ [Message.newRequestMessage pieceIndex.toUInt32 begin.toUInt32
            length.toUInt32] }
        have hfresh : requestKey pieceIndex begin ∉ c.activeRequests.map (·.1) :=
          fun hk => hfound (lookup_isSome_iff_mem.mpr hk)
        refine ⟨(requestKey pieceIndex begin, ⟨pieceIndex, begin, length, now, peer⟩) :: added,
          by simp [hc], (List.prefix_append _ _).trans hs, by simp only [List.length_cons]; omega,
          ?_, fun hn => ?_⟩
        · intro e he
          rcases List.mem_cons.mp he with rfl | he
          · exact ⟨rfl, rfl, hs.subset (by simp)⟩
          · exact hadded e he
        · have := hnodup (by
            rw [List.map_append, List.nodup_append]
            exact ⟨hn, List.nodup_singleton _, List.disjoint_singleton.mpr hfresh⟩)
          simpa using this

/-- `requestPiecesFromPeer` either returns at one of its guards with nothing changed, or runs
the block loop on the selected piece with the session's remaining allowance. -/
lemma requestPiecesFromPeer_cases (c : Coordinator) (pm : PieceManager) (p : Peer) (peer : Nat)
    (neededPieces : List Nat) (now : Nat) :
    c.requestPiecesFromPeer pm p peer neededPieces now = (c, pm, p) ∨ ∃ pieceIndex,
      c.countActiveRequestsForPeer peer < c.maxRequestsPerPeer ∧
      c.requestPiecesFromPeer pm p peer neededPieces now = requestBlocks peer pieceIndex now
        (c.maxRequestsPerPeer - c.countActiveRequestsForPeer peer) (pm.getBlockRequests pieceIndex) 0
        (c, pm, p) := by
  unfold requestPiecesFromPeer
  dsimp only
  split_ifs with hcount
  · exact .inl rfl
  · exact .inl (by split <;> rfl)
  · split
    · exact .inl rfl
    · split
      · exact .inl rfl
      · exact .inr ⟨_, by omega, rfl⟩

/-- What one `requestPiecesFromPeer` call adds: records of that session under fresh keys, each
with its REQUEST queued, and never more than the session's remaining allowance. -/
lemma requestPiecesFromPeer_spec (c : Coordinator) (pm : PieceManager) (p : Peer) (peer : Nat)
    (neededPieces : List Nat) (now : Nat) :
    ∃ added, (c.requestPiecesFromPeer pm p peer neededPieces now).1 =
          { c with activeRequests := c.activeRequests ++ added } ∧
        p.sent <+: (c.requestPiecesFromPeer pm p peer neededPieces now).2.2.sent ∧
        (added = [] ∨ c.countActiveRequestsForPeer peer + added.length ≤ c.maxRequestsPerPeer) ∧
        (∀ e ∈ added, e.2.peer = peer ∧ e.1 = requestKey e.2.pieceIndex e.2.begin ∧
          Message.newRequestMessage e.2.pieceIndex.toUInt32 e.2.begin.toUInt32 e.2.length.toUInt32 ∈
            (c.requestPiecesFromPeer pm p peer neededPieces now).2.2.sent) ∧
        ((c.activeRequests.map (·.1)).Nodup → ((c.activeRequests ++ added).map (·.1)).Nodup) := by
  rcases requestPiecesFromPeer_cases c pm p peer neededPieces now with h | ⟨pieceIndex, hlt, h⟩ <;>
    rw [h]
  · exact ⟨[], by simp, List.prefix_refl _, .inl rfl, by simp, by simp⟩
  · obtain ⟨added, hc, hs, hlen, hadded, hnodup⟩ := requestBlocks_spec peer pieceIndex now
      (c.maxRequestsPerPeer - c.countActiveRequestsForPeer peer) (pm.getBlockRequests pieceIndex) 0
      c pm p
    exact ⟨added, hc, hs, .inr (by omega), hadded, hnodup⟩

end Coordinator

/-! ## A download cycle keeps the invariant -/

namespace Coordinator

variable {c : Coordinator} {ps : List Peer}

/-- Records of one session, appended within its allowance, keep every session within
`maxRequestsPerPeer`. -/
lemma perPeer_append {peer : Nat} {added : List (String × RequestInfo)}
    (h : ∀ q, c.countActiveRequestsForPeer q ≤ c.maxRequestsPerPeer)
    (hpeer : ∀ e ∈ added, e.2.peer = peer)
    (hcount : added = [] ∨ c.countActiveRequestsForPeer peer + added.length ≤ c.maxRequestsPerPeer)
    (q : Nat) :
    ({ c with activeRequests := c.activeRequests ++ added } : Coordinator).countActiveRequestsForPeer q ≤
      c.maxRequestsPerPeer := by
  have hother : added.countP (·.2.peer = q) ≤ if q = peer then added.length else 0 := by
    split_ifs with hq
    · exact List.countP_le_length _
    · exact (List.countP_eq_zero.mpr fun e he => by simp [hpeer e he, Ne.symm hq]).le
  have hold := h q
  simp only [countActiveRequestsForPeer, List.countP_append] at hold ⊢
  rcases hcount with rfl | hcount
  · simpa using hold
  · split_ifs at hother with hq
    · subst hq; unfold countActiveRequestsForPeer at hcount; omega
    · omega

/-- Records a `requestPiecesFromPeer` call added to the table, against the sessions after it. -/
lemma Valid.append {ps' : List Peer} {peer : Nat} {added : List (String × RequestInfo)}
    (h : c.Valid ps) (hg : PeersGrow ps ps')
    (hadded : ∀ e ∈ added, e.2.peer = peer ∧ RequestValid ps' e)
    (hcount : added = [] ∨ c.countActiveRequestsForPeer peer + added.length ≤ c.maxRequestsPerPeer)
    (hnodup : ((c.activeRequests ++ added).map (·.1)).Nodup) :
    ({ c with activeRequests := c.activeRequests ++ added } : Coordinator).Valid ps' := by
  refine ⟨hnodup, fun e he => ?_, perPeer_append h.perPeer (fun e he => (hadded e he).1) hcount⟩
  rcases List.mem_append.mp he with he | he
  · exact (h.entries e he).mono hg
  · exact (hadded e he).2

/-- One turn of the request loop only appends records. -/
lemma requestAt_extends (neededPieces : List Nat) (now : Nat) (pm : PieceManager) (peer : Nat) :
    ∃ added, (requestAt neededPieces now (c, pm, ps) peer).1 =
      { c with activeRequests := c.activeRequests ++ added } := by
  simp only [requestAt]
  split
  · rename_i p _
    split
    · exact (requestPiecesFromPeer_spec c pm p peer neededPieces now).imp fun _ h => h.1
    · exact ⟨[], by simp⟩
  · exact ⟨[], by simp⟩

/-- One turn of the request loop keeps the invariant and lets every session only grow. -/
lemma requestAt_valid (neededPieces : List Nat) (now : Nat) (pm : PieceManager) (peer : Nat)
    (h : c.Valid ps) :
    (requestAt neededPieces now (c, pm, ps) peer).1.Valid (requestAt neededPieces now (c, pm, ps) peer).2.2 ∧
      PeersGrow ps (requestAt neededPieces now (c, pm, ps) peer).2.2 := by
  simp only [requestAt]
  split
  · rename_i p hp
    split
    · obtain ⟨added, hc, hs, hcount, hadded, hnodup⟩ :=
        requestPiecesFromPeer_spec c pm p peer neededPieces now
      have hg : PeersGrow ps (ps.set peer (c.requestPiecesFromPeer pm p peer neededPieces now).2.2) :=
        PeersGrow.set hp hs
      have hlt : peer < ps.length := (List.getElem?_eq_some_iff.mp hp).1
      refine ⟨?_, hg⟩
      rw [hc]
      refine h.append hg (fun e he => ?_) hcount (hnodup h.keys)
      obtain ⟨hpeer, hkey, hmsg⟩ := hadded e he
      exact ⟨hpeer, hkey, _, by rw [hpeer]; simp [List.getElem?_set, hlt], hmsg⟩
    · exact ⟨h, PeersGrow.refl ps⟩
  · exact ⟨h, PeersGrow.refl ps⟩

lemma foldl_requestAt_extends (neededPieces : List Nat) (now : Nat) :
    ∀ (order : List Nat) (c : Coordinator) (pm : PieceManager) (ps : List Peer),
      ∃ added, (order.foldl (requestAt neededPieces now) (c, pm, ps)).1 =
        { c with activeRequests := c.activeRequests ++ added }
  | [], _, _, _ => ⟨[], by simp⟩
  | peer :: order, c, pm, ps => by
    obtain ⟨added, h⟩ := @requestAt_extends c ps neededPieces now pm peer
    obtain ⟨added', h'⟩ := foldl_requestAt_extends neededPieces now order _ _ _
    refine ⟨added ++ added', ?_⟩
    rw [List.foldl_cons, h', h]
    simp

lemma foldl_requestAt_valid (neededPieces : List Nat) (now : Nat) :
    ∀ (order : List Nat) (c : Coordinator) (pm : PieceManager) (ps : List Peer), c.Valid ps →
      (order.foldl (requestAt neededPieces now) (c, pm, ps)).1.Valid
          (order.foldl (requestAt neededPieces now) (c, pm, ps)).2.2 ∧
        PeersGrow ps (order.foldl (requestAt neededPieces now) (c, pm, ps)).2.2
  | [], _, _, ps, h => ⟨h, PeersGrow.refl ps⟩
  | peer :: order, c, pm, ps, h => by
    obtain ⟨h₁, hg₁⟩ := requestAt_valid neededPieces now pm peer h
    obtain ⟨h₂, hg₂⟩ := foldl_requestAt_valid neededPieces now order _ _ _ h₁
    exact ⟨h₂, hg₁.trans hg₂⟩

lemma foldl_ensureInterestedAt_grow (neededPieces : List Nat) :
    ∀ (order : List Nat) (ps : List Peer), PeersGrow ps (order.foldl (ensureInterestedAt neededPieces) ps)
  | [], ps => PeersGrow.refl ps
  | peer :: order, _ =>
    (PeersGrow.modify _ (fun p => p.sent_prefix_ensureInterested neededPieces) peer).trans
      (foldl_ensureInterestedAt_grow neededPieces order _)

/-- A download cycle only appends records, and keeps the coordinator's limits. -/
lemma processDownloadCycle_extends (pm : PieceManager) (connected : List Nat) (now : Nat) :
    c.activeRequests <+: (c.processDownloadCycle pm ps connected now).1.activeRequests ∧
      (c.processDownloadCycle pm ps connected now).1.maxRequestsPerPeer = c.maxRequestsPerPeer ∧
      (c.processDownloadCycle pm ps connected now).1.requestTimeout = c.requestTimeout := by
  unfold processDownloadCycle
  split_ifs
  · exact ⟨List.prefix_refl _, rfl, rfl⟩
  · exact ⟨List.prefix_refl _, rfl, rfl⟩
  · obtain ⟨added, h⟩ := foldl_requestAt_extends (pm.getNeededPieces.take 500) now connected c pm
      (connected.foldl (ensureInterestedAt (pm.getNeededPieces.take 500)) ps)
    simp only [updateProgress, h]
    exact ⟨List.prefix_append _ _, trivial, trivial⟩

/-- **A download cycle** keeps the invariant and lets every session only grow. -/
theorem processDownloadCycle_valid (h : c.Valid ps) (pm : PieceManager) (connected : List Nat)
    (now : Nat) :
    (c.processDownloadCycle pm ps connected now).1.Valid (c.processDownloadCycle pm ps connected now).2.2 ∧
      PeersGrow ps (c.processDownloadCycle pm ps connected now).2.2 := by
  unfold processDownloadCycle
  split_ifs
  · exact ⟨h, PeersGrow.refl ps⟩
  · exact ⟨h, PeersGrow.refl ps⟩
  · dsimp only
    have hg := foldl_ensureInterestedAt_grow (pm.getNeededPieces.take 500) connected ps
    obtain ⟨h', hg'⟩ := foldl_requestAt_valid (pm.getNeededPieces.take 500) now connected c
      pm _ (h.mono hg)
    exact ⟨⟨h'.keys, h'.entries, h'.perPeer⟩, hg.trans hg'⟩

end Coordinator

/-! ## Every run -/

namespace Client

/-- The invariant of the whole client: `NewCoordinator`'s limits, and the request table against
the sessions. -/
structure Valid (s : Client) : Prop where
  maxRequestsPerPeer : s.coord.maxRequestsPerPeer = 10
  requestTimeout : s.coord.requestTimeout = 15000000000
  requests : s.coord.Valid s.peers

/-- Every event keeps the invariant. -/
lemma Valid.step {s s' : Client} {e : Event} (h : s.Valid) (hst : s.step e = some s') : s'.Valid := by
  obtain ⟨hmax, htime, h⟩ := h
  cases e with
  | cycle now order =>
    simp only [Client.step] at hst
    split_ifs at hst
    cases hst
    obtain ⟨-, hmax', htime'⟩ :=
      @Coordinator.processDownloadCycle_extends s.coord s.peers s.pieces order now
    exact ⟨hmax'.trans hmax, htime'.trans htime, (Coordinator.processDownloadCycle_valid h s.pieces order now).1⟩
  | pieceReceived i b => cases hst; exact ⟨hmax, htime, Coordinator.Valid.filter h _⟩
  | timeout now => cases hst; exact ⟨hmax, htime, Coordinator.Valid.filter h _⟩
  | connect =>
    simp only [Client.step] at hst
    split_ifs at hst
    cases hst
    exact ⟨hmax, htime, h.mono (PeersGrow.append _ _)⟩
  | receive i msg =>
    simp only [Client.step] at hst
    split at hst
    · rename_i p hp
      split_ifs at hst
      cases hst
      exact ⟨hmax, htime, h.mono (PeersGrow.set hp (by rw [(p.receive_connected_sent msg).2]))⟩
    · cases hst
  | disconnect i =>
    simp only [Client.step] at hst
    split at hst
    · rename_i p hp
      cases hst
      exact ⟨hmax, htime, h.mono (PeersGrow.set hp (List.prefix_refl _))⟩
    · cases hst
  | remove i =>
    simp only [Client.step] at hst
    split at hst
    · split_ifs at hst
      cases hst
      exact ⟨hmax, htime, h⟩
    · cases hst

/-- What a step removes from the request table: `HandlePieceReceived(i, b)` the record under
`requestKey i b`, the timeout sweep at `now` the records older than `requestTimeout`, and no
other event a record. -/
lemma step_removes {s s' : Client} {e : Event} (hst : s.step e = some s')
    {x : String × RequestInfo} (hx : x ∈ s.coord.activeRequests) :
    x ∉ s'.coord.activeRequests ↔ (∃ i b, e = .pieceReceived i b ∧ x.1 = requestKey i b) ∨
      ∃ now, e = .timeout now ∧ now - x.2.requestedAt > s.coord.requestTimeout := by
  cases e with
  | pieceReceived i b => cases hst; simp [Coordinator.handlePieceReceived, hx, and_assoc]
  | timeout now => cases hst; simp [Coordinator.cleanupTimedOutRequests, hx]; omega
  | cycle now order =>
    simp only [Client.step] at hst
    split_ifs at hst
    cases hst
    simp [(Coordinator.processDownloadCycle_extends s.pieces order now).1.subset hx]
  | connect =>
    simp only [Client.step] at hst
    split_ifs at hst
    cases hst
    simp [hx]
  | receive i msg =>
    simp only [Client.step] at hst
    split at hst
    · split_ifs at hst; cases hst; simp [hx]
    · cases hst
  | disconnect i =>
    simp only [Client.step] at hst
    split at hst
    · cases hst; simp [hx]
    · cases hst
  | remove i =>
    simp only [Client.step] at hst
    split at hst
    · split_ifs at hst; cases hst; simp [hx]
    · cases hst

/-- Every reachable client keeps the invariant. -/
lemma Reachable.valid {pm : PieceManager} {s : Client} (hr : Reachable (Client.init pm) s) :
    s.Valid := by
  induction hr with
  | init => exact ⟨rfl, rfl, Coordinator.Valid.new []⟩
  | step _ hst ih => exact ih.step hst

/-- **Requests outlive chokes and disconnections.**  In every reachable state the coordinator has
`NewCoordinator`'s limits, the request table has distinct keys, each record is stored under the
key of its own piece and offset with its REQUEST queued on its session, and no session has more
than ten records.  From any reachable state, an event removes a record exactly when it is
`HandlePieceReceived` for the record's piece and offset, or the timeout sweep once the record is
older than fifteen seconds: a CHOKE, a disconnection or a download cycle removes none. -/
theorem requests_kept {pm : PieceManager} {s : Client} (hr : Reachable (init pm) s) :
    s.Valid ∧ ∀ (e : Event) (s' : Client), s.step e = some s' → ∀ x ∈ s.coord.activeRequests,
      (x ∉ s'.coord.activeRequests ↔ (∃ i b, e = .pieceReceived i b ∧ x.1 = requestKey i b) ∨
        ∃ now, e = .timeout now ∧ now - x.2.requestedAt > 15000000000) := by
  refine ⟨hr.valid, fun e s' hst x hx => ?_⟩
  rw [← hr.valid.requestTimeout]
  exact step_removes hst hx

theorem requests_kept_init :
    (init (PieceManager.new 1 1 1)).Valid ∧ ∀ (e : Event) (s' : Client),
      (init (PieceManager.new 1 1 1)).step e = some s' →
      ∀ x ∈ (init (PieceManager.new 1 1 1)).coord.activeRequests,
        (x ∉ s'.coord.activeRequests ↔ (∃ i b, e = .pieceReceived i b ∧ x.1 = requestKey i b) ∨
          ∃ now, e = .timeout now ∧ now - x.2.requestedAt > 15000000000) :=
  requests_kept .init

/-- Whether some record names a session that is choking us. -/
def hasChokedRequest (s : Client) : Bool :=
  s.coord.activeRequests.any fun e => (s.peers[e.2.peer]?).any (·.state.peerChoking)

/-- The peer of a one-piece torrent sends its bitfield and unchokes us; the first download
cycle requests the block; then the peer chokes us. -/
def chokeTrace : List Event :=
  [.connect, .receive 0 (some ⟨msgBitfield, [128]⟩), .receive 0 (some ⟨msgUnchoke, []⟩),
    .cycle 0 [0], .receive 0 (some ⟨msgChoke, []⟩)]

/-- A run whose end satisfies `P` shows a reachable state satisfying `P`; the run and `P` are
then checked by evaluation. -/
lemma reachable_of_run (s₀ : Client) (es : List Event) {P : Client → Bool}
    (h : (run s₀ es).any P = true) : ∃ s, Reachable s₀ s ∧ P s = true := by
  cases hs : run s₀ es with
  | none => simp [hs] at h
  | some s => simp only [hs, Option.any_some] at h; exact ⟨s, run_reachable .init hs, h⟩

/-- A record of a request to a peer that has since choked us is still there at the end of the
next download cycle. -/
theorem choked_request_kept :
    ∃ s s', Reachable (init (PieceManager.new 1 1 1)) s ∧ s.step (.cycle 1 [0]) = some s' ∧
      s'.hasChokedRequest = true := by
  obtain ⟨s, hr, hP⟩ := reachable_of_run (init (PieceManager.new 1 1 1)) chokeTrace
    (P := fun s => (s.step (.cycle 1 [0])).any hasChokedRequest) (by decide)
  cases hst : s.step (.cycle 1 [0]) with
  | none => simp [hst] at hP
  | some s' => simp only [hst, Option.any_some] at hP; exact ⟨s, s', hr, hst, hP⟩

end Client

end BitTorrent
