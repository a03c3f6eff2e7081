import Mathlib.Data.List.Nodup
import BitTorrentClient.Basic

/-!
# The peer manager's goroutines

`peer.Manager` runs a `connectToPeer` goroutine per tracker peer, a `handlePeer` per registered
session, the `messageLoop` and the `cleanupLoop`; `Stop` tears them down.  Their machines take
their steps, the source's lock sections and channel operations, in any order (`Reach`).

**The registry** (`Registry`).  `m.peers` maps `peer.Address().String()` to a session, under
`m.mu`: `connectToPeer` adds, after its own `hasPeer` check; the deferred `removePeer` of a
returning `handlePeer` deletes the entry at its session's address; `cleanup` deletes the entries
whose session is disconnected.

* `Registry.wf_of_reach` — in every reachable state the map's keys are distinct, each entry's session
  has the entry's address, and the statistics count the entries;
* `Registry.step_drops` — an entry leaves the map only by `cleanup` of its disconnected session,
  or by `removePeer` of a session at the entry's address;
* `remove_deletes_successor` — and that session need not be the entry's own: a session reaped by
  `cleanup` deletes, when its `handlePeer` returns, the entry of a live session that has since
  connected to the same address.

The goroutines `Stop` tears down are the machine of `Peer/Shutdown.lean`.
-/

namespace BitTorrent

/-- The states a machine whose steps are `step` reaches from `s₀`, taking its events in any
order; `step s e = none` is an event that cannot happen in `s`. -/
inductive Reach {σ ε : Type} (step : σ → ε → Option σ) (s₀ : σ) : σ → Prop where
  | init : Reach step s₀ s₀
  | next {s s' : σ} {e : ε} : Reach step s₀ s → step s e = some s' → Reach step s₀ s'

namespace Reach

variable {σ ε : Type} {step : σ → ε → Option σ} {s₀ : σ}

/-- Running a list of events from a reachable state ends in a reachable state. -/
lemma foldlM : ∀ {s s' : σ} {es : List ε}, Reach step s₀ s → es.foldlM step s = some s' →
    Reach step s₀ s'
  | _, _, [], hs, h => by cases h; exact hs
  | s, _, e :: es, hs, h => by
    rw [List.foldlM_cons] at h
    cases hst : step s e with
    | none => simp [hst] at h
    | some s₁ => simp only [hst, Option.bind_eq_bind, Option.some_bind] at h; exact foldlM (.next hs hst) h

end Reach

/-! ## The registry -/

/-- A session as the registry sees it: `Address().String()`, and `IsConnected()` (its context is
not cancelled). -/
structure Session where
  addr : Bytes
  connected : Bool
  deriving DecidableEq, Repr

/-- The part of `peer.Manager` that `addPeer`, `removePeer`, `cleanup` and `Stop` touch under
`m.mu`: `m.peers`, `maxPeers`, the three connection statistics, and whether `m.ctx` is cancelled;
with every session opened so far (numbered in order of opening: a number stands for the
`*Peer`), the sessions whose `connectToPeer` has yet to call `addPeer`, and those whose
`handlePeer` runs. -/
structure Registry where
  sessions : List Session
  peers : List (Bytes × Nat)
  maxPeers : Nat
  activePeers : Int
  totalConnected : Nat
  totalDisconnected : Nat
  ctxDone : Bool
  dialed : List Nat
  handling : List Nat
  deriving DecidableEq, Repr

/-- What can happen next to the registry. -/
inductive RegistryEvent where
  /-- `connectToPeer` for `addr`: `hasPeer(addr)` is false, the dial and the handshake succeed. -/
  | connect (addr : Bytes)
  /-- `connectToPeer` of session `peer` calls `addPeer`, and stops the session if refused. -/
  | addPeer (peer : Nat)
  /-- Session `peer`'s send or receive loop ends and cancels its context. -/
  | disconnect (peer : Nat)
  /-- `handlePeer` of session `peer` returns, and its deferred `removePeer` runs. -/
  | removePeer (peer : Nat)
  /-- `cleanupLoop`'s ticker fires. -/
  | cleanup
  /-- `Stop`, up to its unlock of `m.mu`. -/
  | stop

namespace Registry

/-- `NewManager`: an empty map, `DefaultMaxPeers`, zero statistics. -/
def new : Registry :=
  { sessions := [], peers := [], maxPeers := 50, activePeers := 0, totalConnected := 0,
    totalDisconnected := 0, ctxDone := false, dialed := [], handling := [] }

/-- `peer.Address().String()` of session `peer`. -/
def address (m : Registry) (peer : Nat) : Option Bytes := (m.sessions[peer]?).map (·.addr)

/-- `Peer.IsConnected` of session `peer`. -/
def isConnected (m : Registry) (peer : Nat) : Bool := (m.sessions[peer]?).any (·.connected)

/-- Session `peer`'s context is cancelled (`Peer.Stop`, or its send or receive loop ending). -/
def cancel (m : Registry) (peer : Nat) : Registry :=
  { m with sessions := m.sessions.modify (fun p => { p with connected := false }) peer }

/-- `Manager.hasPeer`. -/
def hasPeer (m : Registry) (addr : Bytes) : Bool := (m.peers.lookup addr).isSome

/-- `Manager.addPeer(peer)`: refused at `maxPeers` or when the address has an entry; otherwise
the entry is made and counted. -/
def addPeer (m : Registry) (peer : Nat) : Registry × Bool :=
  match m.address peer with
  | some addr =>
    if m.maxPeers ≤ m.peers.length then (m, false)
    else if m.hasPeer addr then (m, false)
    else
      ({ m with
          peers := m.peers ++ [(addr, peer)]
          activePeers := m.activePeers + 1
          totalConnected := m.totalConnected + 1 }, true)
  | none => (m, false)

/-- `Manager.removePeer(peer)`: deletes the entry at the session's address, whichever session it
holds. -/
def removePeer (m : Registry) (peer : Nat) : Registry :=
  match m.address peer with
  | some addr =>
    if m.hasPeer addr then
      { m with
          peers := m.peers.filter (·.1 != addr)
          activePeers := m.activePeers - 1
          totalDisconnected := m.totalDisconnected + 1 }
    else m
  | none => m

/-- `Manager.cleanup`: deletes and counts every entry whose session is disconnected. -/
def cleanup (m : Registry) : Registry :=
  let gone := (m.peers.filter fun e => !m.isConnected e.2).length
  { m with
      peers := m.peers.filter (m.isConnected ·.2)
      activePeers := m.activePeers - gone
      totalDisconnected := m.totalDisconnected + gone }

/-- `Stop` up to its unlock: `m.cancel()`, then `peer.Stop()` for every session in the map. -/
def stop (m : Registry) : Registry :=
  m.peers.foldl (fun m e => m.cancel e.2) { m with ctxDone := true }

/-- Run one event; `none` when it cannot happen in this state.  A `handlePeer` returns only once
its session's context or `m.ctx` is cancelled: each of its exits waits on one of the two. -/
def step (m : Registry) : RegistryEvent → Option Registry
  | .connect addr =>
    if m.hasPeer addr then none
    else
      some { m with
        sessions := m.sessions ++ [⟨addr, true⟩]
        dialed := m.dialed ++ [m.sessions.length] }
  | .addPeer peer =>
    if peer ∈ m.dialed then
      match ({ m with dialed := m.dialed.erase peer } : Registry).addPeer peer with
      | (m', true) => some { m' with handling := m'.handling ++ [peer] }
      | (m', false) => some (m'.cancel peer)
    else none
  | .disconnect peer => if peer < m.sessions.length then some (m.cancel peer) else none
  | .removePeer peer =>
    if peer ∈ m.handling ∧ (m.ctxDone || !m.isConnected peer) = true then
      some { m.removePeer peer with handling := m.handling.erase peer }
    else none
  | .cleanup => some m.cleanup
  | .stop => if m.ctxDone then none else some m.stop

/-! ### What every step keeps -/

/-- What holds of the registry in every reachable state: the map's keys are distinct, each entry
holds a session at the entry's address, `ActivePeers` counts the entries, and every connection
counted in `TotalConnected` is either still an entry or counted in `TotalDisconnected`. -/
structure WF (m : Registry) : Prop where
  keys : (m.peers.map (·.1)).Nodup
  addrs : ∀ e ∈ m.peers, m.address e.2 = some e.1
  active : m.activePeers = m.peers.length
  counted : m.totalConnected = m.totalDisconnected + m.peers.length

lemma hasPeer_iff {m : Registry} {addr : Bytes} : m.hasPeer addr = true ↔ addr ∈ m.peers.map (·.1) := by
  simp only [hasPeer, List.lookup_isSome_iff, beq_iff_eq, List.mem_map]
  exact ⟨fun ⟨p, hp, h⟩ => ⟨p, hp, h.symm⟩, fun ⟨p, hp, h⟩ => ⟨p, hp, h.symm⟩⟩

@[simp] lemma address_cancel (m : Registry) (q peer : Nat) :
    (m.cancel q).address peer = m.address peer := by
  simp only [address, cancel, List.getElem?_modify]
  cases m.sessions[peer]? <;> by_cases q = peer <;> simp [*]

/-- The invariant does not read `m.ctx` or which goroutines run. -/
lemma WF.control {m : Registry} (h : m.WF) (c : Bool) (d hs : List Nat) :
    ({ m with ctxDone := c, dialed := d, handling := hs } : Registry).WF :=
  ⟨h.keys, h.addrs, h.active, h.counted⟩

lemma WF.cancel {m : Registry} (h : m.WF) (q : Nat) : (m.cancel q).WF :=
  ⟨h.keys, fun e he => (address_cancel m q e.2).trans (h.addrs e he), h.active, h.counted⟩

/-- `Stop`'s loop cancels sessions and leaves the map as it is. -/
lemma peers_foldl_cancel (l : List (Bytes × Nat)) :
    ∀ m : Registry, (l.foldl (fun m e => m.cancel e.2) m).peers = m.peers := by
  induction l with
  | nil => exact fun _ => rfl
  | cons e l ih => exact fun m => ih (m.cancel e.2)

lemma WF.foldl_cancel (l : List (Bytes × Nat)) :
    ∀ {m : Registry}, m.WF → (l.foldl (fun m e => m.cancel e.2) m).WF := by
  induction l with
  | nil => exact id
  | cons e l ih => exact fun h => ih (h.cancel e.2)

/-- An entry sits in the map as a key among distinct keys: deleting its key drops one entry. -/
lemma length_filter_key {l : List (Bytes × Nat)} {a : Bytes} (hl : (l.map (·.1)).Nodup)
    (ha : a ∈ l.map (·.1)) : (l.filter (·.1 != a)).length + 1 = l.length := by
  induction l with
  | nil => simp at ha
  | cons e l ih =>
    simp only [List.map_cons, List.nodup_cons, List.mem_cons] at hl ha
    by_cases he : e.1 = a
    · have hkeep : l.filter (·.1 != a) = l := List.filter_eq_self.2 fun x hx => by
        have hxa : x.1 ≠ a := fun hxa => hl.1 (by rw [he, ← hxa]; exact List.mem_map_of_mem _ hx)
        simpa using hxa
      simp [List.filter_cons, he, hkeep]
    · simp [List.filter_cons, he, ← ih hl.2 (ha.resolve_left (Ne.symm he))]

lemma WF.addPeer {m : Registry} (h : m.WF) (peer : Nat) : (m.addPeer peer).1.WF := by
  unfold Registry.addPeer
  split
  · rename_i addr haddr
    split_ifs with hmax hhas
    · exact h
    · exact h
    · refine ⟨?_, ?_, ?_, ?_⟩
      · rw [List.map_append, List.map_singleton, ← List.concat_eq_append]
        exact h.keys.concat (mt hasPeer_iff.2 (by simpa using hhas))
      · intro e he
        rcases List.mem_append.1 he with he | he
        · exact h.addrs e he
        · rw [List.mem_singleton.1 he]; exact haddr
      · simp [h.active]
      · simp [h.counted]; omega
  · exact h

lemma WF.removePeer {m : Registry} (h : m.WF) (peer : Nat) : (m.removePeer peer).WF := by
  unfold Registry.removePeer
  split
  · split_ifs with hhas
    · have hlen := length_filter_key h.keys (hasPeer_iff.1 hhas)
      refine ⟨h.keys.sublist ((List.filter_sublist _).map _), fun e he => h.addrs e
        (List.mem_of_mem_filter he), ?_, ?_⟩
      · simp only [h.active]; omega
      · simp only [h.counted]; omega
    · exact h
  · exact h

lemma WF.cleanup {m : Registry} (h : m.WF) : m.cleanup.WF := by
  have hlen := List.length_eq_length_filter_add (l := m.peers) (m.isConnected ·.2)
  refine ⟨h.keys.sublist ((List.filter_sublist _).map _), fun e he => h.addrs e
    (List.mem_of_mem_filter he), ?_, ?_⟩
  · simp only [Registry.cleanup, h.active]; omega
  · simp only [Registry.cleanup, h.counted]; omega

/-- A new session at the end of the list leaves the older sessions' addresses as they were. -/
lemma address_append {m : Registry} {i : Nat} {addr : Bytes} (h : m.address i = some addr)
    (s : Session) : ({ m with sessions := m.sessions ++ [s] } : Registry).address i = some addr := by
  obtain ⟨p, hp, rfl⟩ := Option.map_eq_some'.1 h
  simp [address, List.getElem?_append_left (List.getElem?_eq_some_iff.1 hp).1, hp]

/-- **What a registry step does**: one of the source's lock sections, with the bookkeeping of
which goroutines run. -/
lemma step_cases {m m' : Registry} {e : RegistryEvent} (hst : m.step e = some m') :
    (∃ addr, e = .connect addr ∧ m' = { m with
        sessions := m.sessions ++ [⟨addr, true⟩], dialed := m.dialed ++ [m.sessions.length] }) ∨
    (∃ peer, e = .addPeer peer ∧
      let m₀ := (({ m with dialed := m.dialed.erase peer } : Registry).addPeer peer).1
      m' = { m₀ with handling := m₀.handling ++ [peer] } ∨ m' = m₀.cancel peer) ∨
    (∃ peer, e = .disconnect peer ∧ m' = m.cancel peer) ∨
    (∃ peer, e = .removePeer peer ∧ m' = { m.removePeer peer with handling := m.handling.erase peer }) ∨
    (e = .cleanup ∧ m' = m.cleanup) ∨ (e = .stop ∧ m' = m.stop) := by
  cases e <;> simp only [Registry.step] at hst
  case connect addr => split_ifs at hst; cases hst; exact .inl ⟨addr, rfl, rfl⟩
  case addPeer peer =>
    split_ifs at hst
    refine .inr (.inl ⟨peer, rfl, ?_⟩)
    split at hst <;> rename_i heq <;> cases hst <;> simp [heq]
  case disconnect peer => split_ifs at hst; cases hst; exact .inr (.inr (.inl ⟨peer, rfl, rfl⟩))
  case removePeer peer =>
    split_ifs at hst; cases hst; exact .inr (.inr (.inr (.inl ⟨peer, rfl, rfl⟩)))
  case cleanup => cases hst; exact .inr (.inr (.inr (.inr (.inl ⟨rfl, rfl⟩))))
  case stop => split_ifs at hst; cases hst; exact .inr (.inr (.inr (.inr (.inr ⟨rfl, rfl⟩))))

/-- Every step keeps the invariant. -/
lemma WF.step {m m' : Registry} (h : m.WF) {e : RegistryEvent} (hst : m.step e = some m') : m'.WF := by
  rcases step_cases hst with ⟨addr, -, rfl⟩ | ⟨peer, -, rfl | rfl⟩ | ⟨peer, -, rfl⟩ | ⟨peer, -, rfl⟩ |
    ⟨-, rfl⟩ | ⟨-, rfl⟩
  · exact ⟨h.keys, fun e he => address_append (h.addrs e he) _, h.active, h.counted⟩
  · exact ((h.control m.ctxDone _ m.handling).addPeer peer).control _ _ _
  · exact ((h.control m.ctxDone _ m.handling).addPeer peer).cancel peer
  · exact h.cancel peer
  · exact (h.removePeer peer).control _ _ _
  · exact h.cleanup
  · exact (h.control true m.dialed m.handling).foldl_cancel _

/-- Every reachable registry keeps the invariant. -/
lemma wf_of_reach {m : Registry} (hr : Reach step new m) : m.WF := by
  induction hr with
  | init => exact ⟨List.nodup_nil, fun _ h => absurd h (List.not_mem_nil _), rfl, rfl⟩
  | next _ hst ih => exact ih.step hst

theorem wf_of_reach_sample :
    ∃ m, [RegistryEvent.connect [1], .addPeer 0, .disconnect 0].foldlM step new = some m ∧ m.WF :=
  ⟨_, rfl, wf_of_reach (@Reach.foldlM _ _ _ _ _ _ [.connect [1], .addPeer 0, .disconnect 0] .init rfl)⟩

/-- An entry stays in the map through `addPeer`. -/
lemma mem_addPeer {m : Registry} {e : Bytes × Nat} (he : e ∈ m.peers) (peer : Nat) :
    e ∈ (m.addPeer peer).1.peers := by
  unfold Registry.addPeer
  split
  · split_ifs <;> simp [he]
  · exact he

/-- The address both sessions dial, `10.0.0.1:6881`. -/
def sameAddr : Bytes := [49, 48, 46, 48, 46, 48, 46, 49, 58, 54, 56, 56, 49]

/-- **What takes an entry out of the map.**  An entry `(addr, peer)` leaves `m.peers` at a step
only by `cleanup` with session `peer` disconnected, or by the `removePeer` of a session at
`addr`. -/
theorem step_drops {m m' : Registry} {e : RegistryEvent} {addr : Bytes} {peer : Nat}
    (hst : m.step e = some m') (hin : (addr, peer) ∈ m.peers) (hout : (addr, peer) ∉ m'.peers) :
    (e = .cleanup ∧ m.isConnected peer = false) ∨
      ∃ q, e = .removePeer q ∧ m.address q = some addr := by
  rcases step_cases hst with ⟨_, -, rfl⟩ | ⟨q, -, rfl | rfl⟩ | ⟨_, -, rfl⟩ | ⟨q, rfl, rfl⟩ |
    ⟨rfl, rfl⟩ | ⟨-, rfl⟩
  · exact absurd hin hout
  · exact absurd (mem_addPeer (m := { m with dialed := m.dialed.erase q }) hin q) hout
  · exact absurd (mem_addPeer (m := { m with dialed := m.dialed.erase q }) hin q) hout
  · exact absurd hin hout
  · refine .inr ⟨q, rfl, ?_⟩
    simp only [Registry.removePeer] at hout
    split at hout
    · rename_i a ha
      split_ifs at hout
      · have : addr = a := by simpa [hin] using hout
        rw [this, ha]
      · exact absurd hin hout
    · exact absurd hin hout
  · exact .inl ⟨rfl, by simpa [Registry.cleanup, hin] using hout⟩
  · exact absurd ((peers_foldl_cancel _ _).symm ▸ hin) hout

/-- Session 0 to `sameAddr` joins the map, drops, and is reaped by `cleanup`; session 1 to the
same address then joins. -/
def reapTrace : List RegistryEvent :=
  [.connect sameAddr, .addPeer 0, .disconnect 0, .cleanup, .connect sameAddr, .addPeer 1]

/-- **`removePeer` deletes another session's entry.**  After `reapTrace`, session 1 holds the
entry of `sameAddr`; session 0's `handlePeer` returns, and its `removePeer` deletes that entry.
Session 1 is still connected and its `handlePeer` still runs, but it is no longer in the map,
and a new connection to `sameAddr` passes the `hasPeer` check. -/
theorem remove_deletes_successor :
    ∃ m m', Reach step new m ∧ (sameAddr, 1) ∈ m.peers ∧ m.step (.removePeer 0) = some m' ∧
      (sameAddr, 1) ∉ m'.peers ∧ m'.isConnected 1 = true ∧ 1 ∈ m'.handling ∧
      m'.hasPeer sameAddr = false :=
  ⟨_, _, @Reach.foldlM _ _ _ _ _ _ reapTrace .init rfl, by decide, rfl, by decide, rfl, by decide, rfl⟩

end Registry

end BitTorrent
