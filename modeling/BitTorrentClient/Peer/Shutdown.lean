import BitTorrentClient.Peer.Pool
import BitTorrentClient.Peer.Manager
import BitTorrentClient.Piece.Lifecycle

/-!
# Shutting the peer manager down

`Stop` cancels `m.ctx`, stops the sessions in `m.peers`, and closes `incomingPeers` and then
`incomingMessages`.  Meanwhile each session's `handlePeer` forwards what its receive loop puts in
`receiveCh`, and `messageLoop` takes the `PeerMessage`s off `incomingMessages` and runs
`handlePeerMessage` on each.  `Shutdown` is these goroutines as one machine whose steps are their
statements and channel operations, taken in any order (`Reach`).  Each `handlePeer` is a program
counter over its loop, and every `select` is one event per ready case, so any ready case may be
taken.  The message handler is a parameter; `PeerManager.onMessage` is `handlePeerMessage`.

A goroutine panics in one of two ways: a `handlePeer` takes the send case of its forwarding
`select` on the closed `incomingMessages`, or `messageLoop`'s handler panics.  With
`handlePeerMessage` as the handler, the second is a PIECE whose index is past the last piece
(`PeerManager.handlePeerMessage_panic`).

* `Shutdown.step_cases` — what one step can do; `Shutdown.step_panicked` — where a panic comes
  from;
* `Shutdown.closed_before_panic` — `incomingMessages` is closed only once `Stop` has returned, and
  before that the only panic is the handler's, on a PIECE past the last piece;
* `Shutdown.quiet_after_cancel` — if no `handlePeer` is past its check when `m.cancel()` runs, a
  later panic is the handler's on such a PIECE that was already in `incomingMessages`;
* `stop_sends_on_closed` — but a `handlePeer` that took a message before the cancel may still be
  in its forwarding `select` when `Stop` returns, with the send among its ready cases.
-/

namespace BitTorrent

/-- Where a `handlePeer` goroutine is. -/
inductive HandlerPc (μ : Type) where
  /-- At the top of its loop, before the non-blocking check of `peer.Done()` and `m.ctx.Done()`. -/
  | top
  /-- In `ReceiveMessage`: a `select` on the session's `receiveCh` and its context. -/
  | receiving
  /-- Holding the message `ReceiveMessage` returned, in the `select` that sends it on
  `incomingMessages` or gives up once `m.ctx` or the session's context is done. -/
  | forwarding (msg : μ)
  /-- Returned. -/
  | exited
  deriving DecidableEq, Repr

/-- How far `Stop` has got. -/
inductive StopPc where
  /-- Not called. -/
  | running
  /-- After `m.cancel()`. -/
  | cancelled
  /-- After `peer.Stop()` of every session in `m.peers`. -/
  | peersStopped
  /-- After `close(m.incomingPeers)`. -/
  | peersClosed
  /-- After `close(m.incomingMessages)`. -/
  | closed
  deriving DecidableEq, Repr

/-- A session's part in shutdown: where its `handlePeer` is, whether the session is in `m.peers`
(so that `Stop` stops it), whether its context is cancelled (`peer.Done()` is that context's
`Done`), and the messages its receive loop has put in `receiveCh`, oldest first. -/
structure Link (μ : Type) where
  pc : HandlerPc μ
  inPeers : Bool
  cancelled : Bool
  received : List μ
  deriving DecidableEq, Repr

/-- The manager's goroutines and channels: the sessions, whether `m.ctx` is cancelled, how far
`Stop` has got, the `PeerMessage`s buffered in `incomingMessages` (the sending session's number
and its message) and whether it is closed, whether `messageLoop` still runs, the state its handler
reads and writes, and the runtime's panic message once a goroutine has panicked. -/
structure Shutdown (σ μ : Type) where
  links : List (Link μ)
  ctxDone : Bool
  stopPc : StopPc
  queue : List (Nat × μ)
  messagesClosed : Bool
  looping : Bool
  handler : σ
  panicked : Option String
  deriving DecidableEq, Repr

/-- A case of `handlePeer`'s code that a `select` can take. -/
inductive HandlerStep where
  /-- The non-blocking `select` at the top of the loop. -/
  | check
  /-- `ReceiveMessage` takes a message from `receiveCh`. -/
  | takeMessage
  /-- `ReceiveMessage` sees the session's context done. -/
  | receiveFails
  /-- The forwarding `select` takes its send on `incomingMessages`. -/
  | send
  /-- The forwarding `select` takes `m.ctx.Done()` or `peer.Done()`. -/
  | giveUp

/-- What can happen next at shutdown. -/
inductive ShutdownEvent (μ : Type) where
  /-- Session `peer`'s `handlePeer` takes step `a`. -/
  | handlePeer (peer : Nat) (a : HandlerStep)
  /-- Session `peer`'s receive loop forwards `msg` to `receiveCh`, which holds 100 and drops what
  does not fit. -/
  | receive (peer : Nat) (msg : μ)
  /-- Session `peer`'s send or receive loop ends and cancels its context. -/
  | disconnect (peer : Nat)
  /-- `messageLoop` receives from `incomingMessages` and runs its handler. -/
  | deliver
  /-- `messageLoop` takes `m.ctx.Done()` and returns. -/
  | loopExits
  /-- `Stop`'s next statement. -/
  | stop

namespace Shutdown

variable {σ μ : Type}

/-- A manager whose sessions are `links` and whose handler's state is `handler`, before `Stop`:
`messageLoop` runs and `incomingMessages` is empty. -/
def start (links : List (Link μ)) (handler : σ) : Shutdown σ μ :=
  { links := links, ctxDone := false, stopPc := .running, queue := [], messagesClosed := false,
    looping := true, handler := handler, panicked := none }

/-- `handlePeer`'s step `a` from `l`, with `m.ctx` done or not: the session after it, and the
message it sends on `incomingMessages` if the step is that send; `none` when the goroutine is not
at that statement or no case of its `select` is ready. -/
def handlePeer (ctxDone : Bool) (l : Link μ) : HandlerStep → Option (Link μ × Option μ)
  | .check =>
    match l.pc with
    | .top => some ({ l with pc := if l.cancelled || ctxDone then .exited else .receiving }, none)
    | _ => none
  | .takeMessage =>
    match l.pc, l.received with
    | .receiving, msg :: rest => some ({ l with pc := .forwarding msg, received := rest }, none)
    | _, _ => none
  | .receiveFails =>
    match l.pc with
    | .receiving => if l.cancelled then some ({ l with pc := .exited }, none) else none
    | _ => none
  | .send =>
    match l.pc with
    | .forwarding msg => some ({ l with pc := .top }, some msg)
    | _ => none
  | .giveUp =>
    match l.pc with
    | .forwarding _ => if ctxDone || l.cancelled then some ({ l with pc := .exited }, none) else none
    | _ => none

/-- `Stop`'s next statement: `m.cancel()`, the loop of `peer.Stop()` over `m.peers`,
`close(m.incomingPeers)`, `close(m.incomingMessages)`. -/
def stop (s : Shutdown σ μ) : Option (Shutdown σ μ) :=
  match s.stopPc with
  | .running => some { s with ctxDone := true, stopPc := .cancelled }
  | .cancelled =>
    some { s with
      links := s.links.map fun l => if l.inPeers then { l with cancelled := true } else l
      stopPc := .peersStopped }
  | .peersStopped => some { s with stopPc := .peersClosed }
  | .peersClosed => some { s with messagesClosed := true, stopPc := .closed }
  | .closed => none

/-- Run one event with `handle` as `messageLoop`'s handler; `none` when the event cannot happen in
this state.  A send on the closed `incomingMessages` panics, a send on the open channel waits for
room in its buffer of 1000, and nothing runs after a panic.  Once the channel is closed and empty,
`messageLoop` receives the zero `PeerMessage`, on whose `nil` message `handlePeerMessage` returns at
once. -/
def step (handle : σ → Nat → μ → Outcome σ) (s : Shutdown σ μ) (e : ShutdownEvent μ) :
    Option (Shutdown σ μ) :=
  if s.panicked.isSome then none
  else
    match e with
    | .handlePeer peer a =>
      match s.links[peer]? with
      | some l =>
        match handlePeer s.ctxDone l a with
        | some (l', none) => some { s with links := s.links.set peer l' }
        | some (l', some msg) =>
          if s.messagesClosed then some { s with panicked := some "send on closed channel" }
          else if s.queue.length < 1000 then
            some { s with links := s.links.set peer l', queue := s.queue ++ [(peer, msg)] }
          else none
        | none => none
      | none => none
    | .receive peer msg =>
      match s.links[peer]? with
      | some l =>
        if l.received.length < 100 then
          some { s with links := s.links.set peer { l with received := l.received ++ [msg] } }
        else some s
      | none => none
    | .disconnect peer =>
      match s.links[peer]? with
      | some l => some { s with links := s.links.set peer { l with cancelled := true } }
      | none => none
    | .deliver =>
      if s.looping then
        match s.queue with
        | (peer, msg) :: q =>
          match handle s.handler peer msg with
          | .ok h => some { s with queue := q, handler := h }
          | .err _ => some { s with queue := q }
          | .panic e => some { s with queue := q, panicked := some e }
        | [] => if s.messagesClosed then some s else none
      else none
    | .loopExits => if s.looping ∧ s.ctxDone = true then some { s with looping := false } else none
    | .stop => s.stop

/-! ### What a step can do -/

/-- `l'` is the session `l` after a step that leaves its `handlePeer` where it was, or after a
step of its `handlePeer`. -/
def Moves (ctxDone : Bool) (l l' : Link μ) : Prop :=
  l'.pc = l.pc ∨ ∃ a m, handlePeer ctxDone l a = some (l', m)

/-- Only the send case of the forwarding `select` sends, and it sends the message held. -/
lemma handlePeer_send {c : Bool} {l l' : Link μ} {a : HandlerStep} {msg : μ}
    (h : handlePeer c l a = some (l', some msg)) : a = .send ∧ l.pc = .forwarding msg := by
  cases a <;> simp only [handlePeer] at h <;> split at h <;> (try split_ifs at h) <;> cases h
  exact ⟨rfl, by assumption⟩

/-- Replacing one session by a moved one moves every session. -/
lemma moves_set {c : Bool} {ls : List (Link μ)} {peer : Nat} {l x : Link μ}
    (hl : ls[peer]? = some l) (hx : Moves c l x) : ∀ l' ∈ ls.set peer x, ∃ l ∈ ls, Moves c l l' := by
  intro l' hl'
  rcases List.mem_or_eq_of_mem_set hl' with hl' | rfl
  · exact ⟨l', hl', .inl rfl⟩
  · exact ⟨l, List.getElem?_mem hl, hx⟩

/-- What `Stop`'s next statement keeps: nothing panics, `m.ctx` stays cancelled, no `handlePeer`
moves, `incomingMessages` and the handler's state are untouched, and the channel is closed by the
last statement and no other. -/
structure StopStep (s s' : Shutdown σ μ) : Prop where
  panicked : s'.panicked = s.panicked
  ctxDone : s.ctxDone = true → s'.ctxDone = true
  pcs : ∀ l' ∈ s'.links, ∃ l ∈ s.links, l'.pc = l.pc
  queue : s'.queue = s.queue
  handler : s'.handler = s.handler
  running : s.stopPc ≠ .closed
  closes : (s.stopPc = .peersClosed ∧ s'.stopPc = .closed) ∨
    (s'.messagesClosed = s.messagesClosed ∧ s'.stopPc ≠ .closed)

lemma stop_cases {s s' : Shutdown σ μ} (h : s.stop = some s') : StopStep s s' := by
  unfold Shutdown.stop at h
  split at h <;> rename_i hpc <;> cases h
  · exact ⟨rfl, fun _ => rfl, fun l' hl' => ⟨l', hl', rfl⟩, rfl, rfl, by simp [hpc], .inr ⟨rfl, nofun⟩⟩
  · refine ⟨rfl, id, fun l' hl' => ?_, rfl, rfl, by simp [hpc], .inr ⟨rfl, nofun⟩⟩
    obtain ⟨l, hl, rfl⟩ := List.mem_map.1 hl'
    exact ⟨l, hl, by split <;> rfl⟩
  · exact ⟨rfl, id, fun l' hl' => ⟨l', hl', rfl⟩, rfl, rfl, by simp [hpc], .inr ⟨rfl, nofun⟩⟩
  · exact ⟨rfl, id, fun l' hl' => ⟨l', hl', rfl⟩, rfl, rfl, by simp [hpc], .inl ⟨hpc, rfl⟩⟩

/-- What a quiet step does to `incomingMessages` and the handler's state: nothing; the send of
the message a forwarding `handlePeer` holds; or `messageLoop` taking the oldest message and
running the handler on it to its end. -/
inductive QueueStep (handle : σ → Nat → μ → Outcome σ) (s s' : Shutdown σ μ) : Prop where
  | keep : s'.queue = s.queue → s'.handler = s.handler → QueueStep handle s s'
  | send (peer : Nat) (l : Link μ) (msg : μ) : s.links[peer]? = some l → l.pc = .forwarding msg →
      s'.queue = s.queue ++ [(peer, msg)] → s'.handler = s.handler → QueueStep handle s s'
  | handled (peer : Nat) (msg : μ) : s.queue = (peer, msg) :: s'.queue →
      handle s.handler peer msg = .ok s'.handler → QueueStep handle s s'
  | failed (peer : Nat) (msg : μ) (e : String) : s.queue = (peer, msg) :: s'.queue →
      handle s.handler peer msg = .err e → s'.handler = s.handler → QueueStep handle s s'

/-- A step that neither runs `Stop` nor panics: `m.ctx`, `Stop` and the channel's state stay as
they were, each session moves at most by a step of its `handlePeer`, and `incomingMessages`
changes as `QueueStep` says. -/
structure QuietStep (handle : σ → Nat → μ → Outcome σ) (s s' : Shutdown σ μ) : Prop where
  ctxDone : s'.ctxDone = s.ctxDone
  stopPc : s'.stopPc = s.stopPc
  messagesClosed : s'.messagesClosed = s.messagesClosed
  panicked : s'.panicked = none
  moves : ∀ l' ∈ s'.links, ∃ l ∈ s.links, Moves s.ctxDone l l'
  queue : QueueStep handle s s'

variable {handle : σ → Nat → μ → Outcome σ}

/-- **What a step can do.**  Before any panic, a step is `Stop`'s next statement; or the send of a
`handlePeer` in its forwarding `select` on the closed `incomingMessages`, which panics; or
`messageLoop`'s handler panicking on the oldest message; or a quiet step. -/
lemma step_cases {s s' : Shutdown σ μ} {e : ShutdownEvent μ} (hst : s.step handle e = some s') :
    s.panicked = none ∧
      ((e = .stop ∧ s.stop = some s') ∨
        (s.messagesClosed = true ∧ s' = { s with panicked := some "send on closed channel" } ∧
          ∃ peer l msg, e = .handlePeer peer .send ∧ s.links[peer]? = some l ∧
            l.pc = .forwarding msg) ∨
        (∃ peer msg q err, s.queue = (peer, msg) :: q ∧ handle s.handler peer msg = .panic err ∧
          s' = { s with queue := q, panicked := some err }) ∨
        QuietStep handle s s') := by
  have hnone : s.panicked = none := by
    cases h : s.panicked
    · rfl
    · simp [Shutdown.step, h] at hst
  refine ⟨hnone, ?_⟩
  have hsame : ∀ l' ∈ s.links, ∃ l ∈ s.links, Moves s.ctxDone l l' := fun l' h => ⟨l', h, .inl rfl⟩
  cases e <;> simp only [Shutdown.step, hnone, Option.isSome_none, Bool.false_eq_true, if_false] at hst
  case stop => exact .inl ⟨rfl, hst⟩
  case handlePeer peer a =>
    split at hst
    · rename_i l hl
      split at hst
      · rename_i l' hh
        cases hst
        exact .inr (.inr (.inr ⟨rfl, rfl, rfl, rfl, moves_set hl (.inr ⟨a, none, hh⟩), .keep rfl rfl⟩))
      · rename_i l' msg hh
        obtain ⟨rfl, hpc⟩ := handlePeer_send hh
        split_ifs at hst with hc
        · cases hst
          exact .inr (.inl ⟨hc, rfl, peer, l, msg, rfl, hl, hpc⟩)
        · cases hst
          exact .inr (.inr (.inr ⟨rfl, rfl, rfl, rfl, moves_set hl (.inr ⟨.send, some msg, hh⟩),
            .send peer l msg hl hpc rfl rfl⟩))
      · cases hst
    · cases hst
  case receive peer msg =>
    split at hst
    · rename_i l hl
      split_ifs at hst <;> cases hst
      · exact .inr (.inr (.inr ⟨rfl, rfl, rfl, rfl, moves_set hl (.inl rfl), .keep rfl rfl⟩))
      · exact .inr (.inr (.inr ⟨rfl, rfl, rfl, hnone, hsame, .keep rfl rfl⟩))
    · cases hst
  case disconnect peer =>
    split at hst
    · rename_i l hl
      cases hst
      exact .inr (.inr (.inr ⟨rfl, rfl, rfl, rfl, moves_set hl (.inl rfl), .keep rfl rfl⟩))
    · cases hst
  case deliver =>
    cases hl : s.looping <;> simp only [hl, Bool.false_eq_true, if_false, if_true] at hst
    · cases hst
    cases hq : s.queue with
    | nil =>
      simp only [hq] at hst
      split_ifs at hst
      cases hst
      exact .inr (.inr (.inr ⟨rfl, rfl, rfl, hnone, hsame, .keep rfl rfl⟩))
    | cons pm q =>
      obtain ⟨peer, msg⟩ := pm
      simp only [hq] at hst
      split at hst <;> rename_i hh <;> cases hst
      · exact .inr (.inr (.inr ⟨rfl, rfl, rfl, rfl, hsame, .handled peer msg hq hh⟩))
      · exact .inr (.inr (.inr ⟨rfl, rfl, rfl, rfl, hsame, .failed peer msg _ hq hh rfl⟩))
      · exact .inr (.inr (.inl ⟨peer, msg, q, _, rfl, hh, rfl⟩))
  case loopExits =>
    split_ifs at hst
    cases hst
    exact .inr (.inr (.inr ⟨rfl, rfl, rfl, rfl, hsame, .keep rfl rfl⟩))

/-- **Where a panic comes from.**  A step that panics is the send of a `handlePeer` in its
forwarding `select` after `Stop` has closed `incomingMessages`, or `messageLoop`'s handler
panicking on the oldest message. -/
lemma step_panicked {s s' : Shutdown σ μ} {e : ShutdownEvent μ} (hst : s.step handle e = some s')
    {err : String} (hp : s'.panicked = some err) :
    (s'.messagesClosed = true ∧ err = "send on closed channel" ∧
      ∃ (peer : Nat) (l : Link μ) (msg : μ), s.links[peer]? = some l ∧ l.pc = .forwarding msg) ∨
    ∃ peer msg, (peer, msg) ∈ s.queue ∧ handle s.handler peer msg = .panic err := by
  obtain ⟨hnone, ⟨-, hstop⟩ | ⟨hc, rfl, _, l, msg, -, hl, hpc⟩ | ⟨peer, msg, q, _, hq, hh, rfl⟩ | hq⟩ :=
    step_cases hst
  · simp [(stop_cases hstop).panicked, hnone] at hp
  · cases hp
    exact .inl ⟨hc, rfl, _, l, msg, hl, hpc⟩
  · cases hp
    exact .inr ⟨peer, msg, by simp [hq], hh⟩
  · simp [hq.panicked] at hp

/-- A step keeps every invariant of the handler's state that the handler keeps. -/
lemma step_handler {Inv : σ → Prop} (hok : ∀ h p m h', Inv h → handle h p m = .ok h' → Inv h')
    {s s' : Shutdown σ μ} {e : ShutdownEvent μ} (hst : s.step handle e = some s')
    (hinv : Inv s.handler) : Inv s'.handler := by
  obtain ⟨-, ⟨-, hstop⟩ | ⟨-, rfl, -⟩ | ⟨_, _, _, _, -, -, rfl⟩ | hq⟩ := step_cases hst
  · rwa [(stop_cases hstop).handler]
  · exact hinv
  · exact hinv
  · cases hq.queue with
    | keep _ hh => rwa [hh]
    | send _ _ _ _ _ _ hh => rwa [hh]
    | handled _ _ _ hh => exact hok _ _ _ _ hinv hh
    | failed _ _ _ _ _ hh => rwa [hh]

/-! ### Every run -/

/-- The handler's state keeps, along every run, every invariant the handler keeps. -/
lemma handler_of_reach {Inv : σ → Prop} (hok : ∀ h p m h', Inv h → handle h p m = .ok h' → Inv h')
    {s₀ s : Shutdown σ μ} (hr : Reach (step handle) s₀ s) (h₀ : Inv s₀.handler) : Inv s.handler := by
  induction hr with
  | init => exact h₀
  | next _ hst ih => exact step_handler hok hst ih

/-- In every run from a manager before `Stop`, `incomingMessages` is closed only once `Stop` has
returned. -/
lemma closed_of_reach {links : List (Link μ)} {h₀ : σ} {s : Shutdown σ μ}
    (hr : Reach (step handle) (start links h₀) s) (hc : s.messagesClosed = true) :
    s.stopPc = .closed := by
  induction hr with
  | init => cases hc
  | @next s s' _ _ hst ih =>
    obtain ⟨-, ⟨-, hstop⟩ | ⟨-, rfl, -⟩ | ⟨_, _, _, _, -, -, rfl⟩ | hq⟩ := step_cases hst
    · obtain ⟨-, -, -, -, -, hnc, ⟨-, hcl⟩ | ⟨hmc, -⟩⟩ := stop_cases hstop
      · exact hcl
      · exact absurd (ih (hmc ▸ hc)) hnc
    · exact ih hc
    · exact ih hc
    · exact hq.stopPc ▸ ih (hq.messagesClosed ▸ hc)

/-- At the top of its loop or returned: not inside `ReceiveMessage` or the forwarding `select`. -/
def Parked (l : Link μ) : Prop := l.pc = .top ∨ l.pc = .exited

/-- Once `m.ctx` is cancelled, a parked `handlePeer` stays parked: its check returns. -/
lemma Moves.parked {l l' : Link μ} (hl : Parked l) (hm : Moves true l l') : Parked l' := by
  rcases hm with hpc | ⟨a, b, h⟩
  · unfold Parked; rwa [hpc]
  · rcases hl with hpc | hpc <;> cases a <;> simp [handlePeer, hpc] at h
    obtain ⟨rfl, -⟩ := h
    exact .inr (by simp)

/-- From a state in which `m.ctx` is cancelled and every `handlePeer` is parked, every run keeps
them parked and `m.ctx` cancelled, and sends nothing: `incomingMessages` only loses its oldest
messages. -/
lemma parked_of_reach {s₀ s : Shutdown σ μ} (hr : Reach (step handle) s₀ s)
    (hctx : s₀.ctxDone = true) (hparked : ∀ l ∈ s₀.links, Parked l) :
    s.ctxDone = true ∧ (∀ l ∈ s.links, Parked l) ∧ s.queue <:+ s₀.queue := by
  induction hr with
  | init => exact ⟨hctx, hparked, List.suffix_refl _⟩
  | @next s s' _ _ hst ih =>
    obtain ⟨hc, hpk, hsuf⟩ := ih
    have hforward : ∀ {peer} {l : Link μ} {msg}, s.links[peer]? = some l → l.pc = .forwarding msg →
        False :=
      fun hl hpc => by rcases hpk _ (List.getElem?_mem hl) with h | h <;> simp [h] at hpc
    obtain ⟨-, ⟨-, hstop⟩ | ⟨-, -, _, _, _, -, hl, hpc⟩ | ⟨_, _, q, _, hq, -, rfl⟩ | hq⟩ :=
      step_cases hst
    · have h := stop_cases hstop
      refine ⟨h.ctxDone hc, fun l' hl' => ?_, h.queue ▸ hsuf⟩
      obtain ⟨l, hl, hpc⟩ := h.pcs l' hl'
      exact Moves.parked (hpk l hl) (.inl hpc)
    · exact (hforward hl hpc).elim
    · exact ⟨hc, hpk, (List.suffix_cons _ q).trans (hq ▸ hsuf)⟩
    · refine ⟨hq.ctxDone ▸ hc, fun l' hl' => ?_, ?_⟩
      · obtain ⟨l, hl, hm⟩ := hq.moves l' hl'
        exact Moves.parked (hpk l hl) (hc ▸ hm)
      · cases hq.queue with
        | keep hq' _ => exact hq' ▸ hsuf
        | send _ _ _ hl hpc _ _ => exact (hforward hl hpc).elim
        | handled _ _ hq' _ => exact (List.suffix_cons _ _).trans (hq' ▸ hsuf)
        | failed _ _ _ hq' _ _ => exact (List.suffix_cons _ _).trans (hq' ▸ hsuf)

end Shutdown

/-! ## With `handlePeerMessage` as the handler -/

/-- The state `messageLoop`'s `handlePeerMessage` reads and writes: the peer manager, the piece
store, and the sessions by number. -/
abbrev HandlerState (D : Type) := PeerManager × Store D × List Peer

namespace PeerManager

variable {D : Type}

/-- `messageLoop`'s `m.handlePeerMessage(peerMsg)` on a message from session `peer`.  The piece
handler's notifications go to the download coordinator, which this machine leaves out. -/
def onMessage (dm : DiskManager D) (h : HandlerState D) (peer : Nat) (msg : Message) :
    Outcome (HandlerState D) :=
  match h.2.2[peer]? with
  | some p =>
    match h.1.handlePeerMessage dm h.2.1 p (some msg) with
    | .ok (m, st, p', _) => .ok (m, st, h.2.2.set peer p')
    | .err e => .err e
    | .panic e => .panic e
  | none => .ok h

/-- `n` pieces, and our bitfield names none past them: what `handlePeerMessage` keeps. -/
def InRange (n : Nat) (h : HandlerState D) : Prop :=
  h.2.1.mgr.pieces.length = n ∧ ∀ j, h.1.hasPieceIndex j = true → j < n

/-- `e` is the panic of `handlePeerMessage` on `msg` with `n` pieces: `msg` is a PIECE whose index
is past the last piece, and `e` is the runtime's index-out-of-range message. -/
def PieceOutOfRange (n : Nat) (msg : Message) (e : String) : Prop :=
  ∃ index begin block, msg.parsePiece = .ok (index, begin, block) ∧ n ≤ index.toNat ∧
    e = s!"runtime error: index out of range [{index.toNat}] with length {n}"

lemma onMessage_inRange {dm : DiskManager D} {n : Nat} {h h' : HandlerState D} {peer : Nat}
    {msg : Message} (hinv : InRange n h) (hok : onMessage dm h peer msg = .ok h') : InRange n h' := by
  unfold onMessage at hok
  split at hok
  · split at hok <;> cases hok
    obtain ⟨hbf, hlen⟩ := handlePeerMessage_keeps (by assumption)
    dsimp only at hbf hlen
    exact ⟨hlen.trans hinv.1, fun j hj => hinv.2 j (by simpa [hasPieceIndex, hbf] using hj)⟩
  · cases hok; exact hinv

lemma onMessage_panic {dm : DiskManager D} {n : Nat} {h : HandlerState D} {peer : Nat}
    {msg : Message} {e : String} (hinv : InRange n h) (hp : onMessage dm h peer msg = .panic e) :
    PieceOutOfRange n msg e := by
  unfold onMessage at hp
  split at hp
  · split at hp <;> cases hp
    obtain ⟨_, index, begin, block, hx, -, hparse, hle, rfl⟩ :=
      handlePeerMessage_panic (fun j hj => hinv.1 ▸ hinv.2 j hj) (by assumption)
    cases hx
    exact ⟨index, begin, block, hparse, hinv.1 ▸ hle, by rw [hinv.1]⟩
  · cases hp

end PeerManager

namespace Shutdown

open PeerManager

variable {D : Type}

/-- **Nothing but a PIECE past the last piece panics before `Stop` closes `incomingMessages`.**
Take a manager before `Stop` whose bitfield names only existing pieces.  In every run from it,
`incomingMessages` is closed only once `Stop` has returned, and a goroutine has panicked only by
sending on the closed channel, or in `messageLoop`'s `handlePeerMessage` on a PIECE whose index
is past the last piece. -/
theorem closed_before_panic (dm : DiskManager D) {links : List (Link Message)}
    {h₀ : HandlerState D} (hbf : ∀ j, h₀.1.hasPieceIndex j = true → j < h₀.2.1.mgr.pieces.length)
    {s : Shutdown (HandlerState D) Message} (hr : Reach (step (onMessage dm)) (start links h₀) s) :
    (s.messagesClosed = true → s.stopPc = .closed) ∧
      ∀ e, s.panicked = some e → (s.messagesClosed = true ∧ e = "send on closed channel") ∨
        ∃ msg, PieceOutOfRange h₀.2.1.mgr.pieces.length msg e := by
  refine ⟨closed_of_reach hr, fun e hp => ?_⟩
  cases hr with
  | init => cases hp
  | next hr₁ hst =>
    have hinv := handler_of_reach (fun _ _ _ _ => onMessage_inRange) hr₁ ⟨rfl, hbf⟩
    rcases step_panicked hst hp with ⟨hc, he, -⟩ | ⟨_, msg, -, hh⟩
    · exact .inl ⟨hc, he⟩
    · exact .inr ⟨msg, onMessage_panic hinv hh⟩

/-- A manager wired to a store of one piece of one byte, with one session. -/
def wiredOne : HandlerState Unit :=
  (PeerManager.wired 1, Store.init (PieceManager.new 1 1 1) (), [Peer.new])

/-- One session in the map, its `handlePeer` at the top of its loop. -/
def oneSession : List (Link Message) := [⟨.top, true, false, []⟩]

/-- The session's receive loop forwards a PIECE for piece `1`; `handlePeer` sends it on, and
`messageLoop` hands it to `handlePeerMessage`. -/
def pieceTrace : List (ShutdownEvent Message) :=
  [.receive 0 (Message.newPieceMessage 1 0 [7]), .handlePeer 0 .check, .handlePeer 0 .takeMessage,
   .handlePeer 0 .send, .deliver]

theorem closed_before_panic_sample :
    ∃ s, pieceTrace.foldlM (step (onMessage Store.acceptAll)) (start oneSession wiredOne) = some s ∧
      s.panicked = some "runtime error: index out of range [1] with length 1" ∧
      (s.messagesClosed = true → s.stopPc = .closed) ∧
      ∀ e, s.panicked = some e → (s.messagesClosed = true ∧ e = "send on closed channel") ∨
        ∃ msg, PieceOutOfRange wiredOne.2.1.mgr.pieces.length msg e :=
  ⟨_, rfl, rfl, @closed_before_panic _ Store.acceptAll oneSession wiredOne
    (fun j hj => by
      simp only [wiredOne, PeerManager.wired, PeerManager.new, hasPieceIndex,
        bitfieldHas_replicate_zero, Bool.false_eq_true] at hj) _
    (@Reach.foldlM _ _ _ _ _ _ pieceTrace .init rfl)⟩

/-- Right after `m.cancel()`: one session at the top of its loop with a message waiting, one whose
`handlePeer` has returned, and a PIECE for the one piece queued in `incomingMessages`. -/
def cancelledParked : Shutdown (HandlerState Unit) Message :=
  { start [⟨.top, true, false, [Message.newPieceMessage 0 0 [7]]⟩, ⟨.exited, false, true, []⟩]
      wiredOne with
    ctxDone := true, stopPc := .cancelled, queue := [(0, Message.newPieceMessage 0 0 [7])] }

/-- The session's receive loop delivers a message; `handlePeer` passes its check and takes the
message from `ReceiveMessage`; then `Stop` runs to its end. -/
def stopTrace (msg : Message) : List (ShutdownEvent Message) :=
  [.receive 0 msg, .handlePeer 0 .check, .handlePeer 0 .takeMessage, .stop, .stop, .stop, .stop]

/-- **`Stop` lets a `handlePeer` send on the closed channel.**  Whatever the message and whatever
the handler's state, after `stopTrace` `Stop` has returned while the session's `handlePeer` holds
the message in its forwarding `select`.  Both its give-up case and its send case are ready, and
the `select` may take the send: the runtime panics with "send on closed channel". -/
theorem stop_sends_on_closed (dm : DiskManager D) (h₀ : HandlerState D) (msg : Message) :
    ∃ s s', Reach (step (onMessage dm)) (start oneSession h₀) s ∧ s.stopPc = .closed ∧
      (s.step (onMessage dm) (.handlePeer 0 .giveUp)).isSome ∧
      s.step (onMessage dm) (.handlePeer 0 .send) = some s' ∧
      s'.panicked = some "send on closed channel" :=
  ⟨_, _, @Reach.foldlM _ _ _ _ _ _ (stopTrace msg) .init rfl, rfl, rfl, rfl, rfl⟩

end Shutdown

end BitTorrent
