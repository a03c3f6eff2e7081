import BitTorrentClient.Piece.Lifecycle

/-!
# The active-request counter

`Statistics.ActiveRequests` is kept by `Manager.AddRequest`, which adds one, and
`Manager.RemoveRequest`, which takes one off while it is positive.  The entries it counts live in
the pieces' `Requests` maps, which change in more places: `Piece.AddRequest` overwrites an entry
of the same key, `RemoveRequest` and `CancelRequest` delete one only if it is there, and
`SetBlockData` (the first section of `AddBlockData`) deletes every entry for the block it
fills.  `requestEntries` is the number of entries.

* `requestEntries_addRequest`, `requestEntries_removeRequest`, `requestEntries_cancelRequest`,
  `requestEntries_receiveBlock` — how each call changes the entries;
* `activeRequests_drift` — so the counter and the entries part: a key added twice and removed
  once, a request cancelled, a requested block arriving, each leaves the counter at one with no
  entry;
* **`Store.activeRequests_ledger`** — on every run from `NewManager`, the counter less the
  entries is the run's drift (`Action.drift`): the entries a duplicate `AddRequest` overwrites,
  a `CancelRequest` deletes and a block arrival deletes, and the gap a `RemoveRequest` of an
  absent key opens.
-/

namespace BitTorrent

/-- How many entries of `p.Requests` have key `key`. -/
def Piece.keyCount (p : Piece) (key : RequestKey) : Nat := p.requests.countP (·.1 = key)

/-- How many entries of `p.Requests` are for the block at `begin`. -/
def Piece.pendingAt (p : Piece) (begin : Nat) : Nat := p.requests.countP (·.2.block.begin = begin)

/-- Filtering out the entries whose `f` is `b` removes as many as there are. -/
lemma length_filter_ne_add_countP {α β : Type} [DecidableEq β] (f : α → β) (b : β) (l : List α) :
    (l.filter fun a => f a ≠ b).length + l.countP (fun a => f a = b) = l.length := by
  induction l with
  | nil => rfl
  | cons a l ih =>
    by_cases h : f a = b <;> simp [List.filter_cons, List.countP_cons, h] at ih ⊢ <;> omega

lemma Piece.addRequest_requests_length (p : Piece) (peerID : Bytes) (block : Block) (now : Nat) :
    (p.addRequest peerID block now).requests.length + p.keyCount ⟨peerID, block.begin, block.length⟩ =
      p.requests.length + 1 := by
  have := length_filter_ne_add_countP (·.1) ⟨peerID, block.begin, block.length⟩ p.requests
  simp only [Piece.addRequest, Piece.keyCount, List.length_cons]
  omega

lemma Piece.removeRequest_requests_length (p : Piece) (peerID : Bytes) (begin length : Nat) :
    (p.removeRequest peerID begin length).requests.length + p.keyCount ⟨peerID, begin, length⟩ =
      p.requests.length :=
  length_filter_ne_add_countP (fun e : RequestKey × Request => e.1) _ p.requests

/-- `SetBlockData` clears every request for the block it fills. -/
lemma Piece.setBlockData_requests {p p' : Piece} {begin : Nat} {data : Bytes}
    (h : p.setBlockData begin data = .ok p') :
    p'.requests.length + p.pendingAt begin = p.requests.length := by
  unfold Piece.setBlockData at h
  cases hs : storeBlock begin data p.blocks with
  | error e => simp [hs] at h
  | ok bs =>
    simp only [hs, bind, Except.bind, pure, Except.pure, Except.ok.injEq] at h
    subst h
    exact length_filter_ne_add_countP (fun e : RequestKey × Request => e.2.block.begin) _ _

namespace PieceManager

variable {m m' : PieceManager}

/-- The number of entries in the pieces' `Requests` maps. -/
def requestEntries (m : PieceManager) : Nat := (m.pieces.map fun p => p.requests.length).sum

/-- A sum over a list with one element changed. -/
lemma sum_map_modify {α : Type} (g : α → Nat) (f : α → α) :
    ∀ (l : List α) (i : Nat) {a : α}, l[i]? = some a →
      ((l.modify f i).map g).sum + g a = (l.map g).sum + g (f a)
  | [], _, _, h => by simp at h
  | x :: xs, 0, _, h => by
    simp only [List.getElem?_cons_zero, Option.some.injEq] at h
    subst h
    simp only [List.modify_zero_cons, List.map_cons, List.sum_cons]
    omega
  | x :: xs, i + 1, _, h => by
    have := sum_map_modify g f xs i (by simpa using h)
    simp only [List.modify_succ_cons, List.map_cons, List.sum_cons]
    omega

lemma requestEntries_modifyPiece {i : Nat} {p : Piece} (hp : m.pieces[i]? = some p)
    (f : Piece → Piece) :
    (m.modifyPiece i f).requestEntries + p.requests.length =
      m.requestEntries + (f p).requests.length :=
  sum_map_modify _ f m.pieces i hp

/-- A change to one piece that leaves its requests leaves the entries. -/
lemma requestEntries_modify_of_requests (pieces : List Piece) (i : Nat) {f : Piece → Piece}
    (hf : ∀ p, (f p).requests = p.requests) :
    ((pieces.modify f i).map fun p => p.requests.length).sum =
      (pieces.map fun p => p.requests.length).sum := by
  cases hp : pieces[i]? with
  | none => rw [List.modify_eq_self (by simpa using hp)]
  | some p => have := sum_map_modify (fun p => p.requests.length) f pieces i hp; simp only [hf] at this; omega

lemma requestEntries_addRequest {i : Nat} {p : Piece} (hp : m.pieces[i]? = some p) (peerID : Bytes)
    (block : Block) (now : Nat) :
    (m.addRequest i peerID block now).requestEntries + p.keyCount ⟨peerID, block.begin, block.length⟩ =
        m.requestEntries + 1 ∧
      (m.addRequest i peerID block now).stats.activeRequests = m.stats.activeRequests + 1 := by
  have hi : i < m.pieces.length := (List.getElem?_eq_some_iff.mp hp).1
  refine ⟨?_, by simp [addRequest, hi]⟩
  have h1 := requestEntries_modifyPiece hp (·.addRequest peerID block now)
  have h2 := p.addRequest_requests_length peerID block now
  simp only [addRequest, if_pos hi, requestEntries] at h1 ⊢
  omega

lemma requestEntries_removeRequest {i : Nat} {p : Piece} (hp : m.pieces[i]? = some p)
    (peerID : Bytes) (begin length : Nat) :
    (m.removeRequest i peerID begin length).requestEntries + p.keyCount ⟨peerID, begin, length⟩ =
        m.requestEntries ∧
      (m.removeRequest i peerID begin length).stats.activeRequests = m.stats.activeRequests - 1 := by
  have hi : i < m.pieces.length := (List.getElem?_eq_some_iff.mp hp).1
  refine ⟨?_, by simp [removeRequest, hi]⟩
  have h1 := requestEntries_modifyPiece hp (·.removeRequest peerID begin length)
  have h2 := p.removeRequest_requests_length peerID begin length
  simp only [removeRequest, if_pos hi, requestEntries] at h1 ⊢
  omega

lemma requestEntries_cancelRequest {i : Nat} {p : Piece} (hp : m.pieces[i]? = some p)
    (peerID : Bytes) (begin length : Nat) :
    (m.cancelRequest i peerID begin length).requestEntries + p.keyCount ⟨peerID, begin, length⟩ =
        m.requestEntries ∧
      (m.cancelRequest i peerID begin length).stats = m.stats := by
  have hi : i < m.pieces.length := (List.getElem?_eq_some_iff.mp hp).1
  refine ⟨?_, by simp [cancelRequest, hi, modifyPiece]⟩
  have h1 := requestEntries_modifyPiece hp (·.removeRequest peerID begin length)
  have h2 := p.removeRequest_requests_length peerID begin length
  simp only [cancelRequest, if_pos hi, requestEntries] at h1 ⊢
  omega

lemma requestEntries_receiveBlock {i begin : Nat} {data : Bytes}
    (h : m.receiveBlock i begin data = .ok m') :
    ∃ p, m.pieces[i]? = some p ∧ m'.requestEntries + p.pendingAt begin = m.requestEntries ∧
      m'.stats.activeRequests = m.stats.activeRequests := by
  obtain ⟨p, p', hp, hs, hpieces, -, hstats⟩ := receiveBlock_spec.2 m' h
  have h1 := sum_map_modify (fun p => p.requests.length) (fun _ => p') m.pieces i hp
  have h2 := Piece.setBlockData_requests hs
  refine ⟨p, hp, ?_, by rw [hstats]⟩
  simp only [requestEntries, hpieces, List.set_eq_modify] at h1 ⊢
  omega

@[simp] lemma modifyPiece_stats (m : PieceManager) (i : Nat) (f : Piece → Piece) :
    (m.modifyPiece i f).stats = m.stats := rfl

/-- A change to one piece that leaves its requests leaves the entries. -/
lemma requestEntries_modifyPiece_of_requests (m : PieceManager) (i : Nat) {f : Piece → Piece}
    (hf : ∀ p, (f p).requests = p.requests) : (m.modifyPiece i f).requestEntries = m.requestEntries :=
  requestEntries_modify_of_requests m.pieces i hf

/-- `MarkPieceVerified` leaves the entries and the counter. -/
lemma markPieceVerified_requests (m : PieceManager) (i : Nat) :
    ((m.markPieceVerified i).toOption.getD m).requestEntries = m.requestEntries ∧
      ((m.markPieceVerified i).toOption.getD m).stats.activeRequests = m.stats.activeRequests := by
  cases hp : m.pieces[i]? with
  | none => rw [markPieceVerified_of_none hp]; exact ⟨rfl, rfl⟩
  | some p =>
    rw [markPieceVerified_of_getElem? hp]
    exact ⟨requestEntries_modify_of_requests m.pieces i fun _ => rfl, rfl⟩

/-- The block of a one-byte piece. -/
def oneByteBlock : Block := ⟨0, 0, 1, none, none⟩

/-- A one-byte piece, requested once from peer `[1]`. -/
def requestedOnce : PieceManager := (new 1 1 1).addRequest 0 [1] oneByteBlock 0

theorem activeRequests_drift :
    (requestedOnce.addRequest 0 [1] oneByteBlock 0).stats.activeRequests = 2 ∧
      (requestedOnce.addRequest 0 [1] oneByteBlock 0).requestEntries = 1 ∧
      ((requestedOnce.addRequest 0 [1] oneByteBlock 0).removeRequest 0 [1] 0 1).stats.activeRequests = 1 ∧
      ((requestedOnce.addRequest 0 [1] oneByteBlock 0).removeRequest 0 [1] 0 1).requestEntries = 0 ∧
      (requestedOnce.cancelRequest 0 [1] 0 1).stats.activeRequests = 1 ∧
      (requestedOnce.cancelRequest 0 [1] 0 1).requestEntries = 0 ∧
      ∃ m', requestedOnce.addBlockData 0 0 [7] = .ok (m', true) ∧ m'.stats.activeRequests = 1 ∧
        m'.requestEntries = 0 :=
  ⟨by decide, by decide, by decide, by decide, by decide, by decide, _, rfl, by decide, by decide⟩

end PieceManager

/-! ## The drift over a run -/

/-- How far action `a`, taken on manager `m`, moves `ActiveRequests` away from the number of
entries: an `AddRequest` by the entries of its key that it overwrites, a `RemoveRequest` by the
entries of its key it deletes less the one it counts off (none once the counter is zero), a
`CancelRequest` by the entries it deletes, a block arriving by the requests for it that
`SetBlockData` deletes.  Every other section moves neither. -/
def Action.drift (m : PieceManager) : Action → Int
  | .addBlockData i begin data =>
    match m.receiveBlock i begin data, m.pieces[i]? with
    | .ok _, some p => p.pendingAt begin
    | _, _ => 0
  | .addRequest i peerID block _ =>
    match m.pieces[i]? with
    | some p => p.keyCount ⟨peerID, block.begin, block.length⟩
    | none => 0
  | .removeRequest i peerID begin length =>
    match m.pieces[i]? with
    | some p => p.keyCount ⟨peerID, begin, length⟩ - min m.stats.activeRequests 1
    | none => 0
  | .cancelRequest i peerID begin length =>
    match m.pieces[i]? with
    | some p => p.keyCount ⟨peerID, begin, length⟩
    | none => 0
  | _ => 0

namespace Store

variable {D : Type} {dm : DiskManager D} {s s' : Store D}

open PieceManager

/-- The drift of a run: the sum of its actions' drifts, each on the manager it is taken on. -/
def driftRun (dm : DiskManager D) : Store D → List Action → Int
  | _, [] => 0
  | s, a :: as =>
    match step dm s a with
    | some s' => a.drift s.mgr + driftRun dm s' as
    | none => 0

/-- The counter less the entries, the quantity every step moves by its drift. -/
def gap (s : Store D) : Int := s.mgr.stats.activeRequests - s.mgr.requestEntries

/-- One step moves the counter away from the entries by its drift. -/
lemma gap_step {a : Action} (hst : step dm s a = some s') : s'.gap = s.gap + a.drift s.mgr := by
  unfold gap
  cases a with
  | addBlockData i begin data =>
    obtain ⟨-, ⟨m, hr, rfl⟩ | ⟨e, hr, rfl⟩⟩ := step_addBlockData hst
    · obtain ⟨p, hp, he, hc⟩ := requestEntries_receiveBlock hr
      simp only [Action.drift, hr, hp]
      omega
    · simp [Action.drift, hr]
  | checkComplete => obtain ⟨i, -, rfl⟩ := step_checkComplete hst; simp [Action.drift]
  | setDownloaded =>
    obtain ⟨i, -, rfl⟩ := step_setDownloaded hst
    simp [Action.drift, PieceManager.setDownloaded, requestEntries_modifyPiece_of_requests _ i
      (f := fun p => { p with state := .downloaded }) fun _ => rfl]
  | getData k =>
    obtain ⟨i, p, -, -, ⟨d, -, rfl⟩ | ⟨e, -, rfl⟩⟩ := step_getData hst <;> simp [Action.drift]
  | verify k =>
    obtain ⟨i, d, -, ⟨-, disk, -, rfl⟩ | ⟨-, e, -, rfl⟩ | ⟨-, rfl⟩⟩ := step_verify hst
    · simp [Action.drift]
    · simp [Action.drift]
    · simp [Action.drift, PieceManager.resetPiece,
        requestEntries_modifyPiece_of_requests _ i (f := Piece.reset) fun _ => rfl]
  | mark k =>
    obtain ⟨i, -, rfl⟩ := step_mark hst
    have := markPieceVerified_requests s.mgr i
    simp only [Action.drift]
    omega
  | markPieceVerified i =>
    cases hst
    have := markPieceVerified_requests s.mgr i
    simp only [Action.drift]
    omega
  | addRequest i peerID block now =>
    cases hst
    cases hp : s.mgr.pieces[i]? with
    | none =>
      simp [Action.drift, hp, PieceManager.addRequest,
        if_neg (Nat.not_lt.mpr (List.getElem?_eq_none_iff.mp hp))]
    | some p =>
      have := requestEntries_addRequest hp peerID block now
      simp only [Action.drift, hp]
      omega
  | removeRequest i peerID begin length =>
    cases hst
    cases hp : s.mgr.pieces[i]? with
    | none =>
      simp [Action.drift, hp, PieceManager.removeRequest,
        if_neg (Nat.not_lt.mpr (List.getElem?_eq_none_iff.mp hp))]
    | some p =>
      have := requestEntries_removeRequest hp peerID begin length
      simp only [Action.drift, hp]
      omega
  | cancelRequest i peerID begin length =>
    cases hst
    cases hp : s.mgr.pieces[i]? with
    | none =>
      simp [Action.drift, hp, PieceManager.cancelRequest,
        if_neg (Nat.not_lt.mpr (List.getElem?_eq_none_iff.mp hp))]
    | some p =>
      have := requestEntries_cancelRequest hp peerID begin length
      simp only [Action.drift, hp, this.2]
      omega
  | requestBlock i begin length now =>
    cases hst
    unfold PieceManager.requestBlock
    split
    · simp [Action.drift, Except.toOption, requestEntries_modifyPiece_of_requests _ i
        (f := fun p => { p with blocks := stampBlock begin length now p.blocks }) fun _ => rfl]
    · simp [Action.drift, Except.toOption]

/-- A run moves the counter away from the entries by its drift. -/
lemma gap_run : ∀ {s s' : Store D} (as : List Action), run dm s as = some s' →
    s'.gap = s.gap + driftRun dm s as
  | _, _, [], h => by cases h; simp [driftRun]
  | s, _, a :: as, h => by
    simp only [run] at h
    cases hst : step dm s a with
    | none => simp [hst] at h
    | some s₁ =>
      simp only [hst, Option.bind_some] at h
      rw [gap_run as h, gap_step hst]
      simp only [driftRun, hst]
      omega

/-- **The counter's drift.**  On every run from `NewManager(n, ...)`, with any request calls,
block arrivals and verifications in any order, `ActiveRequests` less the number of entries in
the pieces' `Requests` maps is the run's drift: what duplicate adds, removals of absent keys,
cancels and arrivals moved it by.  A run with no drift keeps the counter right. -/
theorem activeRequests_ledger {n pl lpl : Nat} {disk : D} (as : List Action)
    (h : run dm (Store.init (PieceManager.new n pl lpl) disk) as = some s) :
    (s.mgr.stats.activeRequests : Int) - s.mgr.requestEntries =
      driftRun dm (Store.init (PieceManager.new n pl lpl) disk) as := by
  have h₀ : (Store.init (PieceManager.new n pl lpl) disk).gap = 0 := by
    simp [gap, Store.init, requestEntries, PieceManager.new, newPiece, Function.comp_def]
  have h' := gap_run as h
  rw [h₀, zero_add] at h'
  exact h'

/-- A key added twice and removed once. -/
def duplicateTrace : List Action :=
  [.addRequest 0 [1] oneByteBlock 0, .addRequest 0 [1] oneByteBlock 0, .removeRequest 0 [1] 0 1]

theorem activeRequests_ledger_sample :
    ∃ s, run acceptAll (Store.init (PieceManager.new 1 1 1) ()) duplicateTrace = some s ∧
      (s.mgr.stats.activeRequests : Int) - s.mgr.requestEntries =
        driftRun acceptAll (Store.init (PieceManager.new 1 1 1) ()) duplicateTrace ∧
      driftRun acceptAll (Store.init (PieceManager.new 1 1 1) ()) duplicateTrace = 1 :=
  ⟨_, rfl, activeRequests_ledger duplicateTrace rfl, by decide⟩

end Store

end BitTorrent
