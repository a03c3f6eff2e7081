import BitTorrentClient.Piece.Store

/-!
# What every run of the piece store keeps

`Store.Shape n len` is the invariant every later result stands on: the manager holds `n`
pieces laid out by `NewPiece` with lengths `len`, each payload has its block's length, the
bitfield has `⌈n / 8⌉` bytes, and every goroutine in flight works on one of the `n` pieces,
a verification goroutine holding exactly its piece's worth of data.

It is built in three layers, one preservation lemma per operation in each: `Piece.Shaped` for
one piece, `PieceManager.Shape` for the manager, `Store.Shape` for the store and its
goroutines.  **`Reachable.shape`** puts them together over every run from `NewManager`, and
**`Reachable.bitfield_high_clear`** reads off that no bit at a position `≥ n` is ever set.
-/

namespace BitTorrent

/-- Piece `i` of length `L` as `NewPiece` laid it out, whatever its payloads, state and requests:
its blocks keep their places and every payload has its block's length. -/
structure Piece.Shaped (i L : Nat) (p : Piece) : Prop where
  layout : p.layout = (newPiece i L).layout
  sized : p.Sized

namespace Piece.Shaped

variable {i L : Nat} {p : Piece}

lemma newPiece (i L : Nat) : (BitTorrent.newPiece i L).Shaped i L :=
  ⟨rfl, by simp [Piece.Sized, BitTorrent.newPiece, newBlocks]⟩

lemma setBlockData {p' : Piece} {begin : Nat} {data : Bytes} (h : p.Shaped i L)
    (hs : p.setBlockData begin data = .ok p') : p'.Shaped i L :=
  have hp := Piece.setBlockData_ok hs
  ⟨hp.1.trans h.layout, hp.2.2.2.2 h.sized⟩

lemma reset (h : p.Shaped i L) : p.reset.Shaped i L :=
  ⟨(Piece.reset_layout p).trans h.layout, Piece.reset_sized p⟩

/-- Changing the state, the requests or the request stamps keeps the shape. -/
lemma withState (h : p.Shaped i L) (st : PieceState) : { p with state := st }.Shaped i L :=
  ⟨h.layout, h.sized⟩

lemma withRequests (h : p.Shaped i L) (rs : List (RequestKey × Request)) :
    { p with requests := rs }.Shaped i L :=
  ⟨h.layout, h.sized⟩

lemma stampBlock (h : p.Shaped i L) (begin length now : Nat) :
    { p with blocks := BitTorrent.stampBlock begin length now p.blocks }.Shaped i L :=
  ⟨(stampBlock_layout begin length now p.blocks).trans h.layout,
    stampBlock_sized begin length now p.blocks h.sized⟩

/-- **An assembled piece has its length**: the data `GetData` returns from a shaped piece of
length `L` has `L` bytes. -/
lemma getData_length {d : Bytes} (h : p.Shaped i L) (hd : p.getData = .ok d) : d.length = L := by
  have hlen : p.blocks.map (·.length) = (newBlocks i L).map (·.length) := by
    have := congrArg (List.map fun x => x.2.2) h.layout
    simpa [Piece.layout, BitTorrent.newPiece] using this
  rw [Piece.getData_length h.sized hd, hlen, newBlocks_length_sum]

end Piece.Shaped

namespace PieceManager

/-- The manager-level shape: `n` pieces, piece `i` shaped with length `len i`, a bitfield of
`⌈n / 8⌉` bytes with no bit set at a position `≥ n`. -/
structure Shape (n : Nat) (len : Nat → Nat) (m : PieceManager) : Prop where
  pieces_length : m.pieces.length = n
  pieces : ∀ i (p : Piece), m.pieces[i]? = some p → p.Shaped i (len i)
  bitfield_length : m.bitfield.length = (n + 7) / 8
  high_clear : ∀ j, n ≤ j → bitfieldHas m.bitfield j = false

namespace Shape

variable {n : Nat} {len : Nat → Nat} {m : PieceManager}

lemma new (n pl lpl : Nat) : (new n pl lpl).Shape n (pieceLengthOf n pl lpl) where
  pieces_length := new_pieces_length n pl lpl
  pieces i p hp := by
    rw [new_getElem?] at hp
    split at hp
    · cases hp; exact Piece.Shaped.newPiece _ _
    · cases hp
  bitfield_length := by simp [PieceManager.new]
  high_clear j _ := by simp [PieceManager.new]

/-- Changing one piece in a way that keeps its shape keeps the manager's shape. -/
lemma modifyPiece (h : m.Shape n len) {j : Nat} {f : Piece → Piece}
    (hf : ∀ p, p.Shaped j (len j) → (f p).Shaped j (len j)) : (m.modifyPiece j f).Shape n len where
  pieces_length := by simp [h.pieces_length]
  pieces i p hp := by
    rw [modifyPiece_getElem?] at hp
    split at hp
    · subst i
      cases hq : m.pieces[j]? with
      | none => simp [hq] at hp
      | some q => simp only [hq, Option.map_eq_map, Option.map_some, Option.some.injEq] at hp
                  exact hp ▸ hf q (h.pieces j q hq)
    · exact h.pieces i p hp
  bitfield_length := h.bitfield_length
  high_clear := h.high_clear

lemma receiveBlock (h : m.Shape n len) {i begin : Nat} {data : Bytes} {m' : PieceManager}
    (hr : m.receiveBlock i begin data = .ok m') : i < n ∧ m'.Shape n len := by
  obtain ⟨p, p', hp, hs, hpieces, hbf, -⟩ := receiveBlock_spec.2 m' hr
  have hi : i < n := h.pieces_length ▸ (List.getElem?_eq_some_iff.mp hp).1
  refine ⟨hi, ⟨by simp [hpieces, h.pieces_length], fun j q hq => ?_, hbf ▸ h.bitfield_length,
    hbf ▸ h.high_clear⟩⟩
  rw [hpieces, List.getElem?_set] at hq
  split at hq
  · subst j
    simp only [h.pieces_length, hi, if_true, Option.some.injEq] at hq
    exact hq ▸ (h.pieces i p hp).setBlockData hs
  · exact h.pieces j q hq

lemma setDownloaded (h : m.Shape n len) (i : Nat) : (m.setDownloaded i).Shape n len :=
  h.modifyPiece fun _ hp => hp.withState _

lemma resetPiece (h : m.Shape n len) (i : Nat) : (m.resetPiece i).Shape n len :=
  h.modifyPiece fun _ hp => hp.reset

lemma markPieceVerified (h : m.Shape n len) (i : Nat) :
    ((m.markPieceVerified i).toOption.getD m).Shape n len := by
  unfold PieceManager.markPieceVerified
  split
  · exact h
  · rename_i p hp
    have hi : i < n := h.pieces_length ▸ (List.getElem?_eq_some_iff.mp hp).1
    have hm := h.modifyPiece (j := i) (f := fun q => { q with state := .verified })
      fun q hq => hq.withState _
    simp only [Except.toOption, Option.getD_some]
    refine ⟨hm.pieces_length, hm.pieces, by simp [h.bitfield_length], fun j hj => ?_⟩
    simp only [bitfieldHas_bitfieldSet, h.high_clear j hj, Bool.false_or, Bool.and_eq_false_iff,
      decide_eq_false_iff_not]
    exact .inl (by omega)

lemma addRequest (h : m.Shape n len) (i : Nat) (peerID : Bytes) (block : Block) (now : Nat) :
    (m.addRequest i peerID block now).Shape n len := by
  unfold PieceManager.addRequest
  split
  · have hm := h.modifyPiece (j := i) (f := (·.addRequest peerID block now))
      fun p hp => hp.withRequests _
    exact ⟨hm.pieces_length, hm.pieces, hm.bitfield_length, hm.high_clear⟩
  · exact h

lemma removeRequest (h : m.Shape n len) (i : Nat) (peerID : Bytes) (begin length : Nat) :
    (m.removeRequest i peerID begin length).Shape n len := by
  unfold PieceManager.removeRequest
  split
  · have hm := h.modifyPiece (j := i) (f := (·.removeRequest peerID begin length))
      fun p hp => hp.withRequests _
    exact ⟨hm.pieces_length, hm.pieces, hm.bitfield_length, hm.high_clear⟩
  · exact h

lemma cancelRequest (h : m.Shape n len) (i : Nat) (peerID : Bytes) (begin length : Nat) :
    (m.cancelRequest i peerID begin length).Shape n len := by
  unfold PieceManager.cancelRequest
  split
  · exact h.modifyPiece fun p hp => hp.withRequests _
  · exact h

lemma requestBlock (h : m.Shape n len) (i begin length now : Nat) :
    ((m.requestBlock i begin length now).toOption.getD m).Shape n len := by
  unfold PieceManager.requestBlock
  split
  · exact h.modifyPiece fun p hp => hp.stampBlock begin length now
  · exact h

end Shape

end PieceManager

namespace Store

variable {D : Type} {dm : DiskManager D} {n : Nat} {len : Nat → Nat} {s s' : Store D}

/-- The shape of a store of `n` pieces of lengths `len`: the manager's shape, the message loop
inside `AddBlockData` only for one of the `n` pieces, and every verification goroutine on one of
the `n` pieces, holding data of that piece's length. -/
structure Shape (n : Nat) (len : Nat → Nat) (s : Store D) : Prop where
  mgr : s.mgr.Shape n len
  caller : ∀ i, (s.caller = .checking i ∨ s.caller = .completing i) → i < n
  tasks : ∀ t ∈ s.tasks, t.index < n ∧ ∀ d, t.stage = .holding d → d.length = len t.index

lemma Shape.init (n pl lpl : Nat) (disk : D) :
    (init (PieceManager.new n pl lpl) disk).Shape n (PieceManager.pieceLengthOf n pl lpl) :=
  ⟨PieceManager.Shape.new n pl lpl, fun _ h => by simp [Store.init] at h, fun _ h => by
    simp [Store.init] at h⟩

/-- A task that is not the one replaced is one of the old tasks. -/
lemma Shape.tasks_set (hs : s.Shape n len) {k : Nat} {i : Nat} {st : VerifyStage}
    (hk : s.tasks[k]? = some ⟨i, st'⟩) (hst : ∀ d, st = .holding d → d.length = len i) :
    ∀ t ∈ s.tasks.set k ⟨i, st⟩, t.index < n ∧ ∀ d, t.stage = .holding d → d.length = len t.index :=
  fun t ht => by
    rcases List.mem_or_eq_of_mem_set ht with ht | rfl
    · exact hs.tasks t ht
    · exact ⟨(hs.tasks _ (List.mem_iff_getElem?.mpr ⟨k, hk⟩)).1, hst⟩

lemma Shape.tasks_eraseIdx (hs : s.Shape n len) (k : Nat) :
    ∀ t ∈ s.tasks.eraseIdx k, t.index < n ∧ ∀ d, t.stage = .holding d → d.length = len t.index :=
  fun t ht => hs.tasks t (List.mem_of_mem_eraseIdx ht)

/-- **Every step keeps the shape.** -/
lemma Shape.step (hs : s.Shape n len) {a : Action} (h : step dm s a = some s') :
    s'.Shape n len := by
  cases a with
  | addBlockData i begin data =>
    obtain ⟨-, ⟨m, hr, rfl⟩ | ⟨e, -, rfl⟩⟩ := step_addBlockData h
    · obtain ⟨hi, hm⟩ := hs.mgr.receiveBlock hr
      exact ⟨hm, fun j hj => by simp at hj; omega, hs.tasks⟩
    · exact hs
  | checkComplete =>
    obtain ⟨i, hc, rfl⟩ := step_checkComplete h
    refine ⟨hs.mgr, fun j hj => ?_, hs.tasks⟩
    have hi := hs.caller i (.inl hc)
    split at hj <;> simp_all
  | setDownloaded =>
    obtain ⟨i, hc, rfl⟩ := step_setDownloaded h
    refine ⟨hs.mgr.setDownloaded i, fun j hj => by simp at hj, fun t ht => ?_⟩
    rcases List.mem_append.mp ht with ht | ht
    · exact hs.tasks t ht
    · rw [List.mem_singleton.mp ht]
      exact ⟨hs.caller i (.inr hc), fun d hd => by cases hd⟩
  | getData k =>
    obtain ⟨i, p, ht, hp, ⟨d, hd, rfl⟩ | ⟨e, -, rfl⟩⟩ := step_getData h
    · exact ⟨hs.mgr, hs.caller, hs.tasks_set ht fun d' hd' => by
        cases hd'; exact (hs.mgr.pieces i p hp).getData_length hd⟩
    · exact ⟨hs.mgr, hs.caller, hs.tasks_eraseIdx k⟩
  | verify k =>
    obtain ⟨i, d, ht, ⟨-, disk, -, rfl⟩ | ⟨-, e, -, rfl⟩ | ⟨-, rfl⟩⟩ := step_verify h
    · exact ⟨hs.mgr, hs.caller, hs.tasks_set ht fun _ hd => by cases hd⟩
    · exact ⟨hs.mgr, hs.caller, hs.tasks_eraseIdx k⟩
    · exact ⟨hs.mgr.resetPiece i, hs.caller, hs.tasks_eraseIdx k⟩
  | mark k =>
    obtain ⟨i, -, rfl⟩ := step_mark h
    exact ⟨hs.mgr.markPieceVerified i, hs.caller, hs.tasks_eraseIdx k⟩
  | markPieceVerified i =>
    cases h; exact ⟨hs.mgr.markPieceVerified i, hs.caller, hs.tasks⟩
  | addRequest i peerID block now =>
    cases h; exact ⟨hs.mgr.addRequest i peerID block now, hs.caller, hs.tasks⟩
  | removeRequest i peerID begin length =>
    cases h; exact ⟨hs.mgr.removeRequest i peerID begin length, hs.caller, hs.tasks⟩
  | cancelRequest i peerID begin length =>
    cases h; exact ⟨hs.mgr.cancelRequest i peerID begin length, hs.caller, hs.tasks⟩
  | requestBlock i begin length now =>
    cases h; exact ⟨hs.mgr.requestBlock i begin length now, hs.caller, hs.tasks⟩

variable {ok : Action → Prop} {pl lpl : Nat} {disk : D}

/-- **Every run from `NewManager(n, ...)` keeps the shape**, whichever goroutines take part. -/
theorem Reachable.shape (hr : Reachable dm ok (Store.init (PieceManager.new n pl lpl) disk) s) :
    s.Shape n (PieceManager.pieceLengthOf n pl lpl) := by
  induction hr with
  | init => exact Shape.init n pl lpl disk
  | step _ _ hst ih => exact ih.step hst

/-- **No bit at a position `≥ n` is ever set**, in any run from `NewManager(n, ...)`. -/
theorem Reachable.bitfield_high_clear
    (hr : Reachable dm ok (Store.init (PieceManager.new n pl lpl) disk) s) {j : Nat} (hj : n ≤ j) :
    bitfieldHas s.mgr.bitfield j = false :=
  hr.shape.mgr.high_clear j hj

end Store

end BitTorrent
