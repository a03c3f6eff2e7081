import BitTorrentClient.Piece.Invariants

/-!
# The life of a piece: bitfield, counters, states

What the bitfield, the statistics counters and the piece states keep over every run, and where
they part from what `MarkPieceVerified`'s docstring and `IsComplete` promise.

* **`Reachable.verified_bit`** — a piece in state `Verified` has its bitfield bit set.  The
  converse fails: a later copy of a block sets a verified piece back to `Downloaded` and leaves
  the bit set (`bit_set_not_verified`).
* **`Reachable.counted`** — `CompletedPieces = VerifiedPieces`, and `VerifiedPieces` is at least
  the number of verified pieces.  It can be more: `MarkPieceVerified` counts again a piece
  verified twice, and `IsComplete` then holds with a piece missing (`complete_with_missing`).
* **`lifecycle_step`** — how one step of a download can change a piece (`PieceChange`): a payload
  stored, `Downloaded` entered with exactly one verification launched, a reset after a failed
  check, or `Verified` after a passing check and a successful write (`TaskChange`).  A payload
  can be replaced and `Verified` left (`payload_replaced`).

The runs are driven through `acceptAll`, a disk on which every check passes and every write
succeeds: the theorems about these runs hold for every verification outcome.
-/

namespace BitTorrent

/-! ## Counting verified pieces through `List.modify` -/

lemma length_filter_modify_le {α : Type} (p : α → Bool) (f : α → α) :
    ∀ (l : List α) (i : Nat), (∀ x, l[i]? = some x → p (f x) = true → p x = true) →
      ((l.modify f i).filter p).length ≤ (l.filter p).length
  | [], _, _ => by simp
  | x :: xs, 0, h => by
    have := h x (by simp)
    simp only [List.modify_zero_cons, List.filter_cons]
    split <;> split <;> simp_all
  | x :: xs, i + 1, h => by
    have := length_filter_modify_le p f xs i fun y hy => h y (by simpa using hy)
    simp only [List.modify_succ_cons, List.filter_cons]
    split <;> simp [this]

lemma length_filter_modify_le_succ {α : Type} (p : α → Bool) (f : α → α) :
    ∀ (l : List α) (i : Nat), ((l.modify f i).filter p).length ≤ (l.filter p).length + 1
  | [], _ => by simp
  | x :: xs, 0 => by
    simp only [List.modify_zero_cons, List.filter_cons]
    split <;> split <;> simp
    omega
  | x :: xs, i + 1 => by
    have := length_filter_modify_le_succ p f xs i
    simp only [List.modify_succ_cons, List.filter_cons]
    split <;> simp [this]

namespace PieceManager

variable {m m' : PieceManager} {n : Nat} {len : Nat → Nat}

/-! ## Verified pieces have their bit set -/

/-- Every piece in state `Verified` has its bitfield bit set. -/
def VerifiedMarked (m : PieceManager) : Prop :=
  ∀ j, m.stateOf j = some .verified → bitfieldHas m.bitfield j = true

namespace VerifiedMarked

lemma new (n pl lpl : Nat) : (PieceManager.new n pl lpl).VerifiedMarked := fun j hj => by
  simp [stateOf, new_getElem?, newPiece] at hj

/-- An operation that keeps every state and the bitfield keeps the property. -/
lemma of_eq (h : m.VerifiedMarked) (hs : ∀ j, m'.stateOf j = m.stateOf j)
    (hb : m'.bitfield = m.bitfield) : m'.VerifiedMarked := fun j hj => by
  rw [hb]; exact h j (hs j ▸ hj)

/-- An operation that moves piece `i` to a state other than `Verified` keeps the property. -/
lemma away (h : m.VerifiedMarked) {i : Nat} {st : PieceState} (hst : st ≠ .verified)
    (hs : ∀ j, m'.stateOf j = if i = j then (m.stateOf j).map fun _ => st else m.stateOf j)
    (hb : m'.bitfield = m.bitfield) : m'.VerifiedMarked := fun j hj => by
  rw [hs j] at hj
  rw [hb]
  split at hj
  · cases hs' : m.stateOf j <;> simp_all
  · exact h j hj

lemma modifyPiece (h : m.VerifiedMarked) {i : Nat} {f : Piece → Piece}
    (hf : ∀ p, (f p).state = p.state) : (m.modifyPiece i f).VerifiedMarked :=
  h.of_eq (fun j => by
    rw [stateOf_modifyPiece]; split <;> simp [stateOf, hf, *]) rfl

lemma markPieceVerified (h : m.VerifiedMarked) (hsh : m.Shape n len) (i : Nat) :
    ((m.markPieceVerified i).toOption.getD m).VerifiedMarked := by
  cases hp : m.pieces[i]? with
  | none => rw [markPieceVerified_of_none hp]; exact h
  | some p =>
    have hi : i < n := hsh.pieces_length ▸ (List.getElem?_eq_some_iff.mp hp).1
    rw [markPieceVerified_of_getElem? hp]
    intro j hj
    simp only [bitfieldHas_bitfieldSet, Bool.or_eq_true, Bool.and_eq_true, decide_eq_true_eq]
    by_cases hij : i = j
    · exact .inr ⟨hij, by have := hsh.bitfield_length; omega⟩
    · refine .inl (h j ?_)
      have := stateOf_modifyPiece m i j fun q => { q with state := .verified }
      simp only [modifyPiece, hij, if_false] at this
      exact this ▸ hj

end VerifiedMarked

/-! ## The counters -/

/-- What the counters keep: `CompletedPieces = VerifiedPieces`, and `VerifiedPieces` is at least
the number of verified pieces `GetProgressCounts` reports. -/
structure Counted (m : PieceManager) : Prop where
  completed : m.stats.completedPieces = m.stats.verifiedPieces
  verified_le : m.getProgressCounts.1 ≤ m.stats.verifiedPieces

namespace Counted

lemma new (n pl lpl : Nat) : (PieceManager.new n pl lpl).Counted :=
  ⟨rfl, by simp [getProgressCounts, PieceManager.new, newPiece, List.filter_map,
    Function.comp_def]⟩

/-- Changing one piece without making it `Verified`, and no counter, keeps the property. -/
lemma modifyPiece (h : m.Counted) {i : Nat} {f : Piece → Piece}
    (hf : ∀ p, m.pieces[i]? = some p → (f p).state = .verified → p.state = .verified) :
    (m.modifyPiece i f).Counted :=
  ⟨h.completed, (length_filter_modify_le _ f m.pieces i fun p hp => by
    simpa using hf p hp).trans h.verified_le⟩

lemma of_stats (h : m.Counted) {s : Statistics} (hc : s.completedPieces = m.stats.completedPieces)
    (hv : s.verifiedPieces = m.stats.verifiedPieces) : { m with stats := s }.Counted :=
  ⟨by rw [hc, hv, h.completed], hv ▸ h.verified_le⟩

lemma markPieceVerified (h : m.Counted) (i : Nat) :
    ((m.markPieceVerified i).toOption.getD m).Counted := by
  cases hp : m.pieces[i]? with
  | none => rw [markPieceVerified_of_none hp]; exact h
  | some p =>
    rw [markPieceVerified_of_getElem? hp]
    exact ⟨by simp [h.completed],
      (length_filter_modify_le_succ _ _ m.pieces i).trans (Nat.add_le_add_right h.verified_le 1)⟩

lemma receiveBlock (h : m.Counted) {i begin : Nat} {data : Bytes}
    (hr : m.receiveBlock i begin data = .ok m') : m'.Counted := by
  obtain ⟨p, p', hp, hs, hpieces, -, hstats⟩ := receiveBlock_spec.2 m' hr
  have hst := (Piece.setBlockData_ok hs).2.2.2.1
  have hle := length_filter_modify_le (fun q : Piece => decide (q.state = .verified))
    (fun _ => p') m.pieces i fun q hq hv => by
      rw [hp] at hq; cases hq; simpa [hst] using hv
  refine ⟨by rw [hstats]; exact h.completed, ?_⟩
  simp only [getProgressCounts, hpieces, List.set_eq_modify, hstats]
  exact hle.trans h.verified_le

end Counted

end PieceManager

namespace Store

variable {D : Type} {dm : DiskManager D} {n : Nat} {len : Nat → Nat} {s s' : Store D}
  {ok : Action → Prop} {pl lpl : Nat} {disk : D}

open PieceManager

/-- Every step keeps `VerifiedMarked`. -/
lemma verifiedMarked_step (hsh : s.Shape n len) (h : s.mgr.VerifiedMarked) {a : Action}
    (hst : step dm s a = some s') : s'.mgr.VerifiedMarked := by
  cases a with
  | addBlockData i begin data =>
    obtain ⟨-, ⟨m, hr, rfl⟩ | ⟨e, -, rfl⟩⟩ := step_addBlockData hst
    · exact h.of_eq (stateOf_receiveBlock hr) (receiveBlock_spec.2 m hr).choose_spec.choose_spec.2.2.2.1
    · exact h
  | checkComplete => obtain ⟨i, -, rfl⟩ := step_checkComplete hst; exact h
  | setDownloaded =>
    obtain ⟨i, -, rfl⟩ := step_setDownloaded hst
    exact h.away (i := i) (by decide) (stateOf_setDownloaded s.mgr i) rfl
  | getData k =>
    obtain ⟨i, p, -, -, ⟨d, -, rfl⟩ | ⟨e, -, rfl⟩⟩ := step_getData hst <;> exact h
  | verify k =>
    obtain ⟨i, d, -, ⟨-, disk, -, rfl⟩ | ⟨-, e, -, rfl⟩ | ⟨-, rfl⟩⟩ := step_verify hst
    · exact h
    · exact h
    · exact h.away (i := i) (by decide) (stateOf_resetPiece s.mgr i) rfl
  | mark k => obtain ⟨i, -, rfl⟩ := step_mark hst; exact h.markPieceVerified hsh.mgr i
  | markPieceVerified i => cases hst; exact h.markPieceVerified hsh.mgr i
  | addRequest i peerID block now =>
    cases hst
    unfold PieceManager.addRequest
    split
    · exact h.modifyPiece (f := (·.addRequest peerID block now)) fun _ => rfl
    · exact h
  | removeRequest i peerID begin length =>
    cases hst
    unfold PieceManager.removeRequest
    split
    · exact h.modifyPiece (f := (·.removeRequest peerID begin length)) fun _ => rfl
    · exact h
  | cancelRequest i peerID begin length =>
    cases hst
    unfold PieceManager.cancelRequest
    split
    · exact h.modifyPiece fun _ => rfl
    · exact h
  | requestBlock i begin length now =>
    cases hst
    unfold PieceManager.requestBlock
    split
    · exact h.modifyPiece fun _ => rfl
    · exact h

lemma Reachable.verifiedMarked
    (hr : Reachable dm ok (Store.init (PieceManager.new n pl lpl) disk) s) : s.mgr.VerifiedMarked := by
  induction hr with
  | init => exact VerifiedMarked.new n pl lpl
  | step hr' _ hst ih => exact verifiedMarked_step hr'.shape ih hst

/-- **A verified piece has its bit set**, in every run from `NewManager(n, ...)` with any
goroutines taking part. -/
theorem Reachable.verified_bit (hr : Reachable dm ok (Store.init (PieceManager.new n pl lpl) disk) s)
    {j : Nat} (hj : s.mgr.stateOf j = some .verified) : bitfieldHas s.mgr.bitfield j = true :=
  hr.verifiedMarked j hj

/-- A disk on which every hash check passes and every write succeeds. -/
def acceptAll : DiskManager Unit where
  writePiece _ _ _ := .ok ()
  readPiece _ _ := .ok []
  readBlock _ _ _ _ := .ok []
  verifyPiece _ _ := true

/-- One piece of one byte, downloaded, verified, then its block arriving again. -/
def reverifyTrace : List Action :=
  [.addBlockData 0 0 [7], .checkComplete, .setDownloaded, .getData 0, .verify 0, .mark 0,
   .addBlockData 0 0 [7], .checkComplete, .setDownloaded]

/-- **The bit stays set when the piece leaves `Verified`**: the block of a verified piece
arriving again sets the piece back to `Downloaded` and leaves its bit set. -/
theorem bit_set_not_verified :
    ∃ s, Reachable acceptAll Action.IsDownload (Store.init (PieceManager.new 1 1 1) ()) s ∧
      bitfieldHas s.mgr.bitfield 0 = true ∧ s.mgr.stateOf 0 = some .downloaded :=
  reachable_of_run_any reverifyTrace (by simp [reverifyTrace, Action.IsDownload]) (by decide)

/-- Every step keeps `Counted`. -/
lemma counted_step (h : s.mgr.Counted) {a : Action} (hst : step dm s a = some s') :
    s'.mgr.Counted := by
  cases a with
  | addBlockData i begin data =>
    obtain ⟨-, ⟨m, hr, rfl⟩ | ⟨e, -, rfl⟩⟩ := step_addBlockData hst
    · exact h.receiveBlock hr
    · exact h
  | checkComplete => obtain ⟨i, -, rfl⟩ := step_checkComplete hst; exact h
  | setDownloaded =>
    obtain ⟨i, -, rfl⟩ := step_setDownloaded hst
    exact h.modifyPiece fun _ _ hv => by simp at hv
  | getData k =>
    obtain ⟨i, p, -, -, ⟨d, -, rfl⟩ | ⟨e, -, rfl⟩⟩ := step_getData hst <;> exact h
  | verify k =>
    obtain ⟨i, d, -, ⟨-, disk, -, rfl⟩ | ⟨-, e, -, rfl⟩ | ⟨-, rfl⟩⟩ := step_verify hst
    · exact h
    · exact h
    · exact h.modifyPiece fun _ _ hv => by simp [Piece.reset] at hv
  | mark k => obtain ⟨i, -, rfl⟩ := step_mark hst; exact h.markPieceVerified i
  | markPieceVerified i => cases hst; exact h.markPieceVerified i
  | addRequest i peerID block now =>
    cases hst
    unfold PieceManager.addRequest
    split
    · exact (h.modifyPiece (f := (·.addRequest peerID block now)) fun _ _ hv => hv).of_stats rfl rfl
    · exact h
  | removeRequest i peerID begin length =>
    cases hst
    unfold PieceManager.removeRequest
    split
    · exact (h.modifyPiece (f := (·.removeRequest peerID begin length)) fun _ _ hv => hv).of_stats
        rfl rfl
    · exact h
  | cancelRequest i peerID begin length =>
    cases hst
    unfold PieceManager.cancelRequest
    split
    · exact h.modifyPiece fun _ _ hv => hv
    · exact h
  | requestBlock i begin length now =>
    cases hst
    unfold PieceManager.requestBlock
    split
    · exact h.modifyPiece fun _ _ hv => hv
    · exact h

/-- **What the counters keep**, in every run from `NewManager(n, ...)`: `CompletedPieces` equals
`VerifiedPieces`, which is at least the number of verified pieces. -/
theorem Reachable.counted (hr : Reachable dm ok (Store.init (PieceManager.new n pl lpl) disk) s) :
    s.mgr.stats.completedPieces = s.mgr.stats.verifiedPieces ∧
      s.mgr.getProgressCounts.1 ≤ s.mgr.stats.verifiedPieces := by
  suffices s.mgr.Counted from ⟨this.completed, this.verified_le⟩
  induction hr with
  | init => exact Counted.new n pl lpl
  | step _ _ hst ih => exact counted_step ih hst

/-- Two one-byte pieces; the first downloaded and verified twice over. -/
def doubleVerifyTrace : List Action :=
  [.addBlockData 0 0 [7], .checkComplete, .setDownloaded, .getData 0, .verify 0, .mark 0,
   .addBlockData 0 0 [7], .checkComplete, .setDownloaded, .getData 0, .verify 0, .mark 0]

/-- **`IsComplete` with a piece missing**: a piece verified twice is counted twice, and with two
pieces `IsComplete` holds while the second has never been downloaded. -/
theorem complete_with_missing :
    ∃ s, Reachable acceptAll Action.IsDownload (Store.init (PieceManager.new 2 1 1) ()) s ∧
      s.mgr.isComplete = true ∧ s.mgr.stateOf 1 = some .missing :=
  reachable_of_run_any doubleVerifyTrace (by simp [doubleVerifyTrace, Action.IsDownload])
    (by decide)

/-! ## What one step of a download does to a piece and to the verifications -/

lemma getElem?_modify_of_ne {α : Type} (l : List α) (f : α → α) {i j : Nat} (h : i ≠ j) :
    (l.modify f i)[j]? = l[j]? := by
  simp [List.getElem?_modify, h]

/-- How one step `s → s'` by action `a` may change piece `i`. -/
inductive PieceChange (dm : DiskManager D) (s s' : Store D) (i : Nat) : Action → Prop
  /-- The piece is untouched. -/
  | unchanged {a : Action} : s'.mgr.pieces[i]? = s.mgr.pieces[i]? → PieceChange dm s s' i a
  /-- `SetBlockData` stores a payload at a block's offset, possibly over one stored before. -/
  | stored {begin : Nat} {data : Bytes} {p p' : Piece} : s.mgr.pieces[i]? = some p →
      p.setBlockData begin data = .ok p' → s'.mgr.pieces[i]? = some p' →
      PieceChange dm s s' i (.addBlockData i begin data)
  /-- The last section of `AddBlockData` sets `Downloaded`, whatever the state was, and launches
  exactly one verification. -/
  | downloaded : s.caller = .completing i →
      s'.mgr.pieces[i]? = (fun p => { p with state := .downloaded }) <$> s.mgr.pieces[i]? →
      s'.tasks = s.tasks ++ [⟨i, .launched⟩] → PieceChange dm s s' i .setDownloaded
  /-- A failed hash check resets the piece: `Missing`, every payload cleared. -/
  | reset {k : Nat} {d : Bytes} : s.tasks[k]? = some ⟨i, .holding d⟩ → dm.verifyPiece i d = false →
      s'.mgr.pieces[i]? = Piece.reset <$> s.mgr.pieces[i]? → PieceChange dm s s' i (.verify k)
  /-- A verification past its write marks the piece `Verified`. -/
  | verified {k : Nat} : s.tasks[k]? = some ⟨i, .written⟩ →
      s'.mgr.pieces[i]? = (fun p => { p with state := .verified }) <$> s.mgr.pieces[i]? →
      PieceChange dm s s' i (.mark k)

/-- How one step `s → s'` by action `a` may change the verification goroutines. -/
structure TaskChange (dm : DiskManager D) (s s' : Store D) (a : Action) : Prop where
  /-- Only the last section of `AddBlockData` launches a verification. -/
  no_launch : a ≠ .setDownloaded → s'.tasks.length ≤ s.tasks.length
  /-- A goroutine reaches its `MarkPieceVerified` only past a passing hash check and a successful
  `WritePiece`. -/
  written : ∀ j, (⟨j, .written⟩ : VerifyTask) ∈ s'.tasks → (⟨j, .written⟩ : VerifyTask) ∈ s.tasks ∨
    ∃ k d disk, a = .verify k ∧ s.tasks[k]? = some ⟨j, .holding d⟩ ∧
      dm.verifyPiece j d = true ∧ dm.writePiece s.disk j d = .ok disk

lemma piece_step {a : Action} (ha : a.IsDownload) (hst : step dm s a = some s') (i : Nat) :
    PieceChange dm s s' i a := by
  cases a with
  | addBlockData j begin data =>
    obtain ⟨-, ⟨m, hr, rfl⟩ | ⟨e, -, rfl⟩⟩ := step_addBlockData hst
    · obtain ⟨p, p', hp, hs, hpieces, -⟩ := receiveBlock_spec.2 m hr
      by_cases hij : j = i
      · subst j
        exact .stored hp hs (by simp [hpieces, List.getElem?_set, (List.getElem?_eq_some_iff.mp hp).1])
      · exact .unchanged (by simp [hpieces, List.getElem?_set, hij])
    · exact .unchanged rfl
  | checkComplete => obtain ⟨j, -, rfl⟩ := step_checkComplete hst; exact .unchanged rfl
  | setDownloaded =>
    obtain ⟨j, hc, rfl⟩ := step_setDownloaded hst
    by_cases hij : j = i
    · subst j
      exact .downloaded hc (by simp [PieceManager.setDownloaded, modifyPiece_getElem?]) rfl
    · exact .unchanged (getElem?_modify_of_ne _ _ hij)
  | getData k =>
    obtain ⟨j, p, -, -, ⟨d, -, rfl⟩ | ⟨e, -, rfl⟩⟩ := step_getData hst <;> exact .unchanged rfl
  | verify k =>
    obtain ⟨j, d, ht, ⟨-, disk, -, rfl⟩ | ⟨-, e, -, rfl⟩ | ⟨hv, rfl⟩⟩ := step_verify hst
    · exact .unchanged rfl
    · exact .unchanged rfl
    · by_cases hij : j = i
      · subst j
        exact .reset ht hv (by simp [PieceManager.resetPiece, modifyPiece_getElem?])
      · exact .unchanged (getElem?_modify_of_ne _ _ hij)
  | mark k =>
    obtain ⟨j, ht, rfl⟩ := step_mark hst
    cases hp : s.mgr.pieces[j]? with
    | none => rw [markPieceVerified_of_none hp]; exact .unchanged rfl
    | some p =>
      rw [markPieceVerified_of_getElem? hp]
      by_cases hij : j = i
      · subst j
        exact .verified ht (by simp [List.getElem?_modify])
      · exact .unchanged (getElem?_modify_of_ne _ _ hij)
  | _ => exact ha.elim

lemma task_step {a : Action} (hst : step dm s a = some s') : TaskChange dm s s' a := by
  have herase : ∀ k, (s.tasks.eraseIdx k).length ≤ s.tasks.length := fun k => by
    rw [List.length_eraseIdx]; split <;> omega
  have hmem : ∀ k, ∀ t ∈ s.tasks.eraseIdx k, t ∈ s.tasks := fun _ _ => List.mem_of_mem_eraseIdx
  cases a with
  | addBlockData j begin data =>
    obtain ⟨-, ⟨m, -, rfl⟩ | ⟨e, -, rfl⟩⟩ := step_addBlockData hst <;>
      exact ⟨fun _ => le_rfl, fun _ h => .inl h⟩
  | checkComplete =>
    obtain ⟨j, -, rfl⟩ := step_checkComplete hst
    exact ⟨fun _ => le_rfl, fun _ h => .inl h⟩
  | setDownloaded =>
    obtain ⟨j, -, rfl⟩ := step_setDownloaded hst
    refine ⟨fun h => absurd rfl h, fun j' h => .inl ?_⟩
    simpa using h
  | getData k =>
    obtain ⟨j, p, -, -, ⟨d, -, rfl⟩ | ⟨e, -, rfl⟩⟩ := step_getData hst
    · refine ⟨fun _ => by simp, fun j' h => .inl ?_⟩
      rcases List.mem_or_eq_of_mem_set h with h | h
      · exact h
      · cases h
    · exact ⟨fun _ => herase k, fun _ h => .inl (hmem k _ h)⟩
  | verify k =>
    obtain ⟨j, d, ht, ⟨hv, disk, hw, rfl⟩ | ⟨-, e, -, rfl⟩ | ⟨-, rfl⟩⟩ := step_verify hst
    · refine ⟨fun _ => by simp, fun j' h => ?_⟩
      rcases List.mem_or_eq_of_mem_set h with h | h
      · exact .inl h
      · cases h; exact .inr ⟨k, d, disk, rfl, ht, hv, hw⟩
    · exact ⟨fun _ => herase k, fun _ h => .inl (hmem k _ h)⟩
    · exact ⟨fun _ => herase k, fun _ h => .inl (hmem k _ h)⟩
  | mark k =>
    obtain ⟨j, -, rfl⟩ := step_mark hst
    exact ⟨fun _ => herase k, fun _ h => .inl (hmem k _ h)⟩
  | _ => cases hst; exact ⟨fun _ => le_rfl, fun _ h => .inl h⟩

/-- **The life of a piece, step by step.**  In a download, each step changes piece `i` only in
one of the ways `PieceChange` lists: a payload stored at a block's offset (possibly replacing
one stored before), `Downloaded` entered from any state with exactly one verification launched,
a reset to `Missing` with every payload cleared after a failed hash check, or `Verified` set by a
verification goroutine; no other step launches a verification, and a goroutine reaches its
`MarkPieceVerified` only past a passing hash check and a successful `WritePiece`. -/
theorem lifecycle_step {a : Action} (ha : a.IsDownload) (hst : step dm s a = some s') (i : Nat) :
    PieceChange dm s s' i a ∧ TaskChange dm s s' a :=
  ⟨piece_step ha hst i, task_step hst⟩

theorem lifecycle_step_sample :
    ∃ s', step acceptAll (Store.init (PieceManager.new 1 1 1) ()) (.addBlockData 0 0 [7]) = some s' ∧
      PieceChange acceptAll (Store.init (PieceManager.new 1 1 1) ()) s' 0 (.addBlockData 0 0 [7]) ∧
      TaskChange acceptAll (Store.init (PieceManager.new 1 1 1) ()) s' (.addBlockData 0 0 [7]) :=
  ⟨_, rfl, @lifecycle_step _ acceptAll (Store.init (PieceManager.new 1 1 1) ()) _
    (.addBlockData 0 0 [7]) trivial rfl 0⟩

/-- One piece with one two-byte block; the block arrives twice with different bytes. -/
def overwriteTrace : List Action :=
  [.addBlockData 0 0 [1, 2], .checkComplete, .setDownloaded,
   .addBlockData 0 0 [3, 4], .checkComplete, .setDownloaded]

/-- **A stored payload is replaced, and `Downloaded` is entered twice**: after the first copy
completes the piece (`Downloaded`, one verification launched), the second copy replaces the
payload with no reset between and launches a second verification. -/
theorem payload_replaced :
    ((run acceptAll (Store.init (PieceManager.new 1 2 2) ()) (overwriteTrace.take 3)).map fun s =>
        ((s.mgr.pieces[0]?.bind (·.blocks[0]?)).bind (·.data), s.mgr.stateOf 0, s.tasks)) =
      some (some [1, 2], some .downloaded, [⟨0, .launched⟩]) ∧
    ((run acceptAll (Store.init (PieceManager.new 1 2 2) ()) overwriteTrace).map fun s =>
        ((s.mgr.pieces[0]?.bind (·.blocks[0]?)).bind (·.data), s.mgr.stateOf 0, s.tasks)) =
      some (some [3, 4], some .downloaded, [⟨0, .launched⟩, ⟨0, .launched⟩]) := by
  decide

end Store

end BitTorrent
