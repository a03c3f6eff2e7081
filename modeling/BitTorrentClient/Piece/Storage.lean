import BitTorrentClient.Piece.Invariants
import BitTorrentClient.Disk.Pieces
import BitTorrentClient.Crypto.Sha1

/-!
# Verified pieces are on disk

The piece store trusts its disk with one promise, `DiskManager.ReadsBack`: on a disk in good
order, writing a piece's worth of data keeps it in good order, reads back as that data, and
leaves every other piece reading as before.  Over any disk that keeps the promise,
**`Reachable.onDisk`** shows that in every download run each piece whose bit is set, whose state
is `Verified`, or whose verification goroutine has written it, reads back from the disk as data
that passes the hash check.

`diskManager_readsBack` is the link to the code: `disk.Manager` keeps the promise for every
storable torrent (`Torrent.Storable`), with the piece lengths `NewManager` is given by the
client's wiring (`PieceManager.ofTorrent`).  **`verified_piece_on_disk`** puts the two together.

Without `Storable` a verified piece can be lost.  When a zero-length file lies strictly inside a
piece, the write loop stops at it: the piece is verified from the data in memory, but the disk
holds only its first part (`verified_piece_lost_at_empty_file`, with `crypto/sha1` itself as the
hash).
-/

namespace BitTorrent

/-- What the piece store needs of its disk, for `n` pieces of lengths `len`: on a disk in good
order (`Good`), a successful write of piece `i < n` with `len i` bytes keeps the disk in good
order, reads back as the data written, and leaves every other piece reading as before. -/
structure DiskManager.ReadsBack {D : Type} (dm : DiskManager D) (Good : D → Prop) (n : Nat)
    (len : Nat → Nat) : Prop where
  write : ∀ d i data d', Good d → i < n → data.length = len i → dm.writePiece d i data = .ok d' →
    Good d' ∧ dm.readPiece d' i = .ok data ∧ ∀ j ≠ i, dm.readPiece d' j = dm.readPiece d j

namespace PieceManager

/-- The manager `main` builds for a torrent:
`NewManager(t.NumPieces(), t.Info.PieceLength, t.PieceSize(t.NumPieces()-1), hashes)`. -/
def ofTorrent (t : Torrent) : PieceManager :=
  new t.numPieces t.info.pieceLength.toNat (t.pieceSize (t.numPieces - 1)).toNat

lemma hasPiece_eq_true {m : PieceManager} {i : Nat} :
    m.hasPiece i = true ↔ m.stateOf i = some .verified := by
  unfold hasPiece stateOf
  cases m.pieces[i]? <;> simp

end PieceManager

namespace Torrent

variable {t : Torrent}

/-- The wiring gives every piece the length `PieceSize` gives it. -/
lemma pieceLengthOf_ofTorrent (hpl : 0 < t.info.pieceLength) (hN : t.PieceCountConsistent)
    {i : Nat} (hi : i < t.numPieces) :
    PieceManager.pieceLengthOf t.numPieces t.info.pieceLength.toNat
      (t.pieceSize (t.numPieces - 1)).toNat i = (t.pieceSize i).toNat := by
  have hlast := pieceSize_pos hpl hN (i := t.numPieces - 1) (by omega)
  unfold PieceManager.pieceLengthOf
  split
  · rename_i h; rw [h.1]
  · rename_i h
    have hi' : i < t.numPieces - 1 := by omega
    simp [pieceSize, hi, hi']

end Torrent

namespace Disk

variable {t : Torrent} {dir : Bytes}

/-- **`disk.Manager` keeps the store's promise** for a storable torrent: in good order means
every file open at its manifest length. -/
theorem diskManager_readsBack (sha1 : Bytes → Bytes) (h : t.Storable dir) :
    (diskManager sha1 t dir).ReadsBack (fun d => Sized dir t.info.name d t.layout) t.numPieces
      (fun i => (t.pieceSize i).toNat) where
  write d i data d' hd hi hlen hw := by
    have hlen' : (data.length : Int) = t.pieceSize i := by
      have := (t.pieceSize_le (Torrent.validate_ok h.valid).1 h.consistent i).1; omega
    obtain ⟨d'', hw', hd', hs⟩ := writePiece_spec h hd hi hlen'
    obtain rfl : d' = d'' := Except.ok.inj (hw.symm.trans hw')
    have hwin := fun j => window_overwrite (i := j) h (stream_length h hd) hlen'
    refine ⟨hd', ?_, fun j hj => ?_⟩
    · show readPiece t dir d' i = .ok data
      rw [readPiece_spec h hd' hi, hs, hwin i, if_pos rfl]
    · show readPiece t dir d' j = readPiece t dir d j
      by_cases hjn : j < t.numPieces
      · rw [readPiece_spec h hd' hjn, readPiece_spec h hd hjn, hs, hwin j, if_neg hj]
      · exact readPiece_of_numPieces_le h hd hd' (by omega)

end Disk

namespace Store

variable {D : Type} {dm : DiskManager D} {Good : D → Prop} {n : Nat} {len : Nat → Nat}
  {s s' : Store D}

open PieceManager

/-- Every piece whose bit is set, whose state is `Verified`, or that a verification goroutine
has written, reads back from the disk as data that passes the hash check; and the disk is in
good order. -/
structure OnDisk (dm : DiskManager D) (Good : D → Prop) (s : Store D) : Prop where
  good : Good s.disk
  stored : ∀ i, (bitfieldHas s.mgr.bitfield i = true ∨ s.mgr.stateOf i = some .verified ∨
      (⟨i, .written⟩ : VerifyTask) ∈ s.tasks) →
    ∃ data, dm.readPiece s.disk i = .ok data ∧ dm.verifyPiece i data = true

/-- Steps that keep the disk, the bitfield, which pieces are verified, and add no written
goroutine keep `OnDisk`. -/
lemma OnDisk.of_eq (h : s.OnDisk dm Good) (hd : s'.disk = s.disk)
    (hb : s'.mgr.bitfield = s.mgr.bitfield)
    (hs : ∀ i, s'.mgr.stateOf i = some .verified → s.mgr.stateOf i = some .verified)
    (ht : ∀ i, (⟨i, .written⟩ : VerifyTask) ∈ s'.tasks → (⟨i, .written⟩ : VerifyTask) ∈ s.tasks) :
    s'.OnDisk dm Good :=
  ⟨hd ▸ h.good, fun i hi => hd ▸ h.stored i (by
    rcases hi with hi | hi | hi
    · exact .inl (hb ▸ hi)
    · exact .inr (.inl (hs i hi))
    · exact .inr (.inr (ht i hi)))⟩

/-- Moving piece `i` to a state other than `Verified` never makes a piece verified. -/
lemma verified_of_away {m m' : PieceManager} {i : Nat} {st : PieceState} (hst : st ≠ .verified)
    (hs : ∀ j, m'.stateOf j = if i = j then (m.stateOf j).map fun _ => st else m.stateOf j) :
    ∀ j, m'.stateOf j = some .verified → m.stateOf j = some .verified := fun j hj => by
  rw [hs j] at hj
  split at hj
  · cases hs' : m.stateOf j <;> simp_all
  · exact hj

/-- **Every download step keeps `OnDisk`**, on a disk that keeps the store's promise. -/
lemma OnDisk.step (hrb : dm.ReadsBack Good n len) (hsh : s.Shape n len) (h : s.OnDisk dm Good)
    {a : Action} (ha : a.IsDownload) (hst : step dm s a = some s') : s'.OnDisk dm Good := by
  have hmem : ∀ k i, (⟨i, .written⟩ : VerifyTask) ∈ s.tasks.eraseIdx k →
      (⟨i, .written⟩ : VerifyTask) ∈ s.tasks := fun _ _ => List.mem_of_mem_eraseIdx
  cases a with
  | addBlockData i begin data =>
    obtain ⟨-, ⟨m, hr, rfl⟩ | ⟨e, -, rfl⟩⟩ := step_addBlockData hst
    · exact h.of_eq rfl (receiveBlock_spec.2 m hr).choose_spec.choose_spec.2.2.2.1
        (fun j hj => stateOf_receiveBlock hr j ▸ hj) fun _ hi => hi
    · exact h
  | checkComplete => obtain ⟨i, -, rfl⟩ := step_checkComplete hst; exact ⟨h.good, h.stored⟩
  | setDownloaded =>
    obtain ⟨i, -, rfl⟩ := step_setDownloaded hst
    refine h.of_eq rfl rfl (verified_of_away (by decide) (stateOf_setDownloaded s.mgr i))
      fun j hj => ?_
    rcases List.mem_append.mp hj with hj | hj
    · exact hj
    · simp at hj
  | getData k =>
    obtain ⟨i, p, -, -, ⟨d, -, rfl⟩ | ⟨e, -, rfl⟩⟩ := step_getData hst
    · refine h.of_eq rfl rfl (fun _ hj => hj) fun j hj => ?_
      rcases List.mem_or_eq_of_mem_set hj with hj | hj
      · exact hj
      · cases hj
    · exact h.of_eq rfl rfl (fun _ hj => hj) (hmem k)
  | verify k =>
    obtain ⟨i, d, ht, ⟨hv, disk, hw, rfl⟩ | ⟨-, e, -, rfl⟩ | ⟨-, rfl⟩⟩ := step_verify hst
    · -- the piece is written: it reads back as the checked data, and no other piece moves
      obtain ⟨hi, hlen⟩ := hsh.tasks _ (List.mem_iff_getElem?.mpr ⟨k, ht⟩)
      obtain ⟨hgood, hread, hframe⟩ := hrb.write _ i d disk h.good hi (hlen d rfl) hw
      refine ⟨hgood, fun j hj => ?_⟩
      by_cases hij : j = i
      · subst j; exact ⟨d, hread, hv⟩
      · rw [hframe j hij]
        refine h.stored j ?_
        rcases hj with hj | hj | hj
        · exact .inl hj
        · exact .inr (.inl hj)
        · rcases List.mem_or_eq_of_mem_set hj with hj | hj
          · exact .inr (.inr hj)
          · cases hj; exact absurd rfl hij
    · exact h.of_eq rfl rfl (fun _ hj => hj) (hmem k)
    · exact h.of_eq rfl rfl (verified_of_away (by decide) (stateOf_resetPiece s.mgr i)) (hmem k)
  | mark k =>
    obtain ⟨i, ht, rfl⟩ := step_mark hst
    have hwritten := h.stored i (.inr (.inr (List.mem_iff_getElem?.mpr ⟨k, ht⟩)))
    cases hp : s.mgr.pieces[i]? with
    | none =>
      simp only [markPieceVerified_of_none hp]
      exact h.of_eq rfl rfl (fun _ hj => hj) (hmem k)
    | some p =>
      simp only [markPieceVerified_of_getElem? hp]
      refine ⟨h.good, fun j hj => ?_⟩
      by_cases hij : j = i
      · subst j; exact hwritten
      · refine h.stored j ?_
        have hsj := stateOf_modifyPiece s.mgr i j fun q => { q with state := .verified }
        simp only [modifyPiece, Ne.symm hij, if_false] at hsj
        simp only [bitfieldHas_bitfieldSet, Ne.symm hij, decide_False, Bool.false_and,
          Bool.or_false] at hj
        rcases hj with hj | hj | hj
        · exact .inl hj
        · exact .inr (.inl (hsj ▸ hj))
        · exact .inr (.inr (hmem k j hj))
  | _ => exact ha.elim

variable {pl lpl : Nat} {d₀ : D}

/-- **In every download run, verified pieces are on disk**: over a disk that keeps the store's
promise and starts in good order, every piece whose bit is set or whose state is `Verified`
reads back as data that passes the hash check. -/
theorem Reachable.onDisk (hrb : dm.ReadsBack Good n (pieceLengthOf n pl lpl)) (hg : Good d₀)
    (hr : Reachable dm Action.IsDownload (Store.init (PieceManager.new n pl lpl) d₀) s) :
    s.OnDisk dm Good := by
  induction hr with
  | init =>
    exact ⟨hg, fun i hi => by simp [Store.init, stateOf, PieceManager.new, new_getElem?, newPiece] at hi⟩
  | step hr' ha hst ih => exact ih.step hrb hr'.shape ha hst

end Store

open PieceManager in
/-- **Verified pieces are on disk.**  For a storable torrent, the client's piece manager wired
to `disk.Manager` after `Initialize`: in every download run (blocks in any order, duplicates
included, interleaved with the verifications they launch), every piece whose bit is set or for
which `HasPiece` holds reads back from disk as data that passes `VerifyPiece`. -/
theorem verified_piece_on_disk (sha1 : Bytes → Bytes) {t : Torrent} {dir : Bytes}
    (h : t.Storable dir) (existing : Bytes → Option Bytes) {d₀ : Disk}
    (hc : Disk.create t dir existing = .ok d₀) {s : Store Disk}
    (hr : Store.Reachable (diskManager sha1 t dir) Action.IsDownload
      (Store.init (PieceManager.ofTorrent t) d₀) s)
    {i : Nat} (hi : bitfieldHas s.mgr.bitfield i = true ∨ s.mgr.hasPiece i = true) :
    ∃ data, Disk.readPiece t dir s.disk i = .ok data ∧ Disk.verifyPiece sha1 t i data = true := by
  have hpl := (Torrent.validate_ok h.valid).1
  obtain ⟨d₁, hc₁, hd₀⟩ := Disk.create_spec h existing
  obtain rfl : d₀ = d₁ := Except.ok.inj (hc.symm.trans hc₁)
  have hrb : (diskManager sha1 t dir).ReadsBack (fun d => Disk.Sized dir t.info.name d t.layout)
      t.numPieces (pieceLengthOf t.numPieces t.info.pieceLength.toNat
        (t.pieceSize (t.numPieces - 1)).toNat) :=
    ⟨fun d j data d' hd hj hlen hw => (Disk.diskManager_readsBack sha1 h).write d j data d' hd hj
      (hlen.trans (Torrent.pieceLengthOf_ofTorrent hpl h.consistent hj)) hw⟩
  exact (Store.Reachable.onDisk hrb hd₀ hr).stored i
    (hi.imp_right fun h' => .inl (hasPiece_eq_true.mp h'))

/-- A torrent of one one-byte piece in file `t`, whose piece hash is twenty zero bytes. -/
def oneByteTorrent : Torrent where
  announce := []
  announceList := []
  createdBy := []
  creationDate := 0
  comment := []
  infoHash := []
  info := { pieceLength := 1, pieces := List.replicate 20 0, name := [116], length := 1,
            files := [] }

theorem verified_piece_on_disk_sample :
    ∃ d₀ s, Disk.create oneByteTorrent [100] (fun _ => none) = .ok d₀ ∧
      Store.Reachable (diskManager (fun _ => List.replicate 20 0) oneByteTorrent [100])
        Action.IsDownload (Store.init (PieceManager.ofTorrent oneByteTorrent) d₀) s ∧
      bitfieldHas s.mgr.bitfield 0 = true ∧
      ∃ data, Disk.readPiece oneByteTorrent [100] s.disk 0 = .ok data ∧
        Disk.verifyPiece (fun _ => List.replicate 20 0) oneByteTorrent 0 data = true := by
  have hc : Disk.create oneByteTorrent [100] (fun _ => none) = .ok ⟨[([100, 47, 116], [0])]⟩ :=
    rfl
  have hx : ∃ s, Store.Reachable (diskManager (fun _ => List.replicate 20 0) oneByteTorrent [100])
      Action.IsDownload (Store.init (PieceManager.ofTorrent oneByteTorrent)
        ⟨[([100, 47, 116], [0])]⟩) s ∧ bitfieldHas s.mgr.bitfield 0 = true :=
    Store.reachable_of_run_any
      [.addBlockData 0 0 [7], .checkComplete, .setDownloaded, .getData 0, .verify 0, .mark 0]
      (by simp [Action.IsDownload]) (by decide)
  obtain ⟨s, hr, hb⟩ := hx
  have h : oneByteTorrent.Storable [100] := ⟨rfl, by decide, by decide, .inl rfl⟩
  exact ⟨_, s, hc, hr, hb, verified_piece_on_disk _ h (fun _ => none) hc hr (.inl hb)⟩

set_option maxRecDepth 4000 in
/-- **A verified piece lost at a zero-length file.**  Piece 0 of `emptyInsideTorrent` (files of
lengths 1, 0, 1, one piece of two bytes, distinct paths) is verified from the block `[5, 7]`,
whose SHA-1 is its hash, and its bit is set; but the write stopped at the empty file, so
`ReadPiece(0)` returns `[5, 0]`, which fails `VerifyPiece`. -/
theorem verified_piece_lost_at_empty_file :
    Disk.emptyInsideTorrent.validate = .ok () ∧ Disk.emptyInsideTorrent.PieceCountConsistent ∧
    Disk.Distinct [100] Disk.emptyInsideTorrent.info.name Disk.emptyInsideTorrent.info.files ∧
    ∃ d₀ s, Disk.create Disk.emptyInsideTorrent [100] (fun _ => none) = .ok d₀ ∧
      Store.Reachable (diskManager sha1 Disk.emptyInsideTorrent [100]) Action.IsDownload
        (Store.init (PieceManager.ofTorrent Disk.emptyInsideTorrent) d₀) s ∧
      bitfieldHas s.mgr.bitfield 0 = true ∧
      Disk.readPiece Disk.emptyInsideTorrent [100] s.disk 0 = .ok [5, 0] ∧
      Disk.verifyPiece sha1 Disk.emptyInsideTorrent 0 [5, 0] = false := by
  have hx : ∃ s, Store.Reachable (diskManager sha1 Disk.emptyInsideTorrent [100]) Action.IsDownload
      (Store.init (PieceManager.ofTorrent Disk.emptyInsideTorrent)
        ⟨[([100, 47, 116, 47, 99], [0]), ([100, 47, 116, 47, 98], []), ([100, 47, 116, 47, 97], [0])]⟩) s ∧
      bitfieldHas s.mgr.bitfield 0 = true ∧
      (Disk.readPiece Disk.emptyInsideTorrent [100] s.disk 0).toOption = some [5, 0] :=
    Store.reachable_of_run_any
      [.addBlockData 0 0 [5, 7], .checkComplete, .setDownloaded, .getData 0, .verify 0, .mark 0]
      (by simp [Action.IsDownload]) (by decide)
  obtain ⟨s, hr, hb, hread⟩ := hx
  refine ⟨rfl, by decide, by decide, _, s, rfl, hr, hb, ?_, by decide⟩
  cases h : Disk.readPiece Disk.emptyInsideTorrent [100] s.disk 0 <;> simp_all [Except.toOption]

end BitTorrent
