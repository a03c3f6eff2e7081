import BitTorrentClient.Disk.Layout

/-!
# Pieces on disk

The torrent-level statements of the disk manager, on top of the loop invariants of
`Disk/Layout.lean`.  `Torrent.Storable` collects what a torrent needs for the disk to keep each
piece in place: `Validate` passes, the piece count is `⌈TotalLength / PieceLength⌉`, the
torrent is shorter than `2^63` bytes, and a multi-file torrent has distinct paths and no
zero-length file strictly inside a piece.  Under it:

* `create_spec` — `Initialize` opens every file at its manifest length, whatever was on disk;
* `writePiece_spec` — `WritePiece(i, data)` overwrites the window of piece `i` of the stream;
* `readPiece_spec` — `ReadPiece(i)` returns that window;
* **`writePieces_spec`** — after any sequence of writes, each piece reads back the data of its
  last write, and a piece never written reads back what it read before.

Without `Storable` the round trip fails.  Two entries with one path are one file, by design.  A
zero-length file strictly inside a piece is a slip of the loops: `bytesToWrite <= 0` is taken
for "the data is used up", so they `break` at the empty file where they should `continue`, and
the rest of the piece is neither written nor read (`readPiece_stops_at_empty_file`).
-/

namespace BitTorrent

namespace Torrent

/-- The files of the torrent in manifest order.  A single-file torrent is one file of length
`Length` at `filepath.Join(dir, Name)`, the path of a file with no path components. -/
def layout (t : Torrent) : List File :=
  if t.isSingleFile then [⟨t.info.length, []⟩] else t.info.files

/-- Every zero-length file starts where a piece starts or at the end of the torrent. -/
def EmptyFilesOnBoundaries (t : Torrent) : Prop :=
  ∀ k (hk : k < t.info.files.length), (t.info.files.get ⟨k, hk⟩).length = 0 →
    ((t.info.files.take k).map (·.length)).sum % t.info.pieceLength = 0 ∨
      ((t.info.files.take k).map (·.length)).sum = t.totalLength

instance (t : Torrent) : Decidable t.EmptyFilesOnBoundaries :=
  inferInstanceAs (Decidable (∀ k (_ : k < t.info.files.length), _ → _))

/-- What the disk needs of a torrent under `dir` to keep every piece in place. -/
structure Storable (t : Torrent) (dir : Bytes) : Prop where
  valid : t.validate = .ok ()
  consistent : t.PieceCountConsistent
  fits64 : t.Fits64
  files : t.isSingleFile ∨ (Disk.Distinct dir t.info.name t.info.files ∧ t.EmptyFilesOnBoundaries)

variable {t : Torrent} {dir : Bytes}

lemma layout_sum (t : Torrent) : (t.layout.map (·.length)).sum = t.exactLength := by
  unfold layout exactLength
  split <;> simp

lemma Storable.totalLength_eq (h : t.Storable dir) : t.totalLength = t.exactLength :=
  Torrent.totalLength_eq h.valid h.fits64

lemma layout_length_nonneg (hv : t.validate = .ok ()) : ∀ f ∈ t.layout, 0 ≤ f.length := by
  obtain ⟨-, -, -, hs, hf⟩ := validate_ok hv
  unfold layout isSingleFile
  split
  · rename_i he
    simpa using (hs (List.isEmpty_iff.mp he)).le
  · exact fun f hf' => (hf f hf').1

lemma pieceSize_pos_lt (h : 0 < t.pieceSize i) : i < t.numPieces := by
  unfold pieceSize at h
  split at h
  · assumption
  · omega

/-- A piece with bytes lies inside the torrent. -/
lemma Storable.fits (h : t.Storable dir) {i : Nat} (hpos : 0 < t.pieceSize i) :
    i * t.info.pieceLength + t.pieceSize i ≤ t.totalLength :=
  pieceSize_add_le (validate_ok h.valid).1 h.consistent (pieceSize_pos_lt hpos)

/-- The offset `int64(pieceIndex) * int64(pieceLength)` of a piece does not wrap. -/
lemma Storable.pieceOffset_eq (h : t.Storable dir) {i : Nat} (hi : i < t.numPieces) :
    wrap64 (i * t.info.pieceLength) = i * t.info.pieceLength := by
  have hpl := (validate_ok h.valid).1
  have hend := pieceSize_add_le hpl h.consistent hi
  have hpos := pieceSize_pos hpl h.consistent hi
  have hT := h.totalLength_eq
  have h64 := h.fits64
  unfold Fits64 at h64
  exact wrap64_of_lt (by have := Int.mul_nonneg (Int.ofNat_nonneg i) hpl.le; omega) (by omega)

/-- `i * P + P ≤ j * P` for `i < j`: consecutive pieces do not overlap. -/
lemma mul_add_le_mul {i j : Nat} {P : Int} (hP : 0 ≤ P) (h : i < j) : i * P + P ≤ j * P := by
  have : ((i : Int) + 1) * P ≤ j * P := Int.mul_le_mul_of_nonneg_right (by omega) hP
  linarith [add_mul (i : Int) 1 P]

/-- A multiple of `P` is never strictly inside `[i * P, i * P + P)`. -/
lemma boundary_not_inside {P c : Int} (hP : 0 < P) (hc : c % P = 0) (i : Nat) :
    c ≤ i * P ∨ i * P + P ≤ c := by
  have hq : c = c / P * P := by have := Int.ediv_add_emod c P; linarith [mul_comm P (c / P)]
  rcases le_or_lt (c / P) i with hle | hlt
  · exact .inl (hq ▸ Int.mul_le_mul_of_nonneg_right hle hP.le)
  · right
    have : ((i : Int) + 1) * P ≤ c / P * P := Int.mul_le_mul_of_nonneg_right (by omega) hP.le
    linarith [add_mul (i : Int) 1 P]

/-- The zero-length files of a list on boundaries are never inside a window `[i * P, i * P + n)`
with `n ≤ P` and ending by `T`. -/
lemma noEmptyInside_of_boundaries {P T : Int} (hP : 0 < P) {i : Nat} {n : Int} (hn : n ≤ P)
    (hT : i * P + n ≤ T) : ∀ (fs : List File) (cur : Int),
    (∀ k (hk : k < fs.length), fs[k].length = 0 →
      (cur + ((fs.take k).map (·.length)).sum) % P = 0 ∨
        cur + ((fs.take k).map (·.length)).sum = T) →
    Disk.NoEmptyInside (i * P) n fs cur
  | [], _, _ => trivial
  | f :: fs, cur, h => by
    refine ⟨fun hf => ?_, noEmptyInside_of_boundaries hP hn hT fs _ fun k hk hz => ?_⟩
    · rcases h 0 (by simp) hf with hb | hb
      · have hb' : cur % P = 0 := by simpa using hb
        rcases boundary_not_inside hP hb' i with h' | h'
        · exact .inl h'
        · exact .inr (by omega)
      · exact .inr (by simp at hb; omega)
    · have := h (k + 1) (by simp; omega) hz
      simpa [add_assoc] using this

/-- An empty window has no inside. -/
lemma noEmptyInside_zero {o : Int} : ∀ (fs : List File) (cur : Int), Disk.NoEmptyInside o 0 fs cur
  | [], _ => trivial
  | _ :: fs, _ => ⟨fun _ => by omega, noEmptyInside_zero fs _⟩

lemma Storable.distinct (h : t.Storable dir) : Disk.Distinct dir t.info.name t.layout := by
  unfold layout
  split
  · simp [Disk.Distinct]
  · rename_i hs
    exact (h.files.resolve_left hs).1

lemma Storable.noEmptyInside (h : t.Storable dir) (i : Nat) :
    Disk.NoEmptyInside (i * t.info.pieceLength) (t.pieceSize i) t.layout 0 := by
  obtain ⟨hpl, -, -, hs, -⟩ := validate_ok h.valid
  rcases (t.pieceSize_le hpl h.consistent i).1.eq_or_lt with h0 | hpos
  · rw [← h0]; exact noEmptyInside_zero _ _
  unfold layout
  split
  · rename_i he
    exact ⟨fun hz => absurd hz (hs (by simpa [isSingleFile] using he)).ne', trivial⟩
  · rename_i he
    exact noEmptyInside_of_boundaries hpl (t.pieceSize_le hpl h.consistent i).2 (h.fits hpos) _ 0
      fun k hk hz => by simpa using (h.files.resolve_left he).2 k hk hz

/-- A piece's data is empty or fits in the torrent. -/
lemma Storable.data_fits (h : t.Storable dir) {i : Nat} {data : Bytes}
    (hlen : (data.length : Int) = t.pieceSize i) :
    data = [] ∨ i * t.info.pieceLength + data.length ≤ t.totalLength := by
  rcases eq_or_ne data [] with h0 | h0
  · exact .inl h0
  · exact .inr (hlen ▸ h.fits (hlen ▸ by simpa [List.length_pos] using h0))

end Torrent

namespace Disk

open Torrent

variable {t : Torrent} {dir : Bytes}

/-- The torrent's files concatenated in manifest order. -/
def stream (t : Torrent) (dir : Bytes) (d : Disk) : Bytes := contents dir t.info.name d t.layout

lemma stream_length (h : t.Storable dir) {d : Disk} (hd : Sized dir t.info.name d t.layout) :
    ((stream t dir d).length : Int) = t.totalLength := by
  rw [stream, contents_length hd, layout_sum, h.totalLength_eq]

lemma truncate_length (c : Bytes) (n : Nat) : (truncate c n).length = n := by
  simp [truncate]; omega

/-- The loop of `Initialize` opens each file at its length and touches no other path. -/
lemma createFiles_spec {name : Bytes} (existing : Bytes → Option Bytes) :
    ∀ (fs : List File) (d : Disk), Distinct dir name fs → (∀ f ∈ fs, 0 ≤ f.length) →
    ∃ d', createFiles existing dir name fs d = .ok d' ∧ Sized dir name d' fs ∧
      ∀ q ∉ fs.map (fun f => FilePath.fullPath dir name f.path), d'.lookup q = d.lookup q
  | [], d, _, _ => ⟨d, rfl, by simp [Sized], fun _ _ => rfl⟩
  | f :: fs, d, hdist, hlen => by
    simp only [Distinct, List.map_cons, List.nodup_cons] at hdist
    have hf := hlen f (List.mem_cons_self _ _)
    obtain ⟨d', hc, hsz, hfr⟩ := createFiles_spec existing fs _ hdist.2
      fun g hg => hlen g (List.mem_cons_of_mem _ hg)
    refine ⟨d', ?_, fun g hg => ?_, fun q hq => ?_⟩
    · simp only [createFiles, createFile, show ¬f.length < 0 by omega, if_false]
      exact hc
    · rcases List.mem_cons.mp hg with rfl | hg
      · exact ⟨_, (hfr _ hdist.1).trans (lookup_put_self ..), by rw [truncate_length]; omega⟩
      · exact hsz g hg
    · rw [hfr q fun h => hq (List.mem_cons_of_mem _ h)]
      exact lookup_put_of_ne d _ fun h => hq (h ▸ List.mem_cons_self _ _)

/-- **`Initialize` opens every file at its manifest length**, whatever the disk held before. -/
theorem create_spec (h : t.Storable dir) (existing : Bytes → Option Bytes) :
    ∃ d, create t dir existing = .ok d ∧ Sized dir t.info.name d t.layout := by
  have hlen := layout_length_nonneg h.valid
  unfold create
  by_cases hs : t.isSingleFile
  · have hl : t.layout = [⟨t.info.length, []⟩] := by simp [layout, hs]
    have h0 : 0 ≤ t.info.length := by simpa [hl] using hlen
    simp only [hs, if_true, createFile, show ¬t.info.length < 0 by omega, if_false]
    refine ⟨_, rfl, ?_⟩
    rw [hl]
    intro f hf
    rw [List.mem_singleton.mp hf]
    exact ⟨_, lookup_put_self .., by rw [truncate_length]; dsimp only; omega⟩
  · have hl : t.layout = t.info.files := by simp [layout, hs]
    simp only [hs, if_false]
    obtain ⟨d, hc, hsz, -⟩ := createFiles_spec existing t.info.files ⟨[]⟩ (hl ▸ h.distinct)
      (hl ▸ hlen)
    exact ⟨d, hc, hl ▸ hsz⟩

/-- **`WritePiece(i, data)` overwrites the window of piece `i`** of the stream, and keeps every
file at its length. -/
theorem writePiece_spec (h : t.Storable dir) {d : Disk} (hd : Sized dir t.info.name d t.layout)
    {i : Nat} (hi : i < t.numPieces) {data : Bytes} (hlen : (data.length : Int) = t.pieceSize i) :
    ∃ d', writePiece t dir d i data = .ok d' ∧ Sized dir t.info.name d' t.layout ∧
      stream t dir d' = overwrite (stream t dir d) (i * t.info.pieceLength).toNat data := by
  have hpl := (validate_ok h.valid).1
  have ho : 0 ≤ (i : Int) * t.info.pieceLength := Int.mul_nonneg (by omega) hpl.le
  have hend : i * t.info.pieceLength + data.length ≤ t.exactLength := by
    rw [hlen, ← h.totalLength_eq]; exact pieceSize_add_le hpl h.consistent hi
  have h64 : t.exactLength < 9223372036854775808 := h.fits64
  unfold writePiece
  simp only [h.pieceOffset_eq hi]
  by_cases hs : t.isSingleFile
  · have hl : t.layout = [⟨t.info.length, []⟩] := by simp [layout, hs]
    have htot : t.exactLength = t.info.length := by simp [exactLength, hs]
    obtain ⟨c, hc, hcl⟩ := hd _ (hl ▸ List.mem_singleton_self _)
    have hcl' : (c.length : Int) = t.info.length := hcl
    simp only [hs, if_true, show FilePath.join dir t.info.name =
      FilePath.fullPath dir t.info.name [] from rfl, hc, show ¬(i * t.info.pieceLength : Int) < 0 by omega,
      if_false, writeAt_eq_overwrite (.inr (show (i * t.info.pieceLength).toNat ≤ c.length by omega))]
    refine ⟨_, rfl, ?_, ?_⟩
    · rw [hl]
      intro f hf
      rw [List.mem_singleton.mp hf]
      exact ⟨_, lookup_put_self .., by rw [overwrite_length (by omega), hcl]⟩
    · simp [stream, hl, contents, hc]
  · have hl : t.layout = t.info.files := by simp [layout, hs]
    have hsum := layout_sum t
    rw [hl] at hsum
    simp only [hs, if_false]
    have hgap := h.noEmptyInside i
    rw [hl, ← hlen] at hgap
    obtain ⟨d', hw, hsz, -, hct⟩ := writeMultiFile_spec ho data t.info.files 0 0 d (hl ▸ hd)
      (hl ▸ h.distinct) hgap (by omega) (by omega) le_rfl (by omega)
    refine ⟨d', hw, hl ▸ hsz, ?_⟩
    simp only [stream, hl, hct, List.drop_zero, sub_zero]

/-- **`ReadPiece(i)` returns the window of piece `i`** of the stream. -/
theorem readPiece_spec (h : t.Storable dir) {d : Disk} (hd : Sized dir t.info.name d t.layout)
    {i : Nat} (hi : i < t.numPieces) :
    readPiece t dir d i =
      .ok (((stream t dir d).drop (i * t.info.pieceLength).toNat).take (t.pieceSize i).toNat) := by
  have hpl := (validate_ok h.valid).1
  have ho : 0 ≤ (i : Int) * t.info.pieceLength := Int.mul_nonneg (by omega) hpl.le
  have hsz := pieceSize_pos hpl h.consistent hi
  have hend : i * t.info.pieceLength + t.pieceSize i ≤ t.exactLength := by
    rw [← h.totalLength_eq]; exact pieceSize_add_le hpl h.consistent hi
  have h64 : t.exactLength < 9223372036854775808 := h.fits64
  unfold readPiece
  simp only [h.pieceOffset_eq hi]
  by_cases hs : t.isSingleFile
  · have hl : t.layout = [⟨t.info.length, []⟩] := by simp [layout, hs]
    have htot : t.exactLength = t.info.length := by simp [exactLength, hs]
    obtain ⟨c, hc, hcl⟩ := hd _ (hl ▸ List.mem_singleton_self _)
    have hcl' : (c.length : Int) = t.info.length := hcl
    simp only [hs, if_true, show FilePath.join dir t.info.name =
      FilePath.fullPath dir t.info.name [] from rfl, hc, show ¬(i * t.info.pieceLength : Int) < 0 by omega,
      if_false, stream, hl, contents, Option.getD_some, List.append_nil]
    rw [readAt_of_le (by omega)]
  · have hl : t.layout = t.info.files := by simp [layout, hs]
    have hsum := layout_sum t
    rw [hl] at hsum
    simp only [hs, if_false, stream, hl]
    have hgap := h.noEmptyInside i
    rw [hl] at hgap
    rw [readMultiFile_spec ho d t.info.files 0 0 _ (hl ▸ hd) (by simpa [hsz.le] using hgap)
      (by omega) (by simp; omega) le_rfl (by omega)]
    simp

/-- A piece past the last one reads the same from every disk in good order: its buffer is
empty, whatever its offset. -/
lemma readPiece_of_numPieces_le (h : t.Storable dir) {d d' : Disk}
    (hd : Sized dir t.info.name d t.layout) (hd' : Sized dir t.info.name d' t.layout) {i : Nat}
    (hi : t.numPieces ≤ i) : readPiece t dir d' i = readPiece t dir d i := by
  have h0 : t.pieceSize i = 0 := by simp [pieceSize, show ¬i < t.numPieces by omega]
  unfold readPiece
  simp only [h0, Int.toNat_zero, List.replicate_zero]
  by_cases hs : t.isSingleFile
  · have hl : t.layout = [⟨t.info.length, []⟩] := by simp [layout, hs]
    obtain ⟨c, hc, -⟩ := hd _ (hl ▸ List.mem_singleton_self _)
    obtain ⟨c', hc', -⟩ := hd' _ (hl ▸ List.mem_singleton_self _)
    simp [hs, show FilePath.join dir t.info.name = FilePath.fullPath dir t.info.name [] from rfl,
      hc, hc', readAt]
  · have hlen := (validate_ok h.valid).2.2.2.2
    simp [hs, readMultiFile_nil _ _ _ _ fun f hf => (hlen f hf).1]

/-- The window of piece `i` after `WritePiece(j, data)`: the data when `i = j`, and what it was
otherwise, since the windows of two pieces never overlap. -/
lemma window_overwrite (h : t.Storable dir) {V data : Bytes}
    (hV : (V.length : Int) = t.totalLength) {i j : Nat} (hlen : (data.length : Int) = t.pieceSize j) :
    ((overwrite V (j * t.info.pieceLength).toNat data).drop (i * t.info.pieceLength).toNat).take
        (t.pieceSize i).toNat =
      if i = j then data else (V.drop (i * t.info.pieceLength).toNat).take (t.pieceSize i).toNat := by
  have hpl := (validate_ok h.valid).1
  have hsi := t.pieceSize_le hpl h.consistent i
  have hsj := t.pieceSize_le hpl h.consistent j
  have hoi : 0 ≤ (i : Int) * t.info.pieceLength := Int.mul_nonneg (by omega) hpl.le
  have hoj : 0 ≤ (j : Int) * t.info.pieceLength := Int.mul_nonneg (by omega) hpl.le
  rcases h.data_fits hlen with rfl | hfit
  · split
    · subst i; simp [show (t.pieceSize j).toNat = 0 by simp at hlen; omega]
    · rw [overwrite_nil]
  split
  · subst i
    rw [show (t.pieceSize j).toNat = data.length by omega]
    exact overwrite_window_self (by omega)
  · rename_i hij
    refine overwrite_window_disjoint (by omega) ?_
    rcases Nat.lt_or_gt_of_ne hij with hlt | hlt
    · have := mul_add_le_mul hpl.le hlt; omega
    · have := mul_add_le_mul hpl.le hlt; omega

/-- `WritePiece` called on each `(index, data)` of `ws` in order, stopping at the first error. -/
def writePieces (t : Torrent) (dir : Bytes) : Disk → List (Nat × Bytes) → Except String Disk
  | d, [] => .ok d
  | d, (i, data) :: ws =>
    match writePiece t dir d i data with
    | .ok d' => writePieces t dir d' ws
    | .error e => .error e

/-- The data of the last write to piece `i` in `ws`, if any. -/
def lastWrite : List (Nat × Bytes) → Nat → Option Bytes
  | [], _ => none
  | (j, data) :: ws, i =>
    match lastWrite ws i with
    | some x => some x
    | none => if i = j then some data else none

/-- A piece written last in `ws` is one of its writes. -/
lemma mem_of_lastWrite : ∀ {ws : List (Nat × Bytes)} {i : Nat} {data : Bytes},
    lastWrite ws i = some data → (i, data) ∈ ws
  | [], _, _, h => by simp [lastWrite] at h
  | (j, x) :: ws, i, data, h => by
    rw [lastWrite] at h
    cases hl : lastWrite ws i with
    | some y =>
      simp only [hl, Option.some.injEq] at h
      exact List.mem_cons_of_mem _ (h ▸ mem_of_lastWrite hl)
    | none =>
      simp only [hl] at h
      split at h
      · rename_i hij; cases h; subst hij; exact List.mem_cons_self _ _
      · cases h

/-- **Any sequence of writes reads back.**  Writes of piece-sized data to existing pieces all
succeed; afterwards each piece reads back the data of its last write, and a piece never written
reads back what it read before. -/
theorem writePieces_spec (h : t.Storable dir) :
    ∀ (ws : List (Nat × Bytes)) (d : Disk), Sized dir t.info.name d t.layout →
    (∀ w ∈ ws, w.1 < t.numPieces ∧ (w.2.length : Int) = t.pieceSize w.1) →
    ∃ d', writePieces t dir d ws = .ok d' ∧ Sized dir t.info.name d' t.layout ∧
      ∀ i, readPiece t dir d' i =
        match lastWrite ws i with
        | some data => .ok data
        | none => readPiece t dir d i
  | [], d, hd, _ => ⟨d, rfl, hd, fun _ => rfl⟩
  | (j, data) :: ws, d, hd, hws => by
    obtain ⟨hj, hjl⟩ := hws _ (List.mem_cons_self _ _)
    obtain ⟨d₁, hw₁, hd₁, hs₁⟩ := writePiece_spec h hd hj hjl
    obtain ⟨d', hw, hd', hr⟩ := writePieces_spec h ws d₁ hd₁
      fun w hw => hws w (List.mem_cons_of_mem _ hw)
    refine ⟨d', by simp only [writePieces, hw₁, hw], hd', fun i => ?_⟩
    rw [hr i, lastWrite]
    cases lastWrite ws i with
    | some x => rfl
    | none =>
      by_cases hi : i < t.numPieces
      · rw [readPiece_spec h hd₁ hi, readPiece_spec h hd hi, hs₁,
          window_overwrite h (stream_length h hd) hjl]
        by_cases hij : i = j <;> simp [hij]
      · rw [readPiece_of_numPieces_le h hd hd₁ (by omega), if_neg (by omega)]

/-- A torrent under `d` of three files `a`, `b`, `c` of lengths 1, 0, 1 and one-byte pieces: the
empty file sits on the boundary between the two pieces. -/
def sampleTorrent : Torrent where
  announce := []
  announceList := []
  createdBy := []
  creationDate := 0
  comment := []
  infoHash := []
  info := { pieceLength := 1, pieces := List.replicate 40 0, name := [116], length := 0,
            files := [⟨1, [[97]]⟩, ⟨0, [[98]]⟩, ⟨1, [[99]]⟩] }

/-- Two entries with one path are one file: the write of piece 1 lands on piece 0's byte. -/
example :
    (do
      let d ← create { sampleTorrent with
        info := { sampleTorrent.info with files := [⟨1, [[120]]⟩, ⟨1, [[120]]⟩] } } [100] fun _ => none
      let d ← writePieces { sampleTorrent with
        info := { sampleTorrent.info with files := [⟨1, [[120]]⟩, ⟨1, [[120]]⟩] } } [100] d [(0, [1]), (1, [2])]
      readPiece { sampleTorrent with
        info := { sampleTorrent.info with files := [⟨1, [[120]]⟩, ⟨1, [[120]]⟩] } } [100] d 0) = .ok [2] :=
  rfl

/-- Files `a`, `b`, `c` of lengths 1, 0, 1 in one piece of two bytes, whose hash is the SHA-1
digest of `[5, 7]`: the empty file `b` lies strictly inside the piece. -/
def emptyInsideTorrent : Torrent where
  announce := []
  announceList := []
  createdBy := []
  creationDate := 0
  comment := []
  infoHash := []
  info := { pieceLength := 2, name := [116], length := 0,
            pieces := [37, 242, 141, 41, 166, 166, 45, 152, 162, 133, 96, 78, 254, 129, 105, 70,
                       190, 68, 107, 39],
            files := [⟨1, [[97]]⟩, ⟨0, [[98]]⟩, ⟨1, [[99]]⟩] }

/-- **A zero-length file inside a piece stops both loops.**  The torrent passes `Validate`, has
`⌈TotalLength / PieceLength⌉` pieces and distinct paths.  Writing `[5, 7]` as piece 0 writes its
first byte to `a` and stops at `b`, so `c` keeps its zero; reading piece 0 back stops at `b` too
and returns `[5, 0]`, which is also what the files hold. -/
theorem readPiece_stops_at_empty_file :
    emptyInsideTorrent.validate = .ok () ∧ emptyInsideTorrent.PieceCountConsistent ∧
    Distinct [100] emptyInsideTorrent.info.name emptyInsideTorrent.info.files ∧
    ∃ d, (do
        let d ← create emptyInsideTorrent [100] fun _ => none
        writePieces emptyInsideTorrent [100] d [(0, [5, 7])]) = .ok d ∧
      readPiece emptyInsideTorrent [100] d 0 = .ok [5, 0] ∧
      stream emptyInsideTorrent [100] d = [5, 0] :=
  ⟨rfl, by decide, by decide, _, rfl, rfl, rfl⟩

end Disk

end BitTorrent
