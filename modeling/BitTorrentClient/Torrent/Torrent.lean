import Mathlib.Algebra.Order.BigOperators.Group.List
import Mathlib.Tactic.Linarith
import BitTorrentClient.Basic

/-!
# Torrent metadata

`torrent.Torrent` of `internal/torrent/torrent.go`, with `Validate` and the piece arithmetic
(`TotalLength`, `NumPieces`, `PieceHash`, `PieceSize`) the disk manager is built on.

Go's `int64` lengths are `Int` here, and `TotalLength` adds them up in `int64` (`wrap64`), so
that a torrent of `2^63` bytes or more has the negative or small total the code computes;
`PieceSize` takes Go's truncated remainder (`Int.tmod`).  `Fits64` is the condition under which
nothing wraps: the exact length (`exactLength`) is below `2^63`, and then `TotalLength` is that
length (`totalLength_eq`).

`pieceSize_add_le` is what the disk needs from this arithmetic: when the piece count is
`⌈TotalLength / PieceLength⌉`, every piece `[i * PieceLength, i * PieceLength + PieceSize i)`
lies inside the torrent's bytes, and consecutive pieces do not overlap (`pieceSize_le`).  These
facts hold of whatever `TotalLength` returns, wrapped or not.
-/

namespace BitTorrent

/-- `torrent.File`: one file of a multi-file torrent. -/
structure File where
  length : Int
  path : List Bytes
  deriving DecidableEq, Repr

/-- `torrent.Info`: the info dictionary. -/
structure Info where
  pieceLength : Int
  pieces : Bytes
  name : Bytes
  length : Int
  files : List File
  deriving DecidableEq, Repr

/-- `torrent.Torrent`. -/
structure Torrent where
  announce : Bytes
  announceList : List (List Bytes)
  createdBy : Bytes
  creationDate : Int
  comment : Bytes
  infoHash : Bytes
  info : Info
  deriving DecidableEq, Repr

namespace Torrent

/-- The per-file loop of `Validate`. -/
def validateFiles : Nat → List File → Except String Unit
  | _, [] => .ok ()
  | i, f :: fs =>
    if f.length < 0 then .error s!"file {i} has invalid length"
    else if f.path = [] then .error s!"file {i} has empty path"
    else validateFiles (i + 1) fs

/-- `Torrent.Validate`. -/
def validate (t : Torrent) : Except String Unit :=
  if t.info.pieceLength ≤ 0 then .error "invalid piece length"
  else if t.info.pieces.length % 20 ≠ 0 then .error "pieces hash length is not a multiple of 20"
  else if t.info.name = [] then .error "torrent name is empty"
  else if t.info.files = [] ∧ t.info.length ≤ 0 then .error "invalid file length"
  else validateFiles 0 t.info.files

/-- `Torrent.IsSingleFile`. -/
def isSingleFile (t : Torrent) : Bool := t.info.files.isEmpty

/-- `Torrent.TotalLength`: the single file's length, or the files' lengths added up in `int64`. -/
def totalLength (t : Torrent) : Int :=
  if t.isSingleFile then t.info.length
  else t.info.files.foldl (fun total f => wrap64 (total + f.length)) 0

/-- The torrent's length in exact arithmetic. -/
def exactLength (t : Torrent) : Int :=
  if t.isSingleFile then t.info.length else (t.info.files.map (·.length)).sum

/-- The torrent's bytes are addressable by `int64`: its exact length is below `2^63`, so no
sum or product of `TotalLength`, `GetFiles` or the disk manager wraps. -/
def Fits64 (t : Torrent) : Prop := t.exactLength < 9223372036854775808

instance (t : Torrent) : Decidable t.Fits64 := inferInstanceAs (Decidable (_ < _))

/-- `Torrent.NumPieces`. -/
def numPieces (t : Torrent) : Nat := t.info.pieces.length / 20

/-- `Torrent.PieceHash`: the `index`-th 20-byte slice of `pieces`. -/
def pieceHash (t : Torrent) (index : Nat) : Except String Bytes :=
  if index < t.numPieces then .ok ((t.info.pieces.drop (index * 20)).take 20)
  else .error s!"piece index {index} out of range"

/-- `Torrent.PieceSize`: `PieceLength` except for the last piece, which gets the remainder of
`TotalLength` when that is not zero; `0` out of range. -/
def pieceSize (t : Torrent) (index : Nat) : Int :=
  if index < t.numPieces then
    if index < t.numPieces - 1 then t.info.pieceLength
    else
      let lastPieceSize := t.totalLength.tmod t.info.pieceLength
      if lastPieceSize = 0 then t.info.pieceLength else lastPieceSize
  else 0

/-- The piece count is `⌈TotalLength / PieceLength⌉`, as the disk theorems assume. -/
def PieceCountConsistent (t : Torrent) : Prop :=
  (t.numPieces : Int) = (t.totalLength + t.info.pieceLength - 1) / t.info.pieceLength

instance (t : Torrent) : Decidable t.PieceCountConsistent :=
  inferInstanceAs (Decidable (_ = _))

/-! ## Validation facts -/

lemma validateFiles_ok : ∀ {i : Nat} {fs : List File}, validateFiles i fs = .ok () →
    ∀ f ∈ fs, 0 ≤ f.length ∧ f.path ≠ []
  | _, [], _ => by simp
  | i, f :: fs, h => by
    unfold validateFiles at h
    split at h
    · cases h
    · split at h
      · cases h
      · rename_i h1 h2
        simp only [List.mem_cons, forall_eq_or_imp]
        exact ⟨⟨by omega, h2⟩, validateFiles_ok h⟩

/-- What `Validate` guarantees: a positive piece length, whole hashes, a name, and either a
positive single-file length or files of non-negative length with a non-empty path. -/
theorem validate_ok {t : Torrent} (h : t.validate = .ok ()) :
    0 < t.info.pieceLength ∧ t.info.pieces.length % 20 = 0 ∧ t.info.name ≠ [] ∧
      (t.info.files = [] → 0 < t.info.length) ∧
      ∀ f ∈ t.info.files, 0 ≤ f.length ∧ f.path ≠ [] := by
  unfold validate at h
  split at h; · cases h
  split at h; · cases h
  split at h; · cases h
  split at h; · cases h
  rename_i h1 h2 h3 h4
  exact ⟨by omega, by omega, h3, fun hf => by simp_all, validateFiles_ok h⟩

lemma exactLength_nonneg {t : Torrent} (h : t.validate = .ok ()) : 0 ≤ t.exactLength := by
  obtain ⟨-, -, -, hs, hf⟩ := validate_ok h
  unfold exactLength isSingleFile
  split
  · rename_i he; exact (hs (List.isEmpty_iff.mp he)).le
  · exact List.sum_nonneg (by simpa using fun f hf' => (hf f hf').1)

/-- The `int64` loop of `TotalLength` adds exactly while its partial sums stay below `2^63`. -/
lemma foldl_wrap64 : ∀ (fs : List File) (acc : Int), 0 ≤ acc → (∀ f ∈ fs, 0 ≤ f.length) →
    acc + (fs.map (·.length)).sum < 9223372036854775808 →
    fs.foldl (fun total f => wrap64 (total + f.length)) acc = acc + (fs.map (·.length)).sum
  | [], acc, _, _, _ => by simp
  | f :: fs, acc, h0, hf, hlt => by
    have hf₀ := hf f (List.mem_cons_self _ _)
    have hrest : 0 ≤ (fs.map (·.length)).sum :=
      List.sum_nonneg (by simpa using fun g hg => hf g (List.mem_cons_of_mem _ hg))
    simp only [List.map_cons, List.sum_cons] at hlt ⊢
    rw [List.foldl_cons, wrap64_of_lt (by omega) (by omega),
      foldl_wrap64 fs _ (by omega) (fun g hg => hf g (List.mem_cons_of_mem _ hg)) (by omega)]
    omega

/-- **`TotalLength` is the exact length** of a valid torrent that fits in `int64`. -/
theorem totalLength_eq {t : Torrent} (hv : t.validate = .ok ()) (h : t.Fits64) :
    t.totalLength = t.exactLength := by
  obtain ⟨-, -, -, -, hf⟩ := validate_ok hv
  unfold totalLength
  split
  · simp [exactLength, *]
  · have hx : t.exactLength = (t.info.files.map (·.length)).sum := by simp [exactLength, *]
    rw [hx, foldl_wrap64 _ 0 le_rfl (fun f hf' => (hf f hf').1) (by unfold Fits64 at h; omega),
      zero_add]

/-! ## Piece arithmetic -/

variable {t : Torrent}

/-- A torrent with a piece has bytes: `⌈TotalLength / PieceLength⌉ ≥ 1` forces `TotalLength > 0`,
so the last piece's remainder is the non-negative one. -/
lemma totalLength_pos (hpl : 0 < t.info.pieceLength) (hN : t.PieceCountConsistent) {i : Nat}
    (hi : i < t.numPieces) : 0 < t.totalLength := by
  unfold PieceCountConsistent at hN
  have h1 : 1 ≤ (t.totalLength + t.info.pieceLength - 1) / t.info.pieceLength := by omega
  rw [Int.le_ediv_iff_mul_le hpl] at h1
  omega

lemma pieceSize_le (hpl : 0 < t.info.pieceLength) (hN : t.PieceCountConsistent) (i : Nat) :
    0 ≤ t.pieceSize i ∧ t.pieceSize i ≤ t.info.pieceLength := by
  unfold pieceSize
  split
  · rename_i hi
    rw [Int.tmod_eq_emod (totalLength_pos hpl hN hi).le hpl.le]
    split
    · omega
    · simp only
      split
      · omega
      · exact ⟨Int.emod_nonneg _ (by omega), (Int.emod_lt_of_pos _ hpl).le⟩
  · omega

lemma pieceSize_pos (hpl : 0 < t.info.pieceLength) (hN : t.PieceCountConsistent) {i : Nat}
    (hi : i < t.numPieces) : 0 < t.pieceSize i := by
  unfold pieceSize
  simp only [hi, if_true, Int.tmod_eq_emod (totalLength_pos hpl hN hi).le hpl.le]
  split
  · exact hpl
  · split
    · exact hpl
    · have := Int.emod_nonneg t.totalLength (ne_of_gt hpl)
      omega

/-- `⌈T / P⌉` in the form the source's `PieceSize` branches on. -/
lemma ceil_cases {T P : Int} (hpl : 0 < P) :
    (T + P - 1) / P = if T % P = 0 then T / P else T / P + 1 := by
  have hq := Int.ediv_add_emod T P
  have hs0 := Int.emod_nonneg T (ne_of_gt hpl)
  have hs1 := Int.emod_lt_of_pos T hpl
  split
  · exact ((Int.ediv_emod_unique hpl).mpr
      ⟨show P - 1 + P * (T / P) = T + P - 1 by omega, by omega, by omega⟩).1
  · exact ((Int.ediv_emod_unique hpl).mpr
      ⟨show T % P - 1 + P * (T / P + 1) = T + P - 1 by rw [mul_add]; omega, by omega, by omega⟩).1

/-- **Every piece lies inside the torrent.**  With `⌈TotalLength / PieceLength⌉` pieces, piece
`i` ends at or before `TotalLength`; the last one ends exactly there. -/
theorem pieceSize_add_le (hpl : 0 < t.info.pieceLength) (hN : t.PieceCountConsistent)
    {i : Nat} (hi : i < t.numPieces) :
    i * t.info.pieceLength + t.pieceSize i ≤ t.totalLength := by
  unfold PieceCountConsistent at hN
  unfold pieceSize
  simp only [hi, if_true, Int.tmod_eq_emod (totalLength_pos hpl hN hi).le hpl.le]
  generalize t.info.pieceLength = P at *
  generalize t.totalLength = T at *
  generalize t.numPieces = N at *
  rw [ceil_cases hpl] at hN
  have hq := Int.ediv_add_emod T P
  have hs0 := Int.emod_nonneg T (ne_of_gt hpl)
  have hs1 := Int.emod_lt_of_pos T hpl
  generalize T / P = q at *
  generalize T % P = s at *
  have key : ∀ k : Int, k ≤ q → k * P ≤ T := fun k hk => by
    have := Int.mul_le_mul_of_nonneg_right hk hpl.le
    linarith [mul_comm P q]
  split
  · have := key (i + 1) (by split at hN <;> omega)
    linarith [add_mul (i : Int) 1 P]
  · split
    · have := key (i + 1) (by split at hN <;> omega)
      linarith [add_mul (i : Int) 1 P]
    · have hiq : (i : Int) = q := by split at hN <;> omega
      rw [hiq]; linarith [mul_comm P q]

/-- The piece of a byte offset `x` of the torrent: piece `x / PieceLength`, whose range holds
`x`. -/
lemma piece_index_lt (hpl : 0 < t.info.pieceLength) (hN : t.PieceCountConsistent) {x : Int}
    (hx0 : 0 ≤ x) (hxT : x < t.totalLength) :
    (x / t.info.pieceLength).toNat < t.numPieces ∧
      ((x / t.info.pieceLength).toNat : Int) * t.info.pieceLength ≤ x ∧
      x < ((x / t.info.pieceLength).toNat : Int) * t.info.pieceLength +
        t.pieceSize (x / t.info.pieceLength).toNat := by
  unfold PieceCountConsistent at hN
  have hk0 : 0 ≤ x / t.info.pieceLength := Int.ediv_nonneg hx0 hpl.le
  have hxk := Int.ediv_add_emod x t.info.pieceLength
  have hr0 := Int.emod_nonneg x (ne_of_gt hpl)
  have hr1 := Int.emod_lt_of_pos x hpl
  have hTq := Int.ediv_add_emod t.totalLength t.info.pieceLength
  have hs0 := Int.emod_nonneg t.totalLength (ne_of_gt hpl)
  have hs1 := Int.emod_lt_of_pos t.totalLength hpl
  rw [ceil_cases hpl] at hN
  unfold pieceSize
  rw [Int.tmod_eq_emod (by omega) hpl.le]
  generalize hk : x / t.info.pieceLength = k at *
  generalize hq : t.totalLength / t.info.pieceLength = q at *
  generalize t.totalLength % t.info.pieceLength = s at *
  generalize x % t.info.pieceLength = r at *
  generalize t.info.pieceLength = P at *
  generalize t.totalLength = T at *
  generalize t.numPieces = N at *
  rw [Int.toNat_of_nonneg hk0]
  have hkq : k ≤ q := by
    by_contra hc
    have : P * (q + 1) ≤ P * k := Int.mul_le_mul_of_nonneg_left (by omega) hpl.le
    rw [mul_add] at this
    omega
  have hkN : k.toNat < N := by
    by_cases hs : s = 0
    · rw [if_pos hs] at hN
      have hne : k ≠ q := fun h => by subst h; omega
      omega
    · rw [if_neg hs] at hN
      omega
  rw [mul_comm] at hxk hTq
  refine ⟨hkN, by omega, ?_⟩
  rw [if_pos hkN]
  dsimp only
  split_ifs with hlast hs
  · omega
  · omega
  · have hkq' : k = q := by rw [if_neg hs] at hN; omega
    subst hkq'
    omega

/-- **The pieces partition the torrent.**  With a positive piece length and
`⌈TotalLength / PieceLength⌉` pieces, an offset lies in `[0, TotalLength)` exactly when it lies
in the range `[i * PieceLength, i * PieceLength + PieceSize i)` of a piece, and then of one piece
only. -/
theorem pieces_partition (hpl : 0 < t.info.pieceLength) (hN : t.PieceCountConsistent) (x : Int) :
    ((0 ≤ x ∧ x < t.totalLength) ↔ ∃ i < t.numPieces,
        i * t.info.pieceLength ≤ x ∧ x < i * t.info.pieceLength + t.pieceSize i) ∧
      ∀ i j : Nat, (i * t.info.pieceLength ≤ x ∧ x < i * t.info.pieceLength + t.pieceSize i) →
        (j * t.info.pieceLength ≤ x ∧ x < j * t.info.pieceLength + t.pieceSize j) → i = j := by
  refine ⟨⟨fun ⟨hx0, hxT⟩ => ⟨_, piece_index_lt hpl hN hx0 hxT⟩, fun ⟨i, hi, hlo, hhi⟩ => ?_⟩,
    fun i j ⟨hil, hih⟩ ⟨hjl, hjh⟩ => ?_⟩
  · have hend := pieceSize_add_le hpl hN hi
    have : (0 : Int) ≤ i * t.info.pieceLength := Int.mul_nonneg (Int.ofNat_nonneg i) hpl.le
    omega
  · have hsi := (pieceSize_le hpl hN i).2
    have hsj := (pieceSize_le hpl hN j).2
    have below : ∀ a b : Nat, a * t.info.pieceLength ≤ x → x < (b : Int) * t.info.pieceLength +
        t.info.pieceLength → a ≤ b := fun a b ha hb => by
      by_contra hab
      have := Int.mul_le_mul_of_nonneg_right (show (b : Int) + 1 ≤ a by omega) hpl.le
      rw [add_mul, one_mul] at this
      omega
    have := below i j hil (by omega)
    have := below j i hjl (by omega)
    omega

/-- A one-file torrent of ten bytes in pieces of four: three pieces, the last of two bytes. -/
def tenBytes : Torrent :=
  { announce := [], announceList := [], createdBy := [], creationDate := 0, comment := [],
    infoHash := [],
    info := { pieceLength := 4, pieces := List.replicate 60 0, name := [120], length := 10, files := [] } }

theorem pieces_partition_sample :
    0 < tenBytes.info.pieceLength ∧ tenBytes.PieceCountConsistent ∧ ∀ x : Int,
      ((0 ≤ x ∧ x < tenBytes.totalLength) ↔ ∃ i < tenBytes.numPieces,
          i * tenBytes.info.pieceLength ≤ x ∧ x < i * tenBytes.info.pieceLength + tenBytes.pieceSize i) ∧
        ∀ i j : Nat,
          (i * tenBytes.info.pieceLength ≤ x ∧ x < i * tenBytes.info.pieceLength + tenBytes.pieceSize i) →
          (j * tenBytes.info.pieceLength ≤ x ∧ x < j * tenBytes.info.pieceLength + tenBytes.pieceSize j) →
            i = j :=
  ⟨by decide, by decide, pieces_partition (by decide) (by decide)⟩

end Torrent

end BitTorrent
