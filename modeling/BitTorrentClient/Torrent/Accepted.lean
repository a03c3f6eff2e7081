import BitTorrentClient.Torrent.Parse
import BitTorrentClient.Disk.Manager

/-!
# What `Parse` accepts

`Parse` hands the disk manager whatever `Validate` lets through, and `Validate` checks only a
positive piece length, whole hashes, a non-empty name and, per file, a non-negative length and a
non-empty path.  Three metainfo files that `Parse` accepts show what that leaves open:

* `name_escapes_directory` — the name `../evil` puts the torrent's file outside the download
  directory: `Initialize` creates `/tmp/evil` for the directory `/tmp/dl`;
* `piece_count_unchecked` — one piece hash for a hundred bytes in pieces of ten: the pieces cover
  the first ten bytes only;
* `empty_file_dropped` — the extraction loop keeps only files of positive length, so a described
  empty file is missing from `Info.Files` and `Initialize` never creates it.

What does hold of every accepted input: `parse_files_nonempty`, each file `Parse` keeps has a
positive length and a non-empty path (so `Validate`'s per-file checks never fail on its output);
and, where the piece count is right, `pieces_partition` of `Torrent.lean`.
-/

namespace BitTorrent

open Bencode FilePath

/-- `p` lies strictly inside the directory `dir` after lexical cleaning: below the root when
`dir` is the root, a relative path not reaching out through `..` when `dir` is `.`, and
otherwise the cleaned directory, a slash, and more. -/
def Within (dir p : Bytes) : Bool :=
  let d := clean dir
  let q := clean p
  if d = [slash] then q.head? = some slash && 1 < q.length
  else if d = dot then
    q.head? ≠ some slash && q ≠ dot && q ≠ dotDot && q.take 3 ≠ dotDot ++ [slash]
  else q.take (d.length + 1) = d ++ [slash] && d.length + 1 < q.length

namespace Torrent

/-- An entry the extraction loop keeps has a positive length and a non-empty path. -/
lemma fileOf_some {v : Value} {f : File} (h : fileOf v = some f) : 0 < f.length ∧ f.path ≠ [] := by
  unfold fileOf at h
  split at h
  · cases h
  · dsimp only at h
    split_ifs at h with hpos
    cases h
    simp only [Bool.and_eq_true, decide_eq_true_eq] at hpos
    exact ⟨hpos.1, List.ne_nil_of_length_pos hpos.2⟩

/-- A one-file torrent named `../evil`. -/
def escapingMetainfo : Bytes :=
  bytesOf "d4:infod6:lengthi1e4:name7:../evil12:piece lengthi1e6:pieces0:ee"

/-- **A name that leaves the download directory.**  `Parse` accepts a torrent named `../evil`,
and `Initialize` for the download directory `/tmp/dl` creates its file at `/tmp/evil`, which
is not inside `/tmp/dl`. -/
theorem name_escapes_directory :
    ∃ t d, parse escapingMetainfo = .ok t ∧ Disk.create t (bytesOf "/tmp/dl") (fun _ => none) = .ok d ∧
      d.files.map (·.1) = [bytesOf "/tmp/evil"] ∧ Within (bytesOf "/tmp/dl") (bytesOf "/tmp/evil") = false :=
  ⟨_, _, rfl, rfl, rfl, by decide⟩

/-- A one-file torrent of a hundred bytes in pieces of ten, with one piece hash. -/
def onePieceMetainfo : Bytes :=
  bytesOf "d4:infod6:lengthi100e4:name1:x12:piece lengthi10e6:pieces20:aaaaaaaaaaaaaaaaaaaaee"

/-- **The piece count is not checked.**  `Parse` accepts one piece hash for a hundred bytes in
pieces of ten, where `⌈TotalLength / PieceLength⌉` is ten; byte 50 then lies in no piece's
range. -/
theorem piece_count_unchecked :
    ∃ t, parse onePieceMetainfo = .ok t ∧ t.numPieces = 1 ∧ t.totalLength = 100 ∧
      t.info.pieceLength = 10 ∧ ¬t.PieceCountConsistent ∧
      ∀ i < t.numPieces, ¬(i * t.info.pieceLength ≤ 50 ∧ 50 < i * t.info.pieceLength + t.pieceSize i) :=
  ⟨_, rfl, rfl, rfl, rfl, by decide, by decide⟩

/-- A two-file torrent whose second file, `b`, is empty. -/
def emptyFileMetainfo : Bytes :=
  bytesOf ("d4:infod5:filesld6:lengthi1e4:pathl1:aeed6:lengthi0e4:pathl1:beee" ++
    "4:name1:x12:piece lengthi1e6:pieces0:ee")

/-- **An empty file is dropped.**  The info dictionary has no `length` and lists the files `a`
(one byte) and `b` (empty), both as `Validate` requires; `Parse` accepts it with `a` alone in
`Info.Files`, and `Initialize` creates no file `b`. -/
theorem empty_file_dropped :
    ∃ t d, parse emptyFileMetainfo = .ok t ∧ t.info.files = [⟨1, [bytesOf "a"]⟩] ∧
      Disk.create t (bytesOf "dl") (fun _ => none) = .ok d ∧ d.files.map (·.1) = [bytesOf "dl/x/a"] :=
  ⟨_, _, rfl, rfl, rfl, rfl⟩

/-- **Every file `Parse` keeps is non-empty.**  For every input `Parse` accepts, each entry of
`Info.Files` has a positive length and a non-empty path. -/
theorem parse_files_nonempty {data : Bytes} {t : Torrent} (h : parse data = .ok t) :
    ∀ f ∈ t.info.files, 0 < f.length ∧ f.path ≠ [] := by
  obtain ⟨-, infoDict, -, -, -, hinfo, -⟩ := parse_ok h
  rw [hinfo]
  intro f hf
  simp only [infoOf] at hf
  split at hf
  · cases hf
  · split at hf
    · obtain ⟨v, -, hv⟩ := List.mem_filterMap.mp hf
      exact fileOf_some hv
    · cases hf

end Torrent

end BitTorrent
