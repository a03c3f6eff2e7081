import BitTorrentClient.Disk.Path
import BitTorrentClient.Torrent.Torrent
import BitTorrentClient.Piece.Manager

/-!
# The disk manager

`disk.Manager` (`internal/disk`, whose source sits in `strategy_test.go`): the files of a
torrent under a download directory, and the piece-to-file mapping of `WritePiece` and
`ReadPiece`.

The file system is idealised: a path names one file, which holds a byte string; `os.File`'s
positional I/O is `writeAt` / `readAt` with POSIX semantics (a write past the end extends the
file with zeros, a read past the end leaves the rest of the buffer zero); directory creation,
permissions and I/O errors are not modelled, so `Initialize` always opens every file.  The
manager's `files` map and the files behind it are one association list from path to contents:
two entries of a torrent that resolve to the same path share one file, as they do on disk.

`writeMultiFile` and `readMultiFile` are the source's loops, step for step, including their
`break`s, with every `int64` sum and difference wrapped as Go computes it (`wrap64`), and
`WriteAt` / `ReadAt` refusing a negative offset as `os.File` does.  The hash is a parameter
`sha1`, so every theorem here holds for any hash function.
-/

namespace BitTorrent

/-- The open files of a `disk.Manager`: path and current contents. -/
structure Disk where
  files : List (Bytes × Bytes)
  deriving DecidableEq, Repr

namespace Disk

/-- `d.files[path]`, with the contents of the file behind the handle. -/
def lookup (d : Disk) (path : Bytes) : Option Bytes := (d.files.find? (·.1 = path)).map (·.2)

/-- The file at `path` now holds `content`. -/
def put (d : Disk) (path content : Bytes) : Disk :=
  ⟨(path, content) :: d.files.filter (·.1 ≠ path)⟩

/-- `os.File.WriteAt(data, off)`: overwrite from `off`, extending with zeros past the end.  An
empty write does nothing. -/
def writeAt (content data : Bytes) (off : Nat) : Bytes :=
  if data = [] then content
  else content.take off ++ List.replicate (off - content.length) 0 ++ data ++
    content.drop (off + data.length)

/-- `os.File.ReadAt` into a fresh buffer of `n` zero bytes: what the file holds from `off`,
the rest of the buffer left zero (`io.EOF` is ignored by the callers). -/
def readAt (content : Bytes) (off n : Nat) : Bytes :=
  let got := (content.drop off).take n
  got ++ List.replicate (n - got.length) 0

/-- `file.Truncate(size)` after `os.OpenFile(O_CREATE|O_RDWR)`. -/
def truncate (content : Bytes) (size : Nat) : Bytes :=
  content.take size ++ List.replicate (size - content.length) 0

/-- `createFile(path, size)`: open the file (keeping what it held, in the manager or in
`existing` before the run) and truncate it to `size`. -/
def createFile (existing : Bytes → Option Bytes) (d : Disk) (path : Bytes) (size : Int) :
    Except String Disk :=
  if size < 0 then .error s!"failed to allocate space for file {path.toGoString}: truncate {path.toGoString}: invalid argument"
  else .ok (d.put path (truncate (((d.lookup path).orElse fun _ => existing path).getD []) size.toNat))

/-- The per-file loop of the multi-file branch of `Initialize`. -/
def createFiles (existing : Bytes → Option Bytes) (dir name : Bytes) :
    List File → Disk → Except String Disk
  | [], d => .ok d
  | f :: fs, d => do
    let d ← createFile existing d (FilePath.fullPath dir name f.path) f.length
    createFiles existing dir name fs d

/-- `Manager.Initialize`, from the files `existing` on disk before the run. -/
def create (t : Torrent) (dir : Bytes) (existing : Bytes → Option Bytes) : Except String Disk :=
  if t.isSingleFile then createFile existing ⟨[]⟩ (FilePath.join dir t.info.name) t.info.length
  else createFiles existing dir t.info.name t.info.files ⟨[]⟩

/-- The loop of `writeMultiFile(offset, data)` over the files, from `currentOffset` and
`dataOffset`. -/
def writeMultiFile (dir name : Bytes) (offset : Int) (data : Bytes) :
    List File → Int → Nat → Disk → Except String Disk
  | [], _, _, d => .ok d
  | f :: fs, cur, dOff, d =>
    let fileEnd := wrap64 (cur + f.length)
    if offset ≥ fileEnd then writeMultiFile dir name offset data fs fileEnd dOff d
    else
      let fileWriteStart := if offset > cur then wrap64 (offset - cur) else 0
      let remaining := wrap64 (data.length - dOff)
      let bytesToWrite :=
        if wrap64 (fileWriteStart + remaining) > f.length then wrap64 (f.length - fileWriteStart)
        else remaining
      if bytesToWrite ≤ 0 then .ok d
      else
        let fullPath := FilePath.fullPath dir name f.path
        match d.lookup fullPath with
        | none => .error s!"file not open: {fullPath.toGoString}"
        | some content =>
          if fileWriteStart < 0 then
            .error s!"failed to write to file {fullPath.toGoString}: writeat {fullPath.toGoString}: negative offset"
          else
            let d' := d.put fullPath
              (writeAt content ((data.drop dOff).take bytesToWrite.toNat) fileWriteStart.toNat)
            let dOff' := dOff + bytesToWrite.toNat
            if dOff' ≥ data.length then .ok d'
            else writeMultiFile dir name offset data fs fileEnd dOff' d'

/-- The loop of `readMultiFile(offset, data)` over the files: it fills the buffer `buf`. -/
def readMultiFile (dir name : Bytes) (offset : Int) (d : Disk) :
    List File → Int → Nat → Bytes → Except String Bytes
  | [], _, _, buf => .ok buf
  | f :: fs, cur, dOff, buf =>
    let fileEnd := wrap64 (cur + f.length)
    if offset ≥ fileEnd then readMultiFile dir name offset d fs fileEnd dOff buf
    else
      let fileReadStart := if offset > cur then wrap64 (offset - cur) else 0
      let remaining := wrap64 (buf.length - dOff)
      let bytesToRead :=
        if wrap64 (fileReadStart + remaining) > f.length then wrap64 (f.length - fileReadStart)
        else remaining
      if bytesToRead ≤ 0 then .ok buf
      else
        let fullPath := FilePath.fullPath dir name f.path
        match d.lookup fullPath with
        | none => .error s!"file not open: {fullPath.toGoString}"
        | some content =>
          if fileReadStart < 0 then
            .error s!"failed to read from file {fullPath.toGoString}: readat {fullPath.toGoString}: negative offset"
          else
            let n := bytesToRead.toNat
            let buf' := buf.take dOff ++ readAt content fileReadStart.toNat n ++ buf.drop (dOff + n)
            let dOff' := dOff + n
            if dOff' ≥ buf.length then .ok buf'
            else readMultiFile dir name offset d fs fileEnd dOff' buf'

/-- `Manager.WritePiece`. -/
def writePiece (t : Torrent) (dir : Bytes) (d : Disk) (i : Nat) (data : Bytes) :
    Except String Disk :=
  let pieceOffset := wrap64 (i * t.info.pieceLength)
  if t.isSingleFile then
    let filePath := FilePath.join dir t.info.name
    match d.lookup filePath with
    | none => .error s!"file not open: {filePath.toGoString}"
    | some content =>
      if pieceOffset < 0 then
        .error s!"failed to write to file {filePath.toGoString} at offset {pieceOffset}: writeat {filePath.toGoString}: negative offset"
      else .ok (d.put filePath (writeAt content data pieceOffset.toNat))
  else writeMultiFile dir t.info.name pieceOffset data t.info.files 0 0 d

/-- `Manager.ReadPiece`: a zero buffer of `PieceSize(i)` bytes, filled from the file(s). -/
def readPiece (t : Torrent) (dir : Bytes) (d : Disk) (i : Nat) : Except String Bytes :=
  let actualLength := (t.pieceSize i).toNat
  let pieceOffset := wrap64 (i * t.info.pieceLength)
  if t.isSingleFile then
    let filePath := FilePath.join dir t.info.name
    match d.lookup filePath with
    | none => .error s!"file not open: {filePath.toGoString}"
    | some content =>
      if pieceOffset < 0 then
        .error s!"failed to read from file {filePath.toGoString} at offset {pieceOffset}: readat {filePath.toGoString}: negative offset"
      else .ok (readAt content pieceOffset.toNat actualLength)
  else readMultiFile dir t.info.name pieceOffset d t.info.files 0 0 (List.replicate actualLength 0)

/-- `Manager.ReadBlock`: a slice of the piece read back. -/
def readBlock (t : Torrent) (dir : Bytes) (d : Disk) (i begin length : Nat) :
    Except String Bytes := do
  let pieceData ← readPiece t dir d i
  if begin ≥ pieceData.length then
    .error s!"block begin offset {begin} out of range for piece {i}"
  else .ok ((pieceData.take (min (begin + length) pieceData.length)).drop begin)

/-- `Manager.VerifyPiece`: SHA-1 of the data against the torrent's hash of piece `i`. -/
def verifyPiece (sha1 : Bytes → Bytes) (t : Torrent) (i : Nat) (data : Bytes) : Bool :=
  match t.pieceHash i with
  | .ok expected => sha1 data = expected
  | .error _ => false

end Disk

/-- The disk manager of torrent `t` under `dir`, as the `DiskManager` the piece manager calls. -/
def diskManager (sha1 : Bytes → Bytes) (t : Torrent) (dir : Bytes) : DiskManager Disk where
  writePiece := Disk.writePiece t dir
  readPiece := Disk.readPiece t dir
  readBlock := Disk.readBlock t dir
  verifyPiece := Disk.verifyPiece sha1 t

end BitTorrent
