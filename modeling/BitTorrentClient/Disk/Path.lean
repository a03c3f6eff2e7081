import BitTorrentClient.Basic

/-!
# `path/filepath` on Unix

`filepath.Join` and `filepath.Clean` as the disk manager uses them to build the path of each
file of a torrent.  Paths are byte strings with separator `/`.

`clean` follows Go's lexical rules: split at slashes, drop empty and `.` elements, let `..`
cancel the element before it, drop a `..` right after the root of a rooted path, and keep a
leading `..` of a relative one; the empty result is `.`.  The element stack below holds the
kept elements, last first.
-/

namespace BitTorrent.FilePath

/-- `'/'` -/
def slash : UInt8 := 47

/-- `"."` -/
def dot : Bytes := [46]

/-- `".."` -/
def dotDot : Bytes := [46, 46]

/-- Split a path at every `/`: `"a//b/"` gives `["a", "", "b", ""]`. -/
def splitSlash : Bytes → List Bytes
  | [] => [[]]
  | c :: cs =>
    match splitSlash cs with
    | [] => [[c]]
    | e :: es => if c = slash then [] :: e :: es else (c :: e) :: es

/-- Join elements with `/`. -/
def joinSlash : List Bytes → Bytes
  | [] => []
  | [e] => e
  | e :: es => e ++ slash :: joinSlash es

/-- One element of `Clean`'s scan over the stack of kept elements (last element first). -/
def cleanStep (rooted : Bool) (stack : List Bytes) (e : Bytes) : List Bytes :=
  if e = [] ∨ e = dot then stack
  else if e = dotDot then
    match stack with
    | top :: rest => if top = dotDot then e :: stack else rest
    | [] => if rooted then [] else [e]
  else e :: stack

/-- `filepath.Clean`. -/
def clean (p : Bytes) : Bytes :=
  if p = [] then dot
  else
    let rooted := p.head? = some slash
    let body := joinSlash ((splitSlash p).foldl (cleanStep rooted) []).reverse
    if rooted then slash :: body else if body = [] then dot else body

/-- `filepath.Join(a, b)`: the first non-empty element and everything after it, joined with `/`
and cleaned; `""` when both are empty. -/
def join (a b : Bytes) : Bytes :=
  if a ≠ [] then clean (a ++ slash :: b)
  else if b ≠ [] then clean b
  else []

/-- `filepath.Join(dir, name)` followed by one `filepath.Join` per path component, as
`Initialize`, `writeMultiFile` and `readMultiFile` build a file's path. -/
def fullPath (dir name : Bytes) (components : List Bytes) : Bytes :=
  components.foldl join (join dir name)

end BitTorrent.FilePath
