import BitTorrentClient.Basic

/-!
# SHA-1

`crypto/sha1`'s `sha1.Sum`, which `disk.Manager.VerifyPiece` applies to a piece, written from
FIPS 180-4, section 6.1: pad the message to whole 64-byte blocks ending in its bit length, run
the 80-round compression over each block from the standard initial state, and write the five
state words out big-endian.

Words are numbers below `2^32`, every sum reduced mod `2^32`.  The definitions compute, so a
digest of a short message is evaluated in a proof; every other result of the project holds for
any hash function (`diskManager` takes it as a parameter), and only the counterexample that
needs two digests to differ uses this one.
-/

namespace BitTorrent.Sha1

/-- A 32-bit left rotation. -/
def rotl (x n : Nat) : Nat := ((x <<< n) ||| (x >>> (32 - n))) % 2 ^ 32

/-- The message's bit length as eight big-endian bytes. -/
def lengthBytes (n : Nat) : List Nat := (List.range 8).reverse.map fun i => n / 2 ^ (8 * i) % 256

/-- The padded message: a `0x80` byte, zeros up to 56 mod 64, and the bit length. -/
def pad (msg : List Nat) : List Nat :=
  msg ++ [0x80] ++ List.replicate ((119 - msg.length % 64) % 64) 0 ++ lengthBytes (8 * msg.length)

/-- Big-endian words of a block. -/
def words : List Nat → List Nat
  | a :: b :: c :: d :: rest => (a * 2 ^ 24 + b * 2 ^ 16 + c * 2 ^ 8 + d) :: words rest
  | _ => []

/-- The five state words. -/
structure State where
  a : Nat
  b : Nat
  c : Nat
  d : Nat
  e : Nat
  deriving DecidableEq, Repr

/-- The round function and constant of round `t`. -/
def fk (t b c d : Nat) : Nat × Nat :=
  if t < 20 then ((b &&& c) ||| ((2 ^ 32 - 1 - b) &&& d), 0x5A827999)
  else if t < 40 then (b ^^^ c ^^^ d, 0x6ED9EBA1)
  else if t < 60 then ((b &&& c) ||| (b &&& d) ||| (c &&& d), 0x8F1BBCDC)
  else (b ^^^ c ^^^ d, 0xCA62C1D6)

/-- Round `t` with schedule word `w`. -/
def round (h : State) (t w : Nat) : State :=
  let p := fk t h.b h.c h.d
  { a := (rotl h.a 5 + p.1 + h.e + p.2 + w) % 2 ^ 32, b := h.a, c := rotl h.b 30, d := h.c,
    e := h.d }

/-- `k` rounds from round `t`, the message schedule kept as a window of 16 words as
`crypto/sha1` keeps it: round `t` takes the window's first word, and the window moves on by the
word 16 rounds later, the rotated xor of its words 13, 8, 2 and 0. -/
def rounds : Nat → Nat → State → List Nat → State
  | 0, _, h, _ => h
  | k + 1, t, h, w =>
    let next := rotl (w.getD 13 0 ^^^ w.getD 8 0 ^^^ w.getD 2 0 ^^^ w.getD 0 0) 1
    rounds k (t + 1) (round h t (w.getD 0 0)) (w.tail ++ [next])

/-- The compression of one 64-byte block. -/
def compress (h : State) (blk : List Nat) : State :=
  let r := rounds 80 0 h (words blk)
  ⟨(h.a + r.a) % 2 ^ 32, (h.b + r.b) % 2 ^ 32, (h.c + r.c) % 2 ^ 32, (h.d + r.d) % 2 ^ 32,
    (h.e + r.e) % 2 ^ 32⟩

/-- Compress the blocks of `bs` in order; `fuel` bounds their number. -/
def compressAll : Nat → List Nat → State → State
  | 0, _, h => h
  | fuel + 1, bs, h => if bs.isEmpty then h else compressAll fuel (bs.drop 64) (compress h (bs.take 64))

/-- The big-endian bytes of a word. -/
def wordBytes (w : Nat) : Bytes := [(w / 2 ^ 24 % 256).toUInt8, (w / 2 ^ 16 % 256).toUInt8,
  (w / 2 ^ 8 % 256).toUInt8, (w % 256).toUInt8]

end Sha1

open Sha1 in
/-- `sha1.Sum`. -/
def sha1 (msg : Bytes) : Bytes :=
  let p := pad (msg.map (·.toNat))
  let h := compressAll p.length p ⟨0x67452301, 0xEFCDAB89, 0x98BADCFE, 0x10325476, 0xC3D2E1F0⟩
  wordBytes h.a ++ wordBytes h.b ++ wordBytes h.c ++ wordBytes h.d ++ wordBytes h.e

/-- A digest has 20 bytes. -/
@[simp] lemma sha1_length (msg : Bytes) : (sha1 msg).length = 20 := by
  simp [sha1, Sha1.wordBytes]

end BitTorrent
