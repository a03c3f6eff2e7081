import BitTorrentClient.Basic

/-!
# Compact peer lists and the client's peer ID

`tracker.go`: a tracker's `peers` value in compact form is a byte string of six bytes a peer,
the IPv4 address then the port, big-endian.  `parseCompactPeers` cuts such a string into peers;
`CompactPeersToBytes` writes a peer list in that form, skipping every peer whose address
`net.IP.To4` cannot turn into four bytes.

* `parseCompactPeers_compactPeersToBytes` — parsing what `CompactPeersToBytes` wrote gives back
  the address and port of every peer with an IPv4 address, in order, and drops the others;
* **`compact_round_trip`** — so the two are inverse: for IPv4 peers one way, and on every byte
  string whose length is a multiple of six the other.

`GeneratePeerID` fills the twelve bytes after the client's prefix from `time.Now().UnixNano()`:

* `leValue_shifts` — the bytes `byte(t >> (8 * k))`, `k < n`, spell `t` modulo `2 ^ (8 * n)`;
* **`generatePeerID_clock`** — so the "random" bytes are the clock's: four of them never change,
  and the ID determines the nanosecond it was made in.
-/

namespace BitTorrent

namespace Tracker

/-- `tracker.Peer`.  `IP` is a `net.IP`: four bytes, or sixteen for an IPv6 address (an IPv4
address may also be held in its sixteen-byte mapped form). -/
structure Peer where
  ip : Bytes
  port : UInt16
  id : Bytes
  deriving DecidableEq, Repr

/-- `net.IP.To4`: a four-byte address as it is, the IPv4-mapped sixteen-byte form
`::ffff:a.b.c.d` as its last four bytes, and `nil` for anything else. -/
def to4 (ip : Bytes) : Option Bytes :=
  if ip.length = 4 then some ip
  else if ip.length = 16 ∧ ip.take 10 = List.replicate 10 0 ∧ ip.getD 10 0 = 0xff ∧
      ip.getD 11 0 = 0xff then some (ip.drop 12)
  else none

/-- Peer `i` of a compact string: `net.IP(data[offset:offset+4])` and
`binary.BigEndian.Uint16(data[offset+4:offset+6])` at `offset = i * 6`. -/
def compactPeerAt (data : Bytes) (i : Nat) : Peer :=
  let offset := i * 6
  { ip := (data.drop offset).take 4, port := uint16 ((data.drop (offset + 4)).take 2), id := [] }

/-- `parseCompactPeers`: `nil` unless the length is a multiple of six, and otherwise one peer for
each six bytes. -/
def parseCompactPeers (data : Bytes) : List Peer :=
  if data.length % 6 ≠ 0 then []
  else (List.range (data.length / 6)).map (compactPeerAt data)

/-- `CompactPeersToBytes`: for each peer with a `To4` address, the four bytes and the port
(`binary.Write` in big-endian order); the others are skipped. -/
def compactPeersToBytes (peers : List Peer) : Bytes :=
  peers.flatMap fun peer =>
    match to4 peer.ip with
    | none => []
    | some ip => ip ++ putUint16 peer.port

/-! ## The pieces -/

lemma to4_of_length {ip : Bytes} (h : ip.length = 4) : to4 ip = some ip := by
  simp [to4, h]

lemma to4_length {ip ip4 : Bytes} (h : to4 ip = some ip4) : ip4.length = 4 := by
  unfold to4 at h
  split_ifs at h with h4 h16
  · cases h; exact h4
  · cases h; simp [h16.1]

/-- `PutUint16` writes back the two bytes `Uint16` read. -/
lemma putUint16_uint16 (b0 b1 : UInt8) : putUint16 (uint16 [b0, b1]) = [b0, b1] := by
  have h0 : b0.toNat < 2 ^ 8 := b0.toNat_lt_size
  have h1 : b1.toNat < 2 ^ 8 := b1.toNat_lt_size
  have hx : (uint16 [b0, b1]).toNat = 2 ^ 8 * b0.toNat + b1.toNat := by
    simp only [uint16, UInt16.toNat_lor, UInt16.toNat_shl8, UInt8.toNat_toUInt16]
    rw [show b0.toNat * 2 ^ 8 % 2 ^ 16 = 2 ^ 8 * b0.toNat by omega, or_eq_add _ h1]
  simp only [putUint16, List.cons.injEq, and_true]
  constructor <;> apply UInt8.toNat.inj <;>
    simp only [UInt16.toNat_toUInt8, UInt16.toNat_shr8, hx] <;> omega

/-- After a first six bytes, peer `i + 1` is peer `i` of the rest. -/
lemma compactPeerAt_append_succ {a : Bytes} (ha : a.length = 6) (rest : Bytes) (i : Nat) :
    compactPeerAt (a ++ rest) (i + 1) = compactPeerAt rest i := by
  simp (disch := omega) only [compactPeerAt, List.drop_append_eq_append_drop, ha,
    List.drop_eq_nil_of_le, List.nil_append]
  rw [show (i + 1) * 6 - 6 = i * 6 by omega, show (i + 1) * 6 + 4 - 6 = i * 6 + 4 by omega]

/-- A compact string is its first six bytes' peer, then the peers of the rest. -/
lemma parseCompactPeers_append {a rest : Bytes} (ha : a.length = 6) (hr : rest.length % 6 = 0) :
    parseCompactPeers (a ++ rest) = ⟨a.take 4, uint16 (a.drop 4), []⟩ :: parseCompactPeers rest := by
  have hlen : (a ++ rest).length / 6 = rest.length / 6 + 1 := by
    simp only [List.length_append, ha]; omega
  have hsucc : compactPeerAt (a ++ rest) ∘ Nat.succ = compactPeerAt rest :=
    funext (compactPeerAt_append_succ ha rest)
  unfold parseCompactPeers
  rw [if_neg (by simp only [List.length_append, ha]; omega), if_neg (by omega), hlen, List.range_succ_eq_map, List.map_cons,
    List.map_map, hsucc]
  simp only [compactPeerAt, Nat.zero_mul, List.drop_zero, Nat.zero_add]
  rw [List.take_append_of_le_length (by omega), List.drop_append_of_le_length (by omega),
    List.take_left' (by simp [ha])]

lemma putUint16_uint16_of_length {x : Bytes} (h : x.length = 2) : putUint16 (uint16 x) = x := by
  obtain ⟨b0, b1, rfl⟩ := List.length_eq_two.mp h
  exact putUint16_uint16 b0 b1

/-- The bytes `CompactPeersToBytes` writes for one peer. -/
lemma compactPeersToBytes_cons (peer : Peer) (peers : List Peer) :
    compactPeersToBytes (peer :: peers) =
      (match to4 peer.ip with
        | none => []
        | some ip => ip ++ putUint16 peer.port) ++ compactPeersToBytes peers :=
  List.flatMap_cons _ _ _

lemma compactPeersToBytes_length (peers : List Peer) : (compactPeersToBytes peers).length % 6 = 0 := by
  induction peers with
  | nil => rfl
  | cons peer peers ih =>
    rw [compactPeersToBytes_cons]
    cases h : to4 peer.ip with
    | none => simpa using ih
    | some ip => simp only [List.length_append, to4_length h, putUint16_length]; omega

/-! ## The round trips -/

/-- Parsing what `CompactPeersToBytes` wrote gives, in order, the `To4` address and the port of
every peer that has an IPv4 address. -/
theorem parseCompactPeers_compactPeersToBytes (peers : List Peer) :
    (parseCompactPeers (compactPeersToBytes peers)).map (fun q => (to4 q.ip, q.port)) =
      (peers.filter fun p => (to4 p.ip).isSome).map fun p => (to4 p.ip, p.port) := by
  induction peers with
  | nil => rfl
  | cons peer peers ih =>
    rw [compactPeersToBytes_cons]
    cases h : to4 peer.ip with
    | none => simpa [h] using ih
    | some ip =>
      have hip := to4_length h
      rw [parseCompactPeers_append (by simp [hip]) (compactPeersToBytes_length peers),
        List.take_left' hip, List.drop_left' hip, uint16_putUint16]
      simp [h, ih, to4_of_length hip]

/-- Writing what `parseCompactPeers` read gives back a compact string of `n` peers. -/
lemma compactPeersToBytes_parseCompactPeers :
    ∀ (n : Nat) (b : Bytes), b.length = 6 * n → compactPeersToBytes (parseCompactPeers b) = b
  | 0, b, h => by rw [List.length_eq_zero.mp (show b.length = 0 by omega)]; rfl
  | n + 1, b, h => by
    have h6 : (b.take 6).length = 6 := by simp; omega
    have hd : (b.drop 6).length = 6 * n := by simp; omega
    conv_lhs => rw [← List.take_append_drop 6 b]
    rw [parseCompactPeers_append h6 (by omega), compactPeersToBytes_cons,
      to4_of_length (by simp [h6]), putUint16_uint16_of_length (by simp [h6]),
      compactPeersToBytes_parseCompactPeers n _ hd]
    dsimp only
    rw [List.take_append_drop, List.take_append_drop]

/-- **The compact format round-trips.**  For every list of peers with IPv4 addresses,
`parseCompactPeers(CompactPeersToBytes(peers))` has the same addresses (as `To4` gives them) and
ports in the same order; and for every byte string whose length is a multiple of six,
`CompactPeersToBytes(parseCompactPeers(b)) = b`. -/
theorem compact_round_trip :
    (∀ peers : List Peer, (∀ p ∈ peers, (to4 p.ip).isSome) →
      (parseCompactPeers (compactPeersToBytes peers)).map (fun q => (to4 q.ip, q.port)) =
        peers.map fun p => (to4 p.ip, p.port)) ∧
    (∀ b : Bytes, b.length % 6 = 0 → compactPeersToBytes (parseCompactPeers b) = b) :=
  ⟨fun peers h => by rw [parseCompactPeers_compactPeersToBytes, List.filter_eq_self.mpr h],
    fun b hb => compactPeersToBytes_parseCompactPeers (b.length / 6) b (by omega)⟩

/-! ## The client's peer ID -/

/-- `byte(x)` of an `int64`: its low eight bits. -/
def goByte (x : Int) : UInt8 := (x % 256).toNat.toUInt8

/-- `GeneratePeerID`, given `time.Now().UnixNano()`: the Azureus-style prefix `-SB0100-`, then
byte `i`, for `i` from 8 to 19, is `byte(timestamp >> (8 * (i - 8)))` (an arithmetic shift). -/
def generatePeerID (timestamp : Int) : Bytes :=
  bytesOf "-SB0100-" ++ (List.range 12).map fun k : Nat => goByte (timestamp >>> (8 * k))

example : generatePeerID 0x0102 = bytesOf "-SB0100-" ++ [2, 1, 0, 0, 0, 0, 0, 0, 0, 0, 0, 0] := by
  decide

/-- The little-endian value of a byte string, least significant byte first. -/
def leValue : Bytes → Int
  | [] => 0
  | b :: bs => b.toNat + 256 * leValue bs

lemma goByte_toNat (x : Int) : ((goByte x).toNat : Int) = x % 256 := by
  have h₁ : 0 ≤ x % 256 := Int.emod_nonneg x (by decide)
  have h₂ : x % 256 < 256 := Int.emod_lt_of_pos x (by decide)
  show (((x % 256).toNat % 256 : Nat) : Int) = x % 256
  omega

lemma emod_pow_eight_mul (t m : Int) (hm : 0 < m) :
    t % (((2 ^ 8 : Nat) : Int) * m) = t % 256 + 256 * (t / ((2 ^ 8 : Nat) : Int) % m) := by
  show t % (256 * m) = t % 256 + 256 * (t / 256 % m)
  refine ((Int.ediv_emod_unique (q := t / 256 / m) (by omega)).2 ⟨?_, ?_, ?_⟩).2
  · have h₁ := Int.emod_add_ediv t 256
    have h₂ := Int.emod_add_ediv (t / 256) m
    rw [Int.mul_assoc]
    omega
  · have := Int.emod_nonneg t (b := 256) (by decide)
    have := Int.emod_nonneg (t / 256) (b := m) (by omega)
    omega
  · have := Int.emod_lt_of_pos t (b := 256) (by decide)
    have := Int.emod_lt_of_pos (t / 256) hm
    omega

/-- The bytes `byte(t >> (8 * k))`, `k < n`, spell `t` modulo `2 ^ (8 * n)`, least significant
first. -/
lemma leValue_shifts (n : Nat) (t : Int) :
    leValue ((List.range n).map fun k : Nat => goByte (t >>> (8 * k))) =
      t % ((2 ^ (8 * n) : Nat) : Int) := by
  induction n generalizing t with
  | zero => simp [leValue, Int.emod_one]
  | succ n ih =>
    have hs : ∀ k : Nat, t >>> (8 * (k + 1)) = (t >>> (8 : Nat)) >>> (8 * k) := fun k => by
      rw [← Int.shiftRight_add]; congr 1; omega
    simp only [List.range_succ_eq_map, List.map_cons, List.map_map, Function.comp_def,
      Nat.succ_eq_add_one, hs, leValue, ih, goByte_toNat]
    rw [Int.shiftRight_eq_div_pow, Int.shiftRight_eq_div_pow, Nat.mul_succ, Nat.pow_add,
      Nat.mul_comm (2 ^ (8 * n)), Int.natCast_mul,
      emod_pow_eight_mul _ _ (Int.natCast_pos.2 (Nat.two_pow_pos _))]
    simp

/-- Past the sign-extended width, `t >> n` of an `int64` is `0` or `-1`, so its byte is `0` or
`0xff`. -/
lemma goByte_shiftRight_of_le {t : Int}
    (ht : -9223372036854775808 ≤ t ∧ t < 9223372036854775808) {k : Nat} (hk : 8 ≤ k) :
    goByte (t >>> (8 * k)) = if 0 ≤ t then 0 else 255 := by
  have hd : 2 ^ 64 ≤ 2 ^ (8 * k) := Nat.pow_le_pow_right (by decide) (by omega)
  rw [Int.shiftRight_eq_div_pow]
  split
  · rw [Int.ediv_eq_zero_of_lt ‹_› (by omega)]; rfl
  · rw [((Int.ediv_emod_unique (r := t + (2 ^ (8 * k) : Nat)) (q := -1) (by omega)).2
      ⟨by omega, by omega, by omega⟩).1]; rfl

lemma leValue_drop_generatePeerID (t : Int) :
    leValue ((generatePeerID t).drop 8) = t % ((2 ^ 96 : Nat) : Int) :=
  leValue_shifts 12 t

/-- **The peer ID is the clock.**  For every `int64` timestamp (`-2 ^ 63 ≤ t < 2 ^ 63`) the
twelve bytes after the prefix are the timestamp's own bytes, least significant first: the last
four are always `0` (`0xff` before 1970), and two IDs are equal exactly when they were made in
the same nanosecond. -/
theorem generatePeerID_clock {t t' : Int}
    (ht : -9223372036854775808 ≤ t ∧ t < 9223372036854775808)
    (ht' : -9223372036854775808 ≤ t' ∧ t' < 9223372036854775808) :
    (generatePeerID t).drop 16 = List.replicate 4 (if 0 ≤ t then 0 else 255) ∧
      (generatePeerID t = generatePeerID t' ↔ t = t') := by
  constructor
  · have h : (generatePeerID t).drop 16 =
        [8, 9, 10, 11].map fun k : Nat => goByte (t >>> (8 * k)) := rfl
    rw [h, List.map_congr_left fun k hk =>
      goByte_shiftRight_of_le ht (k := k) (by simp at hk; omega)]
    rfl
  · refine ⟨fun h => ?_, congrArg generatePeerID⟩
    have h96 := leValue_drop_generatePeerID t
    rw [h, leValue_drop_generatePeerID t'] at h96
    simp only [Nat.reducePow, Nat.cast_ofNat] at h96
    omega

theorem generatePeerID_clock_sample :
    ((-9223372036854775808 ≤ (1700000000000000000 : Int) ∧
        (1700000000000000000 : Int) < 9223372036854775808) ∧
      (-9223372036854775808 ≤ (1700000000000000001 : Int) ∧
        (1700000000000000001 : Int) < 9223372036854775808)) ∧
    (generatePeerID 1700000000000000000).drop 16 =
        List.replicate 4 (if 0 ≤ (1700000000000000000 : Int) then 0 else 255) ∧
      (generatePeerID 1700000000000000000 = generatePeerID 1700000000000000001 ↔
        (1700000000000000000 : Int) = 1700000000000000001) :=
  ⟨⟨by decide, by decide⟩, generatePeerID_clock (by decide) (by decide)⟩

end Tracker

end BitTorrent
