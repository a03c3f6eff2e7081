import BitTorrentClient.Bencode.Decode

/-!
# The handshake

`peer/handshake.go`: the 68-byte message two peers exchange before anything else.  Byte 0 is
the length of the protocol string, bytes 1 to 19 the string, then eight reserved bytes, the
info hash and the peer ID.

There are two decoders.  `Read` takes a handshake off a reader: a length byte, then that many
bytes and 48 more, and it rejects any protocol string but `"BitTorrent protocol"`.
`UnmarshalBinary` takes a 68-byte slice whose first byte is 19 and checks nothing else.  Both cut
the fields out of their buffer the same way, `extract` here.

* `read_eq_ok_iff` — `Read` returns `h` and leaves `r'` exactly when the input is `h` serialized,
  followed by `r'`, and `h` carries the protocol string;
* `read_ok_iff` — `Read` succeeds exactly on the inputs of at least 68 bytes that start with the
  byte 19 and the protocol string;
* `unmarshalBinary_eq_ok_iff` — `UnmarshalBinary` returns `h` exactly when the input is `h`
  serialized and `h`'s protocol string has 19 bytes, whatever they are;
* `handshake_codecs` assembles these for 68-byte inputs, and `invalidProtocolData`, the input of
  `TestHandshakeInvalidProtocol`, is one that `Read` rejects and `UnmarshalBinary` accepts;
* `doHandshake_ok_iff` — `DoHandshake` accepts the peer's handshake exactly when it carries our
  info hash and the protocol string; the peer ID is taken as sent.  `handshake_exchange`: two
  peers of one torrent accept each other;
* `parseExtensions_setExtensions` — the reserved bits `SetExtensions` writes read back.
-/

namespace BitTorrent

/-- `ProtocolIdentifier`. -/
def protocolIdentifier : Bytes := bytesOf "BitTorrent protocol"

/-- `HandshakeLength`. -/
def handshakeLength : Nat := 68

@[simp] lemma protocolIdentifier_length : protocolIdentifier.length = 19 := by decide

/-- `copy(dst[:], src)` into a zeroed `[n]byte`: the first `n` bytes of `src`, then zeros. -/
def copyArray (n : Nat) (src : Bytes) : Bytes := src.take n ++ List.replicate (n - src.length) 0

@[simp] lemma copyArray_length (n : Nat) (src : Bytes) : (copyArray n src).length = n := by
  simp only [copyArray, List.length_append, List.length_take, List.length_replicate]
  omega

lemma copyArray_of_length {n : Nat} {src : Bytes} (h : src.length = n) : copyArray n src = src := by
  simp [copyArray, h]

/-- `Handshake`.  The arrays `[8]byte` and `[20]byte` are byte strings that carry their length. -/
structure Handshake where
  pstr : Bytes
  reserved : Bytes
  infoHash : Bytes
  peerID : Bytes
  reserved_length : reserved.length = 8
  infoHash_length : infoHash.length = 20
  peerID_length : peerID.length = 20
  deriving DecidableEq, Repr

attribute [simp] Handshake.reserved_length Handshake.infoHash_length Handshake.peerID_length

/-- `NewHandshake`: the protocol string and zero reserved bytes. -/
def newHandshake (infoHash peerID : Bytes) (hi : infoHash.length = 20) (hp : peerID.length = 20) :
    Handshake :=
  ⟨protocolIdentifier, List.replicate 8 0, infoHash, peerID, rfl, hi, hp⟩

namespace Handshake

/-- `Handshake.Serialize` (and `MarshalBinary`): `make([]byte, 68)`, the length byte
`byte(len(h.Pstr))`, and `copy` of the protocol string into `buf[1:20]`, which truncates a longer
string and leaves zeros after a shorter one. -/
def serialize (h : Handshake) : Bytes :=
  h.pstr.length.toUInt8 :: copyArray 19 h.pstr ++ h.reserved ++ h.infoHash ++ h.peerID

@[simp] lemma serialize_length (h : Handshake) : h.serialize.length = handshakeLength := by
  simp [serialize, handshakeLength]

/-- The fields as `Read` and `UnmarshalBinary` cut them out of a buffer that starts with a
protocol string of `pstrlen` bytes: `buf[:pstrlen]`, then `copy` of `buf[pstrlen:pstrlen+8]`,
`buf[pstrlen+8:pstrlen+28]` and `buf[pstrlen+28:pstrlen+48]` into the zeroed arrays. -/
def extract (buf : Bytes) (pstrlen : Nat) : Handshake where
  pstr := buf.take pstrlen
  reserved := copyArray 8 ((buf.drop pstrlen).take 8)
  infoHash := copyArray 20 ((buf.drop (pstrlen + 8)).take 20)
  peerID := copyArray 20 ((buf.drop (pstrlen + 28)).take 20)
  reserved_length := copyArray_length _ _
  infoHash_length := copyArray_length _ _
  peerID_length := copyArray_length _ _

/-- `Read` on a reader that still holds `r`: the handshake and what is left. -/
def read (r : Bytes) : Except String (Handshake × Bytes) := do
  let (lengthBuf, r) ← (readFull r 1).mapError fun e => "failed to read protocol string length: " ++ e
  let pstrlen := (lengthBuf.headD 0).toNat
  if pstrlen = 0 then throw "invalid protocol string length: 0"
  let (handshakeBuf, r) ← (readFull r (pstrlen + 48)).mapError fun e => "failed to read handshake: " ++ e
  let h := extract handshakeBuf pstrlen
  if h.pstr ≠ protocolIdentifier then throw ("invalid protocol identifier: " ++ h.pstr.toGoString)
  return (h, r)

/-- `Handshake.UnmarshalBinary`.  On success every field of the receiver is overwritten (each
slice copied has its array's length), so the result does not depend on the receiver; on an
error the receiver is left as it was. -/
def unmarshalBinary (data : Bytes) : Except String Handshake :=
  if data.length ≠ handshakeLength then .error s!"invalid handshake length: {data.length}"
  else
    let pstrlen := (data.headD 0).toNat
    if pstrlen + 49 ≠ handshakeLength then .error s!"invalid protocol string length: {pstrlen}"
    else .ok (extract (data.drop 1) pstrlen)

/-! ## Cutting the fields out -/

/-- Cutting a serialized handshake's fields out after its length byte gives the handshake back,
when its protocol string has the 19 bytes `Serialize` writes. -/
lemma extract_serialize (h : Handshake) (hp : h.pstr.length = 19) :
    extract h.serialize.tail 19 = h := by
  obtain ⟨pstr, res, ih, pid, hr, hi, hd⟩ := h
  simp only at hp
  simp only [serialize, extract, List.tail_cons, copyArray_of_length hp, List.append_assoc,
    mk.injEq]
  refine ⟨?_, ?_, ?_, ?_⟩ <;>
    simp (disch := omega) [List.take_append_eq_append_take, List.drop_append_eq_append_drop, hp,
      hr, hi, hd, copyArray_of_length, List.drop_eq_nil_of_le, List.take_of_length_le]

/-- `l[n:n+m] ++ l[n+m:] = l[n:]`. -/
lemma take_drop_append_drop (l : Bytes) {m n k : Nat} (h : n + m = k) :
    (l.drop n).take m ++ l.drop k = l.drop n := by
  rw [← h, ← List.drop_drop, List.take_append_drop]

/-- A 67-byte buffer is the serialization, after its length byte, of the handshake cut out of it
with a protocol string of 19 bytes. -/
lemma serialize_extract {buf : Bytes} (hb : buf.length = 67) :
    (extract buf 19).serialize = 19 :: buf := by
  simp (disch := simp [hb]) only [serialize, extract, copyArray_of_length, List.length_take, hb,
    List.append_assoc, List.cons_append]
  rw [List.take_of_length_le (show (buf.drop 47).length ≤ 20 by simp [hb]),
    take_drop_append_drop buf rfl, take_drop_append_drop buf rfl, List.take_append_drop]
  rfl

/-- A handshake whose protocol string has 19 bytes serializes to the byte 19, then the rest. -/
lemma serialize_eq_cons {h : Handshake} (h19 : h.pstr.length = 19) :
    h.serialize = 19 :: h.serialize.tail := by
  simp [serialize, h19]
  rfl

@[simp] lemma serialize_tail_length (h : Handshake) : h.serialize.tail.length = 67 := by
  simp [serialize]

/-! ## `Read` -/

/-- What `Read` makes of an input with a non-zero length byte `x` and 48 more bytes after the
protocol string. -/
lemma read_cons {x : UInt8} {t : Bytes} (h0 : x.toNat ≠ 0) (hlen : x.toNat + 48 ≤ t.length) :
    read (x :: t) =
      let h := extract (t.take (x.toNat + 48)) x.toNat
      if h.pstr = protocolIdentifier then .ok (h, t.drop (x.toNat + 48))
      else .error ("invalid protocol identifier: " ++ h.pstr.toGoString) := by
  simp [read, readFull, bind, Except.bind, Except.mapError, pure, Except.pure, h0, hlen]

/-- **`Read` inverts `Serialize`.**  `Read` returns `h` and leaves `r'` exactly when the input is
`h` serialized, followed by `r'`, and `h` carries the protocol string. -/
theorem read_eq_ok_iff {r r' : Bytes} {h : Handshake} :
    read r = .ok (h, r') ↔ h.pstr = protocolIdentifier ∧ r = h.serialize ++ r' := by
  constructor
  · intro hr
    match r, hr with
    | [], hr => simp [read, readFull, bind, Except.bind, Except.mapError] at hr
    | x :: t, hr =>
      by_cases h0 : x.toNat = 0
      · simp [read, readFull, bind, Except.bind, Except.mapError, h0] at hr
      by_cases hlen : x.toNat + 48 ≤ t.length
      · rw [read_cons h0 hlen] at hr
        simp only at hr
        split_ifs at hr with hp
        obtain ⟨rfl, rfl⟩ := Prod.mk.inj (Except.ok.inj hr)
        have hx : x.toNat = 19 := by
          have := congrArg List.length hp
          simp only [extract, List.take_take, List.length_take, protocolIdentifier_length] at this
          omega
        obtain rfl : x = 19 := UInt8.toNat.inj hx
        refine ⟨hp, ?_⟩
        rw [show (19 : UInt8).toNat = 19 from rfl, serialize_extract (by simp [UInt8.size] at hlen ⊢; omega),
          List.cons_append, List.take_append_drop]
      · simp [read, readFull, bind, Except.bind, Except.mapError, pure, Except.pure, h0, hlen] at hr
        split_ifs at hr
  · rintro ⟨hp, rfl⟩
    have h19 : h.pstr.length = 19 := by simp [hp]
    rw [serialize_eq_cons h19, List.cons_append, read_cons (by decide) (by simp [handshakeLength, UInt8.size])]
    simp only [show (19 : UInt8).toNat + 48 = 67 from rfl, show (19 : UInt8).toNat = 19 from rfl,
      List.take_left' (serialize_tail_length h), List.drop_left' (serialize_tail_length h),
      extract_serialize h h19, hp, if_true]

/-- `Read` succeeds exactly on the inputs that hold at least 68 bytes and start with the byte 19
and the protocol string. -/
theorem read_ok_iff (r : Bytes) :
    (∃ h r', read r = .ok (h, r')) ↔ 68 ≤ r.length ∧ r.take 20 = 19 :: protocolIdentifier := by
  constructor
  · rintro ⟨h, r', hr⟩
    obtain ⟨hp, rfl⟩ := read_eq_ok_iff.mp hr
    have h19 : h.pstr.length = 19 := by simp [hp]
    refine ⟨by simp [handshakeLength], ?_⟩
    rw [serialize_eq_cons h19, List.cons_append, List.take_succ_cons]
    simp [serialize, copyArray_of_length h19, hp, List.take_append_eq_append_take,
      copyArray_of_length protocolIdentifier_length]
  · match r with
    | [] => simp
    | x :: t =>
      rintro ⟨hl, ht⟩
      simp only [List.take_succ_cons, List.cons.injEq] at ht
      obtain ⟨rfl, ht⟩ := ht
      have hlen : (19 : UInt8).toNat + 48 ≤ t.length := by simp [UInt8.size] at hl ⊢; omega
      refine ⟨_, _, (read_cons (by decide) hlen).trans (if_pos ?_)⟩
      simp [extract, ht, List.take_take, UInt8.size]

/-! ## `UnmarshalBinary` -/

/-- `UnmarshalBinary` returns `h` exactly when the input is `h` serialized and `h`'s protocol
string has 19 bytes, whatever they are. -/
theorem unmarshalBinary_eq_ok_iff {data : Bytes} {h : Handshake} :
    unmarshalBinary data = .ok h ↔ h.pstr.length = 19 ∧ data = h.serialize := by
  constructor
  · intro hd
    simp only [unmarshalBinary, ne_eq] at hd
    split_ifs at hd with hl hx
    obtain rfl := Except.ok.inj hd
    match data, hl, hx with
    | x :: t, hl, hx =>
      obtain rfl : x = 19 := UInt8.toNat.inj (show x.toNat = 19 by simp [handshakeLength] at hx; omega)
      simp [handshakeLength] at hl
      exact ⟨by simp [extract, hl, UInt8.size], (serialize_extract hl).symm⟩
  · rintro ⟨h19, rfl⟩
    rw [unmarshalBinary, if_neg (by simp), serialize_eq_cons h19]
    simp only [List.headD_cons, List.drop_one, List.tail_cons]
    rw [if_neg (by decide)]
    show Except.ok (extract h.serialize.tail 19) = _
    rw [extract_serialize h h19]

/-! ## The two decoders -/

/-- The input of `TestHandshakeInvalidProtocol`: the length byte 19, the string
`"Invalid protocol   "` and 48 zero bytes. -/
def invalidProtocolData : Bytes := 19 :: bytesOf "Invalid protocol   " ++ List.replicate 48 0

theorem unmarshalBinary_accepts_wrong_protocol :
    read invalidProtocolData = .error "invalid protocol identifier: Invalid protocol   " ∧
      unmarshalBinary invalidProtocolData = .ok (extract (invalidProtocolData.drop 1) 19) ∧
      (extract (invalidProtocolData.drop 1) 19).pstr ≠ protocolIdentifier :=
  ⟨rfl, rfl, by decide⟩

/-- **The handshake codecs.**  On a 68-byte input `Read` succeeds exactly when the input starts
with the byte 19 and the protocol string, and then `Serialize` gives the input back; `Read`
returns every handshake with the protocol string that was serialized, whatever follows it.
`UnmarshalBinary` returns `h` exactly on `h` serialized, for every `h` whose protocol string has
19 bytes, which is more than `Read` accepts. -/
theorem handshake_codecs :
    (∀ b : Bytes, b.length = 68 →
      ((∃ h, read b = .ok (h, [])) ↔ b.take 20 = 19 :: protocolIdentifier)) ∧
    (∀ b h, read b = .ok (h, []) → h.serialize = b) ∧
    (∀ h rest, h.pstr = protocolIdentifier → read (h.serialize ++ rest) = .ok (h, rest)) ∧
    (∀ b h, unmarshalBinary b = .ok h ↔ h.pstr.length = 19 ∧ b = h.serialize) := by
  refine ⟨fun b hb => ⟨fun ⟨h, hr⟩ => ((read_ok_iff b).mp ⟨h, [], hr⟩).2, fun ht => ?_⟩,
    fun b h hr => by simpa using (read_eq_ok_iff.mp hr).2.symm,
    fun h rest hp => read_eq_ok_iff.mpr ⟨hp, rfl⟩, fun _ _ => unmarshalBinary_eq_ok_iff⟩
  obtain ⟨h, r', hr⟩ := (read_ok_iff b).mpr ⟨by omega, ht⟩
  obtain ⟨-, rfl⟩ := read_eq_ok_iff.mp hr
  obtain rfl : r' = [] := by simpa [handshakeLength] using hb
  exact ⟨h, hr⟩

/-! ## Extensions -/

/-- `Extensions`. -/
structure Extensions where
  dht : Bool
  fastPeers : Bool
  extProtocol : Bool
  deriving DecidableEq, Repr

/-- `Handshake.ParseExtensions`: bits 0 and 2 of `Reserved[7]`, bit 4 of `Reserved[5]`. -/
def parseExtensions (h : Handshake) : Extensions where
  dht := h.reserved.getD 7 0 &&& 0x01 != 0
  fastPeers := h.reserved.getD 7 0 &&& 0x04 != 0
  extProtocol := h.reserved.getD 5 0 &&& 0x10 != 0

/-- `r[i] |= m` when `c` holds. -/
def orIf (c : Bool) (r : Bytes) (i : Nat) (m : UInt8) : Bytes :=
  if c then r.set i (r.getD i 0 ||| m) else r

@[simp] lemma orIf_length (c : Bool) (r : Bytes) (i : Nat) (m : UInt8) :
    (orIf c r i m).length = r.length := by
  cases c <;> simp [orIf]

/-- `Handshake.SetExtensions`: clear the reserved bytes, then set the bit of each extension. -/
def setExtensions (h : Handshake) (ext : Extensions) : Handshake :=
  { h with
    reserved :=
      orIf ext.extProtocol (orIf ext.fastPeers (orIf ext.dht (List.replicate 8 0) 7 0x01) 7 0x04)
        5 0x10
    reserved_length := by simp }

/-- `ParseExtensions` reads back what `SetExtensions` wrote. -/
theorem parseExtensions_setExtensions (h : Handshake) (ext : Extensions) :
    (h.setExtensions ext).parseExtensions = ext := by
  obtain ⟨a, b, c⟩ := ext
  cases a <;> cases b <;> cases c <;> simp only [setExtensions, parseExtensions] <;> decide

end Handshake

/-- `%x` of a byte array. -/
def hexString (b : Bytes) : String := String.join (b.map Bencode.hexByte)

/-- `DoHandshake` on a connection whose peer sends `incoming`: the bytes we write (`Write` of
`NewHandshake`), and the peer's handshake with what is left to read, or the error.  A write does
not fail in the model. -/
def doHandshake (infoHash peerID : Bytes) (hi : infoHash.length = 20) (hp : peerID.length = 20)
    (incoming : Bytes) : Bytes × Except String (Handshake × Bytes) :=
  ((newHandshake infoHash peerID hi hp).serialize, do
    let (peerHandshake, r) ← (Handshake.read incoming).mapError
      fun e => "failed to read peer handshake: " ++ e
    if peerHandshake.infoHash ≠ infoHash then
      throw ("info hash mismatch: expected " ++ hexString infoHash ++ ", got " ++
        hexString peerHandshake.infoHash)
    return (peerHandshake, r))

/-- `DoHandshake` accepts the peer's handshake exactly when it carries our info hash and the
protocol string, and it leaves what followed the handshake; the peer ID is taken as sent. -/
theorem doHandshake_ok_iff {infoHash peerID incoming r : Bytes} {hi : infoHash.length = 20}
    {hp : peerID.length = 20} {h : Handshake} :
    (doHandshake infoHash peerID hi hp incoming).2 = .ok (h, r) ↔
      h.infoHash = infoHash ∧ h.pstr = protocolIdentifier ∧ incoming = h.serialize ++ r := by
  rw [← Handshake.read_eq_ok_iff]
  simp only [doHandshake]
  cases Handshake.read incoming with
  | error e => simp [Except.mapError, bind, Except.bind]
  | ok p =>
    obtain ⟨h', r'⟩ := p
    simp only [Except.mapError, bind, Except.bind, pure, Except.pure, ne_eq, ite_not]
    constructor
    · intro H
      split_ifs at H with hh
      cases H
      exact ⟨hh, rfl⟩
    · rintro ⟨hh, H⟩
      cases H
      rw [if_pos hh]

/-- **Two peers of one torrent.**  Each side of an exchange accepts the handshake the other
writes, whatever follows it on the connection, and records the other's peer ID; and it accepts
no handshake with another protocol string or info hash. -/
theorem handshake_exchange (infoHash idA idB incoming rest : Bytes) (hi : infoHash.length = 20)
    (hA : idA.length = 20) (hB : idB.length = 20) :
    (doHandshake infoHash idA hi hA ((doHandshake infoHash idB hi hB incoming).1 ++ rest)).2 =
        .ok (newHandshake infoHash idB hi hB, rest) ∧
      ∀ incoming' h r, (doHandshake infoHash idA hi hA incoming').2 = .ok (h, r) →
        h.pstr = protocolIdentifier ∧ h.infoHash = infoHash :=
  ⟨doHandshake_ok_iff.mpr ⟨rfl, rfl, rfl⟩, fun _ _ _ hd =>
    ⟨(doHandshake_ok_iff.mp hd).2.1, (doHandshake_ok_iff.mp hd).1⟩⟩

theorem handshake_exchange_sample :
    (List.replicate 20 (7 : UInt8)).length = 20 ∧ (List.replicate 20 (1 : UInt8)).length = 20 ∧
      (List.replicate 20 (2 : UInt8)).length = 20 ∧
      (doHandshake (List.replicate 20 7) (List.replicate 20 1) rfl rfl
          ((doHandshake (List.replicate 20 7) (List.replicate 20 2) rfl rfl []).1 ++ [])).2 =
        .ok (newHandshake (List.replicate 20 7) (List.replicate 20 2) rfl rfl, []) ∧
      ∀ incoming' h r,
        (doHandshake (List.replicate 20 7) (List.replicate 20 1) rfl rfl incoming').2 = .ok (h, r) →
          h.pstr = protocolIdentifier ∧ h.infoHash = List.replicate 20 7 :=
  ⟨rfl, rfl, rfl, handshake_exchange (List.replicate 20 7) (List.replicate 20 1)
    (List.replicate 20 2) [] [] rfl rfl rfl⟩

end BitTorrent
