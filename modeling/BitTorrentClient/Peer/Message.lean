import BitTorrentClient.Basic

/-!
# Wire messages

`peer/messages.go`: the frame every peer message travels in on the connection, the constructors
of the messages with arguments, and their parsers.

A frame is a four-byte big-endian length followed by that many bytes: the message ID and the
payload.  A keep-alive (Go's `nil` message, `none` here) is the frame of length zero.
`Serialize` writes a frame, `ReadMessage` reads one off a reader, which the model takes as the
bytes still to come on the connection.

* `serialize_of_fits` — a message whose payload fits the frame limit serializes without the
  length prefix wrapping around;
* `readMessage_serialize` — reading from a frame followed by anything returns the message and
  leaves exactly what followed;
* **`wire_round_trip`** — reading `j` times from `k` concatenated frames returns the first `j`
  messages and leaves the remaining frames untouched, and every parser returns the arguments of
  its constructor;
* `isValid_parse` — `IsValid` accepts a message exactly when its ID's parser does, except for an
  empty BITFIELD payload, which `ParseBitfield` accepts and `IsValid` rejects.

The four parsers of a fixed-size payload share one body, `parseFixed`; `ParseBitfield` and
`ParsePiece`, which check something else, keep their own.
-/

namespace BitTorrent

/-! ## Messages and frames -/

/-- Message IDs. -/
def msgChoke : UInt8 := 0
def msgUnchoke : UInt8 := 1
def msgInterested : UInt8 := 2
def msgNotInterested : UInt8 := 3
def msgHave : UInt8 := 4
def msgBitfield : UInt8 := 5
def msgRequest : UInt8 := 6
def msgPiece : UInt8 := 7
def msgCancel : UInt8 := 8
def msgPort : UInt8 := 9

/-- `MaxMessageLength`: the largest frame length `ReadMessage` accepts (128 KiB). -/
def maxMessageLength : Nat := 131072

/-- A peer wire message (Go's non-nil `*Message`). -/
structure Message where
  id : UInt8
  payload : Bytes
  deriving DecidableEq, Repr

namespace Message

/-- `Message.Serialize`.  The length is `uint32(1 + len(Payload))`, which wraps for payloads of
`2^32 - 1` bytes or more; the buffer is `make([]byte, 4+length)`, where the sum wraps again, so
such a payload makes `buf[0:4]` or `buf[4]` panic, and otherwise `copy` fills the buffer with
the first `length - 1` payload bytes. -/
def serialize : Option Message → Outcome Bytes
  | none => .ok [0, 0, 0, 0]
  | some m =>
    let length : UInt32 := (1 + m.payload.length).toUInt32
    let size := (4 + length).toNat
    if size < 4 then .panic s!"runtime error: slice bounds out of range [:4] with capacity {size}"
    else if size = 4 then .panic "runtime error: index out of range [4] with length 4"
    else .ok (putUint32 length ++ m.id :: m.payload.take (size - 5))

/-- `ReadMessage`: the message (`none` for a keep-alive) and what is left on the reader.  The
frame length is at least one past the keep-alive check, so `messageBuf[0]` exists. -/
def readMessage (r : Bytes) : Except String (Option Message × Bytes) := do
  let (lengthBuf, r) ← (readFull r 4).mapError fun e => "failed to read message length: " ++ e
  let length := uint32 lengthBuf
  if length = 0 then return (none, r)
  if length.toNat > maxMessageLength then throw s!"message too large: {length} bytes"
  let (messageBuf, r) ← (readFull r length.toNat).mapError fun e => "failed to read message: " ++ e
  return (some ⟨messageBuf.headD 0, messageBuf.drop 1⟩, r)

/-- `k` calls of `ReadMessage` in a row, as a peer's `receiveLoop` makes them. -/
def readMessages : Nat → Bytes → Except String (List (Option Message) × Bytes)
  | 0, r => .ok ([], r)
  | k + 1, r => do
    let (m, r) ← readMessage r
    let (ms, r) ← readMessages k r
    return (m :: ms, r)

/-- A message fits a frame: a keep-alive, or an ID and at most `MaxMessageLength - 1` payload
bytes. -/
def Fits : Option Message → Prop
  | none => True
  | some m => m.payload.length < maxMessageLength

instance : DecidablePred Fits
  | none => inferInstanceAs (Decidable True)
  | some m => inferInstanceAs (Decidable (m.payload.length < maxMessageLength))

/-! ## Constructors and parsers -/

/-- `NewHaveMessage`. -/
def newHaveMessage (index : UInt32) : Message := ⟨msgHave, putUint32 index⟩

/-- `NewBitfieldMessage`. -/
def newBitfieldMessage (bitfield : Bytes) : Message := ⟨msgBitfield, bitfield⟩

/-- `NewRequestMessage`. -/
def newRequestMessage (index begin length : UInt32) : Message :=
  ⟨msgRequest, putUint32 index ++ putUint32 begin ++ putUint32 length⟩

/-- `NewPieceMessage`. -/
def newPieceMessage (index begin : UInt32) (block : Bytes) : Message :=
  ⟨msgPiece, putUint32 index ++ putUint32 begin ++ block⟩

/-- `NewCancelMessage`. -/
def newCancelMessage (index begin length : UInt32) : Message :=
  ⟨msgCancel, putUint32 index ++ putUint32 begin ++ putUint32 length⟩

/-- `NewPortMessage`. -/
def newPortMessage (port : UInt16) : Message := ⟨msgPort, putUint16 port⟩

/-- The body `ParseHave`, `ParseRequest`, `ParseCancel` and `ParsePort` share: the ID check,
the exact payload length, then the big-endian fields. -/
def parseFixed {α : Type} (name : String) (id : UInt8) (size : Nat) (decode : Bytes → α)
    (m : Message) : Except String α :=
  if m.id ≠ id then .error s!"not a {name} message: ID {m.id}"
  else if m.payload.length ≠ size then
    .error s!"invalid {name} payload length: {m.payload.length}"
  else .ok (decode m.payload)

/-- The three fields of a REQUEST or CANCEL payload: `Payload[0:4]`, `[4:8]`, `[8:12]`. -/
def uint32Triple (p : Bytes) : UInt32 × UInt32 × UInt32 :=
  (uint32 p, uint32 (p.drop 4), uint32 (p.drop 8))

/-- `Message.ParseHave`. -/
def parseHave : Message → Except String UInt32 := parseFixed "have" msgHave 4 uint32

/-- `Message.ParseRequest`. -/
def parseRequest : Message → Except String (UInt32 × UInt32 × UInt32) :=
  parseFixed "request" msgRequest 12 uint32Triple

/-- `Message.ParseCancel`. -/
def parseCancel : Message → Except String (UInt32 × UInt32 × UInt32) :=
  parseFixed "cancel" msgCancel 12 uint32Triple

/-- `Message.ParsePort`. -/
def parsePort : Message → Except String UInt16 := parseFixed "port" msgPort 2 uint16

/-- `Message.ParseBitfield`: any payload, returned as a copy. -/
def parseBitfield (m : Message) : Except String Bytes :=
  if m.id ≠ msgBitfield then .error s!"not a bitfield message: ID {m.id}" else .ok m.payload

/-- `Message.ParsePiece`: at least the eight header bytes; the block is the rest. -/
def parsePiece (m : Message) : Except String (UInt32 × UInt32 × Bytes) :=
  if m.id ≠ msgPiece then .error s!"not a piece message: ID {m.id}"
  else if m.payload.length < 8 then .error s!"invalid piece payload length: {m.payload.length}"
  else .ok (uint32 m.payload, uint32 (m.payload.drop 4), m.payload.drop 8)

/-! ## Framing -/

/-- The bytes of a frame that does not wrap. -/
def frame : Option Message → Bytes
  | none => [0, 0, 0, 0]
  | some m => putUint32 (1 + m.payload.length).toUInt32 ++ m.id :: m.payload

lemma serialize_of_fits {m : Option Message} (h : Fits m) : serialize m = .ok (frame m) := by
  cases m with
  | none => rfl
  | some m =>
    have hlt : m.payload.length < maxMessageLength := h
    have hsize : (4 + (1 + m.payload.length).toUInt32).toNat = m.payload.length + 5 := by
      show (4 + (1 + m.payload.length) % 2 ^ 32) % 2 ^ 32 = _
      simp only [maxMessageLength] at hlt
      omega
    simp only [serialize, hsize, frame]
    rw [if_neg (by omega), if_neg (by omega), Nat.add_sub_cancel, List.take_length]

/-- **One frame.**  Reading from a serialized message followed by anything returns the message
and leaves exactly what followed. -/
theorem readMessage_serialize {m : Option Message} {b : Bytes} (hs : serialize m = .ok b)
    (hfit : Fits m) (rest : Bytes) : readMessage (b ++ rest) = .ok (m, rest) := by
  rw [serialize_of_fits hfit] at hs
  cases hs
  cases m with
  | none =>
    have hhead := readFull_append (a := [0, 0, 0, 0]) rest
    simp only [List.length_cons, List.length_nil] at hhead
    simp only [readMessage, frame, hhead, Except.mapError]
    rfl
  | some m =>
    have hlt : m.payload.length < maxMessageLength := hfit
    have hlen : ((1 + m.payload.length).toUInt32).toNat = 1 + m.payload.length :=
      UInt32.toNat_ofNat_of_lt (by simp only [UInt32.size, maxMessageLength] at hlt ⊢; omega)
    have hhead : readFull (putUint32 (1 + m.payload.length).toUInt32 ++ m.id :: (m.payload ++ rest)) 4
        = .ok (putUint32 (1 + m.payload.length).toUInt32, m.id :: (m.payload ++ rest)) :=
      readFull_append _
    have hbody : readFull (m.id :: (m.payload ++ rest)) (1 + m.payload.length)
        = .ok (m.id :: m.payload, rest) := by
      rw [Nat.add_comm]; exact readFull_append (a := m.id :: m.payload) rest
    have hne : (1 + m.payload.length).toUInt32 ≠ 0 := fun h => by
      rw [h] at hlen; simp at hlen; omega
    have hle : ¬ 1 + m.payload.length > maxMessageLength := by omega
    simp only [readMessage, frame, List.append_assoc, List.cons_append, hhead, Except.mapError,
      bind, Except.bind, uint32_putUint32, hne, hlen, hle, if_false, hbody]
    rfl

/-- **Frames in a row.**  After `j` reads from `k` concatenated frames, the first `j` messages
have come out in order and exactly the frames from `j` on are left. -/
theorem readMessages_serialize {ms : List (Option Message)} {bs : List Bytes}
    (hs : List.Forall₂ (fun m b => serialize m = .ok b) ms bs) (hfit : ∀ m ∈ ms, Fits m)
    (rest : Bytes) :
    ∀ j ≤ ms.length, readMessages j (bs.flatten ++ rest) = .ok (ms.take j, (bs.drop j).flatten ++ rest) := by
  induction hs with
  | nil => intro j hj; simp_all [readMessages]
  | @cons m b ms bs hb _ ih =>
    intro j hj
    cases j with
    | zero => rfl
    | succ j =>
      have hrest := ih (fun x hx => hfit x (List.mem_cons_of_mem m hx)) j
        (by simp only [List.length_cons] at hj; omega)
      simp only [readMessages, List.flatten_cons, List.append_assoc,
        readMessage_serialize hb (hfit m (List.mem_cons_self m ms)), bind, Except.bind, hrest]
      rfl

/-! ## Parsers against constructors -/

lemma parseFixed_ok {α : Type} (name : String) (id : UInt8) (payload : Bytes) (decode : Bytes → α) :
    parseFixed name id payload.length decode ⟨id, payload⟩ = .ok (decode payload) := by
  simp [parseFixed]

/-- The first two fields of a REQUEST, PIECE or CANCEL payload read back what was put there. -/
lemma uint32_fields (a b : UInt32) (tail : Bytes) :
    uint32 (putUint32 a ++ putUint32 b ++ tail) = a ∧
      uint32 ((putUint32 a ++ putUint32 b ++ tail).drop 4) = b ∧
      (putUint32 a ++ putUint32 b ++ tail).drop 8 = tail := by
  have h4 : (putUint32 a).length = 4 := rfl
  have h8 : (putUint32 a ++ putUint32 b).length = 8 := rfl
  refine ⟨?_, ?_, List.drop_left' h8⟩
  · rw [List.append_assoc, uint32_append, uint32_putUint32]
  · rw [List.append_assoc, List.drop_left' h4, uint32_append, uint32_putUint32]

lemma uint32Triple_put (a b c : UInt32) :
    uint32Triple (putUint32 a ++ putUint32 b ++ putUint32 c) = (a, b, c) := by
  obtain ⟨h0, h4, h8⟩ := uint32_fields a b (putUint32 c)
  rw [uint32Triple, h0, h4, h8, uint32_putUint32]

/-- Every parser returns the arguments of its constructor. -/
theorem parse_new (index begin length : UInt32) (bitfield block : Bytes) (port : UInt16) :
    parseHave (newHaveMessage index) = .ok index ∧
    parseBitfield (newBitfieldMessage bitfield) = .ok bitfield ∧
    parseRequest (newRequestMessage index begin length) = .ok (index, begin, length) ∧
    parsePiece (newPieceMessage index begin block) = .ok (index, begin, block) ∧
    parseCancel (newCancelMessage index begin length) = .ok (index, begin, length) ∧
    parsePort (newPortMessage port) = .ok port := by
  refine ⟨?_, rfl, ?_, ?_, ?_, ?_⟩
  · rw [parseHave, newHaveMessage, ← putUint32_length index, parseFixed_ok, uint32_putUint32]
  · rw [parseRequest, newRequestMessage, show 12 = (putUint32 index ++ putUint32 begin ++
      putUint32 length).length from rfl, parseFixed_ok, uint32Triple_put]
  · obtain ⟨h0, h4, h8⟩ := uint32_fields index begin block
    have hlen : ¬ (putUint32 index ++ putUint32 begin ++ block).length < 8 := by simp; omega
    simp only [parsePiece, newPieceMessage, hlen, h0, h4, h8]
    rfl
  · rw [parseCancel, newCancelMessage, show 12 = (putUint32 index ++ putUint32 begin ++
      putUint32 length).length from rfl, parseFixed_ok, uint32Triple_put]
  · rw [parsePort, newPortMessage, ← putUint16_length port, parseFixed_ok, uint16_putUint16]

/-- The constructors' messages fit a frame, the bitfield and the block when they leave room. -/
lemma fits_new (index begin length : UInt32) (bitfield block : Bytes) (port : UInt16) :
    Fits (some (newHaveMessage index)) ∧
    (bitfield.length < maxMessageLength → Fits (some (newBitfieldMessage bitfield))) ∧
    Fits (some (newRequestMessage index begin length)) ∧
    (block.length + 8 < maxMessageLength → Fits (some (newPieceMessage index begin block))) ∧
    Fits (some (newCancelMessage index begin length)) ∧
    Fits (some (newPortMessage port)) := by
  simp only [Fits, newHaveMessage, newBitfieldMessage, newRequestMessage, newPieceMessage,
    newCancelMessage, newPortMessage, List.length_append, putUint32_length, putUint16_length,
    maxMessageLength]
  omega

/-- **The wire round trip.**  Reading `j` times from the concatenated frames of messages that
fit returns the first `j` messages, each read consuming exactly its own frame; the constructors'
messages fit whenever their bitfield or block leaves room; and the parser matching each
constructor returns its arguments. -/
theorem wire_round_trip :
    (∀ (ms : List (Option Message)) (bs : List Bytes) (rest : Bytes),
      List.Forall₂ (fun m b => serialize m = .ok b) ms bs → (∀ m ∈ ms, Fits m) →
      ∀ j ≤ ms.length,
        readMessages j (bs.flatten ++ rest) = .ok (ms.take j, (bs.drop j).flatten ++ rest)) ∧
    (∀ (index begin length : UInt32) (bitfield block : Bytes) (port : UInt16),
      Fits (some (newHaveMessage index)) ∧
      (bitfield.length < maxMessageLength → Fits (some (newBitfieldMessage bitfield))) ∧
      Fits (some (newRequestMessage index begin length)) ∧
      (block.length + 8 < maxMessageLength → Fits (some (newPieceMessage index begin block))) ∧
      Fits (some (newCancelMessage index begin length)) ∧
      Fits (some (newPortMessage port))) ∧
    (∀ (index begin length : UInt32) (bitfield block : Bytes) (port : UInt16),
      parseHave (newHaveMessage index) = .ok index ∧
      parseBitfield (newBitfieldMessage bitfield) = .ok bitfield ∧
      parseRequest (newRequestMessage index begin length) = .ok (index, begin, length) ∧
      parsePiece (newPieceMessage index begin block) = .ok (index, begin, block) ∧
      parseCancel (newCancelMessage index begin length) = .ok (index, begin, length) ∧
      parsePort (newPortMessage port) = .ok port) :=
  ⟨fun _ _ rest hs hfit => readMessages_serialize hs hfit rest, fits_new, parse_new⟩

theorem wire_round_trip_sample :
    readMessages 3 (frame (some (newHaveMessage 3)) ++ frame none ++
      frame (some (newPieceMessage 3 0 [7, 8]))) =
      .ok ([some (newHaveMessage 3), none, some (newPieceMessage 3 0 [7, 8])], []) ∧
    parsePiece (newPieceMessage 3 0 [7, 8]) = .ok (3, 0, [7, 8]) := by
  have h := wire_round_trip.1 [some (newHaveMessage 3), none, some (newPieceMessage 3 0 [7, 8])]
    [frame (some (newHaveMessage 3)), frame none,
    frame (some (newPieceMessage 3 0 [7, 8]))] [] (.cons rfl (.cons rfl (.cons rfl .nil)))
    (by decide) 3 le_rfl
  exact ⟨by simpa using h, (wire_round_trip.2.2 3 0 0 [] [7, 8] 0).2.2.2.1⟩

/-! ## `IsValid` against the parsers -/

/-- `Message.IsValid`: a keep-alive, or a known ID with the payload length that ID calls for. -/
def isValid : Option Message → Bool
  | none => true
  | some m =>
    if m.id = msgChoke ∨ m.id = msgUnchoke ∨ m.id = msgInterested ∨ m.id = msgNotInterested then
      m.payload.length = 0
    else if m.id = msgHave then m.payload.length = 4
    else if m.id = msgBitfield then m.payload.length > 0
    else if m.id = msgRequest ∨ m.id = msgCancel then m.payload.length = 12
    else if m.id = msgPiece then m.payload.length ≥ 8
    else if m.id = msgPort then m.payload.length = 2
    else false

/-- A parser of a fixed-size payload accepts a message of its ID exactly at that size. -/
lemma parseFixed_isOk {α : Type} (name : String) (id : UInt8) (size : Nat) (decode : Bytes → α)
    (payload : Bytes) :
    (parseFixed name id size decode ⟨id, payload⟩).isOk = decide (payload.length = size) := by
  by_cases h : payload.length = size <;> simp [parseFixed, h, Except.isOk, Except.toBool]

/-- **`IsValid` against the parsers.**  For each ID with a parser, `IsValid` holds exactly when
that parser accepts the message, except that `ParseBitfield` accepts every payload and `IsValid`
rejects the empty one; the four messages without arguments are valid exactly with an empty
payload, and a message of an unknown ID never is. -/
theorem isValid_parse (payload : Bytes) :
    isValid (some ⟨msgHave, payload⟩) = (parseHave ⟨msgHave, payload⟩).isOk ∧
    isValid (some ⟨msgRequest, payload⟩) = (parseRequest ⟨msgRequest, payload⟩).isOk ∧
    isValid (some ⟨msgPiece, payload⟩) = (parsePiece ⟨msgPiece, payload⟩).isOk ∧
    isValid (some ⟨msgCancel, payload⟩) = (parseCancel ⟨msgCancel, payload⟩).isOk ∧
    isValid (some ⟨msgPort, payload⟩) = (parsePort ⟨msgPort, payload⟩).isOk ∧
    ((parseBitfield ⟨msgBitfield, payload⟩).isOk = true ∧
      isValid (some ⟨msgBitfield, payload⟩) = !payload.isEmpty) ∧
    (∀ id : UInt8, id.toNat < 4 → isValid (some ⟨id, payload⟩) = payload.isEmpty) ∧
    (∀ id : UInt8, 9 < id.toNat → isValid (some ⟨id, payload⟩) = false) := by
  refine ⟨?_, ?_, ?_, ?_, ?_, ?_, ?_, ?_⟩
  · rw [parseHave, parseFixed_isOk]; simp +decide [isValid]
  · rw [parseRequest, parseFixed_isOk]; simp +decide [isValid]
  · by_cases h : payload.length < 8 <;>
      simp +decide [isValid, parsePiece, h, Except.isOk, Except.toBool]
    omega
  · rw [parseCancel, parseFixed_isOk]; simp +decide [isValid]
  · rw [parsePort, parseFixed_isOk]; simp +decide [isValid]
  · cases payload <;> simp +decide [isValid, parseBitfield, Except.isOk, Except.toBool]
  · intro id h
    have hc : id = msgChoke ∨ id = msgUnchoke ∨ id = msgInterested ∨ id = msgNotInterested := by
      have : id.toNat = 0 ∨ id.toNat = 1 ∨ id.toNat = 2 ∨ id.toNat = 3 := by omega
      rcases this with h | h | h | h
      exacts [.inl (UInt8.toNat.inj h : id = msgChoke),
        .inr (.inl (UInt8.toNat.inj h : id = msgUnchoke)),
        .inr (.inr (.inl (UInt8.toNat.inj h : id = msgInterested))),
        .inr (.inr (.inr (UInt8.toNat.inj h : id = msgNotInterested)))]
    simp only [isValid, if_pos hc]
    cases payload <;> rfl
  · intro id h
    have hne : ∀ k : UInt8, k.toNat ≤ 9 → id ≠ k := fun k hk he => by subst he; omega
    simp [isValid, msgPiece, msgChoke, msgUnchoke, msgInterested, msgNotInterested, msgHave, msgBitfield,
      msgRequest, msgCancel, msgPort, hne, UInt8.size]

end Message

end BitTorrent
