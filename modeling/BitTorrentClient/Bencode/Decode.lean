import BitTorrentClient.Bencode.Value

/-!
# The decoder

`bencode.Decoder`: a reader and a `bytes.Buffer` of pushed-back bytes.  `readByte` takes the
buffer's front byte if there is one and reads the reader otherwise; `peekByte` reads a byte and
pushes it back; `readUntil` reads up to a delimiter.  A string's payload is read with
`io.ReadFull(d.r, …)`, from the reader alone.

`decode` is `Decoder.decode` for the three targets the client decodes into: an `interface{}`,
a `string` (a dictionary key), and the `map[string]interface{}` of `torrent.Parse`.  Its fuel
`k` bounds the nesting and the number of list items and dictionary entries; `bencode.Decode`
gives it twice the input's length plus one, which is never the bound that stops it: every call
and every loop iteration consumes a byte, and `Bencode/Termination.lean` shows that this fuel
never runs out and that more changes no result.

A string's buffer is `make([]byte, length)`: a declared length past `maxAlloc` makes the runtime
panic (`makeslice: len out of range`), and nothing in the decoder or its callers recovers it.

Integers and lengths go through `strconv.ParseInt(s, 10, 64)`: an optional sign, then
`ParseUint`'s digit loop with its overflow checks.  Nothing requires the digits to be canonical:
`i03e`, `i-0e`, `i+5e` and `03:abc` all decode.  A dictionary is assigned entry by entry into
its map (`mapInsert`), so a repeated key keeps its last value and the keys come out ascending.
-/

namespace BitTorrent.Bencode

/-! ## `strconv` -/

/-- `strconv.ErrSyntax` and `strconv.ErrRange`. -/
inductive NumErr where
  | invalid
  | range
  deriving DecidableEq, Repr

/-- A lowercase hexadecimal digit. -/
def hexDigit (n : Nat) : Char := Char.ofNat (if n < 10 then 48 + n else 87 + n)

/-- The two hexadecimal digits of a byte. -/
def hexByte (b : UInt8) : String := String.mk [hexDigit (b.toNat / 16), hexDigit (b.toNat % 16)]

/-- `strconv.appendEscapedRune` for an ASCII byte, inside the quote character `q`. -/
def escapeAscii (q : Char) (b : UInt8) : String :=
  let c := Char.ofNat b.toNat
  if c = q || c = '\\' then String.mk ['\\', c]
  else if 32 ≤ b.toNat && b.toNat < 127 then String.mk [c]
  else match b.toNat with
    | 7 => "\\a"
    | 8 => "\\b"
    | 12 => "\\f"
    | 10 => "\\n"
    | 13 => "\\r"
    | 9 => "\\t"
    | 11 => "\\v"
    | _ => "\\x" ++ hexByte b

/-- The single quote character. -/
def singleQuote : Char := Char.ofNat 39

/-- `%q` of a byte, `strconv.QuoteRune` of the rune `U+0000`–`U+00FF` it is: the printable ones
as themselves, `U+0080`–`U+00A0` and `U+00AD` as `\u00HH`. -/
def quoteRune (b : UInt8) : String :=
  let body :=
    if b.toNat < 128 then escapeAscii singleQuote b
    else if b.toNat ≤ 160 || b.toNat = 173 then "\\u00" ++ hexByte b
    else String.mk [Char.ofNat b.toNat]
  String.mk [singleQuote] ++ body ++ String.mk [singleQuote]

/-- `strconv.Quote` of a byte string.  Bytes from `0x80` are written `\xHH`, as Go writes a byte
that is not part of a valid UTF-8 sequence. -/
def quote (s : Bytes) : String :=
  "\"" ++ String.join (s.map fun b => if b.toNat < 128 then escapeAscii '"' b else "\\x" ++ hexByte b)
    ++ "\""

/-- `NumError.Error()` for `strconv.ParseInt`. -/
def numError (s : Bytes) : NumErr → String
  | .invalid => "strconv.ParseInt: parsing " ++ quote s ++ ": invalid syntax"
  | .range => "strconv.ParseInt: parsing " ++ quote s ++ ": value out of range"

/-- `1<<64 - 1`, `ParseUint`'s `maxVal` for 64 bits. -/
def maxUint64 : Nat := 2 ^ 64 - 1

/-- `ParseUint`'s digit loop in base 10, from the value `n` of the digits before.  `n ≥ cutoff`
and the wrapped sum are its two overflow checks. -/
def parseUintLoop : Bytes → Nat → Except NumErr Nat
  | [], n => .ok n
  | c :: cs, n =>
    if !isDigit c then .error .invalid
    else if n ≥ maxUint64 / 10 + 1 then .error .range
    else if n * 10 + (c.toNat - 48) > maxUint64 then .error .range
    else parseUintLoop cs (n * 10 + (c.toNat - 48))

/-- `strconv.ParseUint(s, 10, 64)`. -/
def parseUint (s : Bytes) : Except NumErr Nat :=
  if s = [] then .error .invalid else parseUintLoop s 0

/-- `ParseInt`'s range checks on the magnitude `un` of a number with sign `neg`. -/
def signedOfUint (s : Bytes) (neg : Bool) (un : Nat) : Except String Int :=
  if !neg && un ≥ 2 ^ 63 then .error (numError s .range)
  else if neg && un > 2 ^ 63 then .error (numError s .range)
  else .ok (if neg then -(un : Int) else un)

/-- `strconv.ParseInt(s, 10, 64)`: a leading `+` or `-`, then `ParseUint`; on its range error
the magnitude is `maxVal`, which the range checks then reject. -/
def parseInt (s : Bytes) : Except String Int :=
  match s with
  | [] => .error (numError s .invalid)
  | c :: rest =>
    match parseUint (if c = 43 || c = 45 then rest else c :: rest) with
    | .ok un => signedOfUint s (decide (c = 45)) un
    | .error .range => signedOfUint s (decide (c = 45)) maxUint64
    | .error .invalid => .error (numError s .invalid)

/-- On digits whose value fits, the loop returns that value. -/
lemma parseUintLoop_digits : ∀ (ds : Bytes) (n : Nat), (∀ c ∈ ds, isDigit c = true) →
    ds.foldl (fun a c => 10 * a + (c.toNat - 48)) n ≤ maxUint64 →
    parseUintLoop ds n = .ok (ds.foldl (fun a c => 10 * a + (c.toNat - 48)) n)
  | [], _, _, _ => rfl
  | c :: cs, n, hd, hle => by
    have hc := hd c (List.mem_cons_self _ _)
    have hge := le_foldl_digits cs (10 * n + (c.toNat - 48))
    simp only [List.foldl_cons] at hle ⊢
    rw [parseUintLoop, Nat.mul_comm n 10, if_neg (by simp [hc]),
      if_neg (by unfold maxUint64 at hle ⊢; omega), if_neg (by omega)]
    exact parseUintLoop_digits cs _ (fun c' h => hd c' (List.mem_cons_of_mem _ h)) hle

lemma parseUint_formatNat {n : Nat} (h : n ≤ maxUint64) : parseUint (formatNat n) = .ok n := by
  rw [parseUint, if_neg (formatNat_ne_nil n), parseUintLoop_digits _ 0 (formatNat_isDigit n)
    (by show digitsValue (formatNat n) ≤ _; rw [digitsValue_formatNat]; exact h)]
  exact congrArg Except.ok (digitsValue_formatNat n)

lemma signedOfUint_range {s : Bytes} {neg : Bool} {un : Nat} {n : Int}
    (h : signedOfUint s neg un = .ok n) : -2 ^ 63 ≤ n ∧ n < 2 ^ 63 := by
  unfold signedOfUint at h
  cases neg <;>
    simp only [Bool.not_false, Bool.not_true, Bool.true_and, Bool.false_and, decide_eq_true_eq,
      Bool.false_eq_true, if_false, if_true] at h <;>
    split_ifs at h <;> cases h <;> omega

lemma signedOfUint_neg {s : Bytes} {un : Nat} (h : un ≤ 2 ^ 63) :
    signedOfUint s true un = .ok (-(un : Int)) := by
  simp [signedOfUint]
  omega

lemma signedOfUint_pos {s : Bytes} {un : Nat} (h : un < 2 ^ 63) :
    signedOfUint s false un = .ok (un : Int) := by
  simp [signedOfUint]
  omega

lemma parseInt_minus (ds : Bytes) :
    parseInt (45 :: ds) =
      match parseUint ds with
      | .ok un => signedOfUint (45 :: ds) true un
      | .error .range => signedOfUint (45 :: ds) true maxUint64
      | .error .invalid => .error (numError (45 :: ds) .invalid) := rfl

lemma parseInt_digit {c : UInt8} (hc : isDigit c = true) (cs : Bytes) :
    parseInt (c :: cs) =
      match parseUint (c :: cs) with
      | .ok un => signedOfUint (c :: cs) false un
      | .error .range => signedOfUint (c :: cs) false maxUint64
      | .error .invalid => .error (numError (c :: cs) .invalid) := by
  simp [parseInt, isDigit_ne hc 43 (by decide), isDigit_ne hc 45 (by decide)]

/-- `ParseInt` reads back what `%d` wrote, for every `int64`. -/
theorem parseInt_formatInt {n : Int} (h₁ : -2 ^ 63 ≤ n) (h₂ : n < 2 ^ 63) :
    parseInt (formatInt n) = .ok n := by
  unfold formatInt
  split_ifs with hn
  · rw [parseInt_minus, parseUint_formatNat (by unfold maxUint64; omega)]
    dsimp only
    rw [signedOfUint_neg (by omega)]
    congr 1
    omega
  · obtain ⟨c, cs, hcs, -⟩ := formatNat_canonical n.toNat
    have hc : isDigit c = true := formatNat_isDigit _ c (hcs ▸ List.mem_cons_self _ _)
    have hu := parseUint_formatNat (n := n.toNat) (by unfold maxUint64; omega)
    rw [hcs] at hu ⊢
    rw [parseInt_digit hc, hu]
    dsimp only
    rw [signedOfUint_pos (by omega)]
    congr 1
    omega

lemma parseInt_formatNat {n : Nat} (h : n < 2 ^ 63) : parseInt (formatNat n) = .ok n := by
  have := parseInt_formatInt (n := n) (by omega) (by omega)
  rwa [formatInt, if_neg (by omega), Int.toNat_ofNat] at this

/-- `ParseInt` accepts only `int64` values. -/
lemma parseInt_range {s : Bytes} {n : Int} (h : parseInt s = .ok n) : -2 ^ 63 ≤ n ∧ n < 2 ^ 63 := by
  unfold parseInt at h
  split at h
  · cases h
  · split at h
    · exact signedOfUint_range h
    · exact signedOfUint_range h
    · cases h

/-! ## The decoder's input -/

/-- The decoder's state: `buf`, the pushed-back bytes, then `r`, what the reader still holds. -/
structure Decoder where
  buf : Bytes
  r : Bytes
  deriving DecidableEq, Repr

/-- The kinds of Go value the decoder fills: `interface{}`, `string`, and
`map[string]interface{}`. -/
inductive Target where
  | iface
  | string
  | map
  deriving DecidableEq, Repr

/-- `%v` of the target's type. -/
def Target.typeName : Target → String
  | .iface => "interface {}"
  | .string => "string"
  | .map => "map[string]interface {}"

/-- `m[key] = val` on a map held in ascending key order. -/
def mapInsert (key : Bytes) (val : Value) : List (Bytes × Value) → List (Bytes × Value)
  | [] => [(key, val)]
  | (k, v) :: m =>
    if bytesLt key k then (key, val) :: (k, v) :: m
    else if key = k then (key, val) :: m
    else (k, v) :: mapInsert key val m

/-- The bytes of a decoded dictionary key (a `string` target only ever receives a string). -/
def keyOf : Value → Bytes
  | .str s => s
  | _ => []

namespace Decoder

/-- `readByte`. -/
def readByte (d : Decoder) : Except String (UInt8 × Decoder) :=
  match d.buf, d.r with
  | b :: buf, r => .ok (b, ⟨buf, r⟩)
  | [], b :: r => .ok (b, ⟨[], r⟩)
  | [], [] => .error "EOF"

/-- `unreadByte`: `WriteByte` puts the byte at the back of the buffer. -/
def unreadByte (d : Decoder) (b : UInt8) : Decoder := ⟨d.buf ++ [b], d.r⟩

/-- `peekByte`. -/
def peekByte (d : Decoder) : Except String (UInt8 × Decoder) :=
  match d.readByte with
  | .ok (b, d) => .ok (b, d.unreadByte b)
  | .error e => .error e

/-- The call `d.readByte()` whose results are dropped. -/
def skipByte (d : Decoder) : Decoder :=
  match d.readByte with
  | .ok (_, d) => d
  | .error _ => d

/-- The loop of `readUntil`, for at most `k` bytes. -/
def readUntilLoop (delim : UInt8) : Nat → Decoder → Except String (Bytes × Decoder)
  | 0, _ => .error "EOF"
  | k + 1, d =>
    match d.readByte with
    | .error e => .error e
    | .ok (b, d) =>
      if b = delim then .ok ([], d)
      else match readUntilLoop delim k d with
        | .ok (rest, d) => .ok (b :: rest, d)
        | .error e => .error e

/-- `readUntil`: the bytes before `delim`, which is consumed.  The bound is one more than the
bytes left, so the loop ends by finding `delim` or by `readByte`'s `EOF`. -/
def readUntil (d : Decoder) (delim : UInt8) : Except String (Bytes × Decoder) :=
  readUntilLoop delim (d.buf.length + d.r.length + 1) d

/-- `decodeInt`, after the `i`. -/
def decodeInt (t : Target) (d : Decoder) : Outcome (Value × Decoder) :=
  match d.readUntil 101 with
  | .error e => .err e
  | .ok (data, d) =>
    match parseInt data with
    | .error e => .err ("invalid bencode: invalid integer: " ++ e)
    | .ok n => if t = .iface then .ok (.int n, d) else .err s!"cannot decode integer into {t.typeName}"

/-- `decodeString`, with the first digit pushed back: the length up to `:`, a buffer of that many
bytes (`make` panics past `maxAlloc`), then exactly that many bytes of the reader. -/
def decodeString (t : Target) (d : Decoder) : Outcome (Value × Decoder) :=
  match d.readUntil 58 with
  | .error e => .err e
  | .ok (lengthData, d) =>
    match parseInt lengthData with
    | .error _ => .err "invalid bencode: invalid string length"
    | .ok length =>
      if length < 0 then .err "invalid bencode: invalid string length"
      else if length > maxAlloc then .panic "runtime error: makeslice: len out of range"
      else match readFull d.r length.toNat with
        | .error e => .err e
        | .ok (data, r) =>
          if t = .map then .err "cannot decode string into map[string]interface {}"
          else .ok (.str data, ⟨d.buf, r⟩)

mutual
/-- `Decoder.decode`, with `decodeList` and `decodeDict` inlined after their kind checks.  An
error is returned up the calls and a panic unwinds them. -/
def decode : Nat → Target → Decoder → Outcome (Value × Decoder)
  | 0, _, _ => .err "out of fuel"
  | k + 1, t, d =>
    match d.readByte with
    | .error e => .err e
    | .ok (b, d) =>
      if b = 105 then decodeInt t d
      else if b = 108 then
        if t = .iface then
          match decodeItems k d [] with
          | .ok (vs, d) => .ok (.list vs, d)
          | .err e => .err e
          | .panic e => .panic e
        else .err s!"cannot decode list into {t.typeName}"
      else if b = 100 then
        if t = .string then .err "cannot decode dict into string"
        else
          match decodeEntries k d [] with
          | .ok (kvs, d) => .ok (.dict kvs, d)
          | .err e => .err e
          | .panic e => .panic e
      else if isDigit b then decodeString t (d.unreadByte b)
      else .err ("invalid bencode: unexpected byte " ++ quoteRune b)

/-- The item loop of `decodeList`: items until the `e`, each into an `interface{}`. -/
def decodeItems : Nat → Decoder → List Value → Outcome (List Value × Decoder)
  | 0, _, _ => .err "out of fuel"
  | k + 1, d, acc =>
    match d.peekByte with
    | .error e => .err e
    | .ok (b, d) =>
      if b = 101 then .ok (acc, d.skipByte)
      else
        match decode k .iface d with
        | .err e => .err e
        | .panic e => .panic e
        | .ok (v, d) => decodeItems k d (acc ++ [v])

/-- The entry loop of `decodeDict`: a key into a `string`, its value into an `interface{}`,
assigned into the map, until the `e`. -/
def decodeEntries : Nat → Decoder → List (Bytes × Value) →
    Outcome (List (Bytes × Value) × Decoder)
  | 0, _, _ => .err "out of fuel"
  | k + 1, d, m =>
    match d.peekByte with
    | .error e => .err e
    | .ok (b, d) =>
      if b = 101 then .ok (m, d.skipByte)
      else
        match decode k .string d with
        | .err e => .err e
        | .panic e => .panic e
        | .ok (key, d) =>
          match decode k .iface d with
          | .err e => .err e
          | .panic e => .panic e
          | .ok (val, d) => decodeEntries k d (mapInsert (keyOf key) val m)
end

/-! ### One step at a time

The decoder only ever pushes back the byte it has just read, so its buffer holds at most one
byte, and a state `⟨[c], r⟩` behaves as `⟨[], c :: r⟩` for everything that starts with
`readByte`: the `_buf` lemmas. -/

@[simp] lemma readByte_nil_cons (b : UInt8) (r : Bytes) :
    (⟨[], b :: r⟩ : Decoder).readByte = .ok (b, ⟨[], r⟩) := rfl

@[simp] lemma readByte_cons (b : UInt8) (buf r : Bytes) :
    (⟨b :: buf, r⟩ : Decoder).readByte = .ok (b, ⟨buf, r⟩) := rfl

@[simp] lemma peekByte_nil_cons (b : UInt8) (r : Bytes) :
    (⟨[], b :: r⟩ : Decoder).peekByte = .ok (b, ⟨[b], r⟩) := rfl

@[simp] lemma skipByte_single (b : UInt8) (r : Bytes) : (⟨[b], r⟩ : Decoder).skipByte = ⟨[], r⟩ :=
  rfl

@[simp] lemma unreadByte_nil (b : UInt8) (r : Bytes) : (⟨[], r⟩ : Decoder).unreadByte b = ⟨[b], r⟩ :=
  rfl

lemma readUntilLoop_buf (delim c : UInt8) (r : Bytes) :
    ∀ k, readUntilLoop delim k ⟨[c], r⟩ = readUntilLoop delim k ⟨[], c :: r⟩
  | 0 => rfl
  | _ + 1 => rfl

lemma readUntil_buf (delim c : UInt8) (r : Bytes) :
    readUntil ⟨[c], r⟩ delim = readUntil ⟨[], c :: r⟩ delim := by
  simp only [readUntil, readUntilLoop_buf, List.length_cons, List.length_nil]
  congr 1
  omega

/-- `readUntil` returns the bytes before the first delimiter and leaves what follows it. -/
lemma readUntilLoop_delim {delim : UInt8} (rest : Bytes) :
    ∀ (ds : Bytes), delim ∉ ds → ∀ k, ds.length < k →
      readUntilLoop delim k ⟨[], ds ++ delim :: rest⟩ = .ok (ds, ⟨[], rest⟩)
  | [], _, k + 1, _ => by simp [readUntilLoop]
  | c :: ds, hc, k + 1, hk => by
    have hne : c ≠ delim := fun h => hc (h ▸ List.mem_cons_self _ _)
    simp only [List.cons_append, readUntilLoop, readByte_nil_cons, if_neg hne]
    rw [readUntilLoop_delim rest ds (fun h => hc (List.mem_cons_of_mem _ h)) k
      (by simp at hk; omega)]

lemma readUntil_delim {delim : UInt8} {ds : Bytes} (h : delim ∉ ds) (rest : Bytes) :
    readUntil ⟨[], ds ++ delim :: rest⟩ delim = .ok (ds, ⟨[], rest⟩) :=
  readUntilLoop_delim rest ds h _ (by simp; omega)

lemma decodeString_buf (t : Target) (c : UInt8) (r : Bytes) :
    decodeString t ⟨[c], r⟩ = decodeString t ⟨[], c :: r⟩ := by
  simp only [decodeString, readUntil_buf]

lemma decode_buf (k : Nat) (t : Target) (c : UInt8) (r : Bytes) :
    decode (k + 1) t ⟨[c], r⟩ = decode (k + 1) t ⟨[], c :: r⟩ := rfl

/-! ### What a successful call did -/

/-- A successful `decode` read a type byte and took one of the four value branches. -/
lemma decode_ok {k : Nat} {t : Target} {d d' : Decoder} {v : Value}
    (h : decode (k + 1) t d = .ok (v, d')) :
    ∃ b d₁, d.readByte = .ok (b, d₁) ∧
      (b = 105 ∧ decodeInt t d₁ = .ok (v, d') ∨
        b = 108 ∧ t = .iface ∧ (∃ vs, decodeItems k d₁ [] = .ok (vs, d') ∧ v = .list vs) ∨
        b = 100 ∧ t ≠ .string ∧ (∃ kvs, decodeEntries k d₁ [] = .ok (kvs, d') ∧ v = .dict kvs) ∨
        isDigit b ∧ decodeString t (d₁.unreadByte b) = .ok (v, d')) := by
  rw [decode] at h
  cases hr : d.readByte with
  | error e => simp [hr] at h
  | ok bd =>
    obtain ⟨b, d₁⟩ := bd
    simp only [hr] at h
    refine ⟨b, d₁, rfl, ?_⟩
    split_ifs at h with h1 h2 h3 h4 h5 h6
    · exact .inl ⟨h1, h⟩
    · split at h <;> cases h
      exact .inr (.inl ⟨h2, h3, _, ‹_›, rfl⟩)
    · split at h <;> cases h
      exact .inr (.inr (.inl ⟨h4, h5, _, ‹_›, rfl⟩))
    · exact .inr (.inr (.inr ⟨h6, h⟩))

/-- A successful item loop met the closing `e`, or decoded an item and went on. -/
lemma decodeItems_ok {k : Nat} {d d' : Decoder} {acc vs : List Value}
    (h : decodeItems (k + 1) d acc = .ok (vs, d')) :
    ∃ b d₁, d.peekByte = .ok (b, d₁) ∧
      (b = 101 ∧ vs = acc ∧ d' = d₁.skipByte ∨
        b ≠ 101 ∧ ∃ v d₂, decode k .iface d₁ = .ok (v, d₂) ∧
          decodeItems k d₂ (acc ++ [v]) = .ok (vs, d')) := by
  rw [decodeItems] at h
  cases hp : d.peekByte with
  | error e => simp [hp] at h
  | ok bd =>
    obtain ⟨b, d₁⟩ := bd
    simp only [hp] at h
    refine ⟨b, d₁, rfl, ?_⟩
    split_ifs at h with h1
    · cases h; exact .inl ⟨h1, rfl, rfl⟩
    · split at h
      · cases h
      · cases h
      · exact .inr ⟨h1, _, _, ‹_›, h⟩

/-- A successful entry loop met the closing `e`, or decoded a key and a value and went on. -/
lemma decodeEntries_ok {k : Nat} {d d' : Decoder} {m kvs : List (Bytes × Value)}
    (h : decodeEntries (k + 1) d m = .ok (kvs, d')) :
    ∃ b d₁, d.peekByte = .ok (b, d₁) ∧
      (b = 101 ∧ kvs = m ∧ d' = d₁.skipByte ∨
        b ≠ 101 ∧ ∃ key d₂ val d₃, decode k .string d₁ = .ok (key, d₂) ∧
          decode k .iface d₂ = .ok (val, d₃) ∧
          decodeEntries k d₃ (mapInsert (keyOf key) val m) = .ok (kvs, d')) := by
  rw [decodeEntries] at h
  cases hp : d.peekByte with
  | error e => simp [hp] at h
  | ok bd =>
    obtain ⟨b, d₁⟩ := bd
    simp only [hp] at h
    refine ⟨b, d₁, rfl, ?_⟩
    split_ifs at h with h1
    · cases h; exact .inl ⟨h1, rfl, rfl⟩
    · split at h
      · cases h
      · cases h
      · split at h
        · cases h
        · cases h
        · exact .inr ⟨h1, _, _, _, _, ‹_›, ‹_›, h⟩

/-! ### More fuel changes no result -/

/-- A result found with fuel `k` is found with fuel `k + 1`: the fuel only ever ends a run
with its own error. -/
lemma decode_succ : ∀ k,
    (∀ t d x, decode k t d = .ok x → decode (k + 1) t d = .ok x) ∧
    (∀ d acc x, decodeItems k d acc = .ok x → decodeItems (k + 1) d acc = .ok x) ∧
    (∀ d m x, decodeEntries k d m = .ok x → decodeEntries (k + 1) d m = .ok x)
  | 0 => ⟨fun _ _ _ h => by simp [decode] at h, fun _ _ _ h => by simp [decodeItems] at h,
      fun _ _ _ h => by simp [decodeEntries] at h⟩
  | k + 1 => by
    obtain ⟨ih, ihItems, ihEntries⟩ := decode_succ k
    refine ⟨fun t d ⟨v, d'⟩ h => ?_, fun d acc ⟨vs, d'⟩ h => ?_, fun d m ⟨kvs, d'⟩ h => ?_⟩
    · obtain ⟨b, d₁, hr, hc⟩ := decode_ok h
      rw [decode, hr]
      rcases hc with ⟨rfl, hi⟩ | ⟨rfl, rfl, vs, hi, rfl⟩ | ⟨rfl, ht, kvs, he, rfl⟩ | ⟨hd, hs⟩
      · exact hi
      · simp [ihItems _ _ _ hi]
      · simp [ht, ihEntries _ _ _ he]
      · simp only [if_neg (isDigit_ne hd 105 (by decide)), if_neg (isDigit_ne hd 108 (by decide)),
          if_neg (isDigit_ne hd 100 (by decide)), hd, if_true, hs]
    · obtain ⟨b, d₁, hp, ⟨rfl, rfl, rfl⟩ | ⟨hb, v, d₂, hv, hi⟩⟩ := decodeItems_ok h
      · rw [decodeItems, hp]; simp
      · rw [decodeItems, hp]
        simp only [if_neg hb, ih _ _ _ hv]
        exact ihItems _ _ _ hi
    · obtain ⟨b, d₁, hp, ⟨rfl, rfl, rfl⟩ | ⟨hb, key, d₂, val, d₃, hk, hv, he⟩⟩ :=
        decodeEntries_ok h
      · rw [decodeEntries, hp]; simp
      · rw [decodeEntries, hp]
        simp only [if_neg hb, ih _ _ _ hk, ih _ _ _ hv]
        exact ihEntries _ _ _ he

lemma decode_mono {k k' : Nat} {t : Target} {d : Decoder} {x : Value × Decoder}
    (h : decode k t d = .ok x) (hk : k ≤ k') : decode k' t d = .ok x := by
  induction hk with
  | refl => exact h
  | step _ ih => exact (decode_succ _).1 _ _ _ ih

end Decoder

/-- `bencode.Decode(data, v)` into a target of kind `t`: the value at the front of `data`;
whatever follows it is never read. -/
def decode (data : Bytes) (t : Target) : Outcome Value :=
  match Decoder.decode (2 * data.length + 1) t ⟨[], data⟩ with
  | .ok (v, _) => .ok v
  | .err e => .err e
  | .panic e => .panic e

/-- `i03e` decodes: the digits need not be canonical. -/
example : decode [105, 48, 51, 101] .iface = .ok (.int 3) := rfl

/-- A repeated key keeps its last value: `d1:ai1e1:ai2ee`. -/
example : decode [100, 49, 58, 97, 105, 49, 101, 49, 58, 97, 105, 50, 101, 101] .iface =
    .ok (.dict [([97], .int 2)]) := rfl

end BitTorrent.Bencode
