import BitTorrentClient.Bencode.RoundTrip

/-!
# The decoder terminates

In Go, `Decoder.decode`, `decodeList` and `decodeDict` call each other with no bound; they stop
because every call and every loop iteration consumes input.  The measure is `size`: the bytes
pushed back plus the bytes the reader still holds.  `peekByte` reads a byte and pushes it back,
which leaves `size` as it was; the loops then consume the byte they peeked, either as the `e`
that ends them or inside the next `decode`.

The pushback buffer is a `bytes.Buffer`, but the decoder only ever pushes back the byte it has
just read, so from an empty buffer it never holds more than one byte, and it is empty again after
every value.

* `decode_consumes` — a successful `decode` call, item loop or entry loop leaves fewer bytes than
  it found, and nothing pushed back;
* `decodeItems_iteration`, `decodeEntries_iteration` — one iteration of each loop consumes a
  byte;
* `decode_fuel` — from twice the bytes left plus one, the model's fuel never runs out and more of
  it changes no result;
* `decode_panic` — the one panic is `make`'s, for a string whose declared length is past the
  largest allocation;
* **`decode_terminates`** puts these together for `bencode.Decode`: it ends with a value, an
  error, or that panic;
* **`decode_long_string_panics`** — and the panic is reached from a header alone: a declared
  length past `maxAlloc` panics whatever follows, so `Decode` does not end with a value or an
  error on every input.
-/

namespace BitTorrent.Bencode

namespace Decoder

variable {d d' : Decoder} {b : UInt8}

/-- The bytes still to read: those pushed back and those the reader holds. -/
def size (d : Decoder) : Nat := d.buf.length + d.r.length

/-! ## The byte primitives -/

lemma readByte_ok (h : d.readByte = .ok (b, d')) :
    d'.size + 1 = d.size ∧ (d.buf.length ≤ 1 → d'.buf = []) := by
  obtain ⟨buf, r⟩ := d
  match buf, r, h with
  | c :: buf, r, h =>
    cases h
    exact ⟨by simp only [size, List.length_cons]; omega, fun h1 => by simpa using h1⟩
  | [], c :: r, h => cases h; exact ⟨rfl, fun _ => rfl⟩

lemma readByte_error {e : String} (h : d.readByte = .error e) : e = "EOF" := by
  obtain ⟨buf, r⟩ := d
  rcases buf with _ | ⟨c, buf⟩ <;> rcases r with _ | ⟨c', r⟩ <;> simp [readByte] at h
  exact h.symm

lemma peekByte_ok (h : d.peekByte = .ok (b, d')) :
    d'.size = d.size ∧ (d.buf.length ≤ 1 → d'.buf = [b]) := by
  unfold peekByte at h
  cases hr : d.readByte with
  | error e => simp [hr] at h
  | ok bd =>
    simp only [hr, Except.ok.injEq, Prod.mk.injEq] at h
    obtain ⟨rfl, rfl⟩ := h
    obtain ⟨hs, hb⟩ := readByte_ok hr
    refine ⟨?_, fun h1 => by simp [unreadByte, hb h1]⟩
    simp only [unreadByte, size, List.length_append, List.length_singleton] at hs ⊢
    omega

lemma peekByte_error {e : String} (h : d.peekByte = .error e) : e = "EOF" := by
  unfold peekByte at h
  cases hr : d.readByte with
  | error e' => simp only [hr, Except.error.injEq] at h; exact h ▸ readByte_error hr
  | ok bd => simp [hr] at h

@[simp] lemma unreadByte_size (d : Decoder) (b : UInt8) : (d.unreadByte b).size = d.size + 1 := by
  simp [unreadByte, size]
  omega

/-- After `peekByte`, the `readByte` that drops the peeked byte consumes it. -/
lemma peekByte_skip (h : d.peekByte = .ok (b, d')) :
    d'.skipByte.size + 1 = d.size ∧ (d.buf.length ≤ 1 → d'.skipByte.buf = []) := by
  unfold peekByte at h
  cases hr : d.readByte with
  | error e => simp [hr] at h
  | ok bd =>
    obtain ⟨c, ⟨buf, r⟩⟩ := bd
    simp only [hr, Except.ok.injEq, Prod.mk.injEq] at h
    obtain ⟨rfl, rfl⟩ := h
    obtain ⟨hs, hb⟩ := readByte_ok hr
    rcases buf with _ | ⟨c', buf⟩
    · exact ⟨by simpa [unreadByte, skipByte, readByte, size] using hs, fun _ => rfl⟩
    · refine ⟨?_, fun h1 => absurd (hb h1) (List.cons_ne_nil _ _)⟩
      simp only [size, List.length_cons] at hs
      simp [unreadByte, skipByte, readByte, size]
      omega

lemma readUntilLoop_ok {delim : UInt8} :
    ∀ {k : Nat} {d d' : Decoder} {bs : Bytes}, readUntilLoop delim k d = .ok (bs, d') →
      d'.size < d.size ∧ (d.buf.length ≤ 1 → d'.buf = [])
  | 0, _, _, _, h => by simp [readUntilLoop] at h
  | k + 1, d, d', bs, h => by
    unfold readUntilLoop at h
    cases hr : d.readByte with
    | error e => simp [hr] at h
    | ok bd =>
      obtain ⟨hs, hb⟩ := readByte_ok hr
      simp only [hr] at h
      split_ifs at h
      · cases h; exact ⟨by omega, hb⟩
      · split at h
        · rename_i rest d'' hl
          cases h
          obtain ⟨hs', hb'⟩ := readUntilLoop_ok hl
          exact ⟨by omega, fun h1 => hb' (by simp [hb h1])⟩
        · cases h

lemma readUntilLoop_error {delim : UInt8} :
    ∀ {k : Nat} {d : Decoder} {e : String}, readUntilLoop delim k d = .error e → e = "EOF"
  | 0, _, _, h => by simp only [readUntilLoop, Except.error.injEq] at h; exact h.symm
  | k + 1, d, e, h => by
    unfold readUntilLoop at h
    cases hr : d.readByte with
    | error e' => simp only [hr, Except.error.injEq] at h; exact h ▸ readByte_error hr
    | ok bd =>
      simp only [hr] at h
      split_ifs at h
      split at h
      · cases h
      · rename_i e' hl; cases h; exact readUntilLoop_error hl

lemma readFull_ok {r a r' : Bytes} {n : Nat} (h : readFull r n = .ok (a, r')) : r'.length ≤ r.length := by
  unfold readFull at h
  split_ifs at h
  cases h
  simp

lemma readFull_error {r : Bytes} {n : Nat} {e : String} (h : readFull r n = .error e) :
    e = "EOF" ∨ e = "unexpected EOF" := by
  unfold readFull at h
  split_ifs at h <;> cases h
  · exact .inl rfl
  · exact .inr rfl

lemma decodeInt_ok {t : Target} {v : Value} (h : decodeInt t d = .ok (v, d')) :
    d'.size < d.size ∧ (d.buf.length ≤ 1 → d'.buf = []) := by
  unfold decodeInt at h
  split at h
  · cases h
  · rename_i data d₁ hu
    split at h
    · cases h
    · split_ifs at h
      cases h
      exact readUntilLoop_ok hu

lemma decodeString_ok {t : Target} {v : Value} (h : decodeString t d = .ok (v, d')) :
    d'.size < d.size ∧ (d.buf.length ≤ 1 → d'.buf = []) := by
  unfold decodeString at h
  split at h
  · cases h
  · rename_i lengthData d₁ hu
    obtain ⟨hs, hb⟩ := readUntilLoop_ok hu
    split at h
    · cases h
    · split_ifs at h <;> split at h <;> cases h
      rename_i hf
      have := readFull_ok hf
      exact ⟨by simp only [size] at hs ⊢; omega, hb⟩

/-! ## Every call consumes input -/

/-- What a successful call leaves: fewer bytes than it found, and, from a buffer of at most one
byte, nothing pushed back. -/
def Consumes (d d' : Decoder) : Prop := d'.size < d.size ∧ (d.buf.length ≤ 1 → d'.buf = [])

lemma Consumes.trans {d₁ d₂ : Decoder} (h₁ : Consumes d d₁) (h₂ : Consumes d₁ d₂) :
    Consumes d d₂ :=
  ⟨h₂.1.trans h₁.1, fun h1 => h₂.2 (by simp [h₁.2 h1])⟩

/-- A `readByte` consumes its byte. -/
lemma readByte_consumes (h : d.readByte = .ok (b, d')) : Consumes d d' :=
  ⟨by have := (readByte_ok h).1; omega, (readByte_ok h).2⟩

/-- A call after a `peekByte` consumes from the state before it. -/
lemma Consumes.of_peekByte {d₂ : Decoder} (hp : d.peekByte = .ok (b, d')) (h : Consumes d' d₂) :
    Consumes d d₂ :=
  ⟨(peekByte_ok hp).1 ▸ h.1, fun h1 => h.2 (by simp [(peekByte_ok hp).2 h1])⟩

/-- **Every call consumes input.**  A successful `decode`, item loop or entry loop, with any
fuel, leaves fewer bytes than it found and, from a buffer of at most one byte, an empty one. -/
lemma decode_consumes : ∀ k,
    (∀ t d v d', decode k t d = .ok (v, d') → Consumes d d') ∧
    (∀ d acc vs d', decodeItems k d acc = .ok (vs, d') → Consumes d d') ∧
    (∀ d m kvs d', decodeEntries k d m = .ok (kvs, d') → Consumes d d')
  | 0 => ⟨fun _ _ _ _ h => by simp [decode] at h, fun _ _ _ _ h => by simp [decodeItems] at h,
      fun _ _ _ _ h => by simp [decodeEntries] at h⟩
  | k + 1 => by
    obtain ⟨ih, ihItems, ihEntries⟩ := decode_consumes k
    refine ⟨fun t d v d' h => ?_, fun d acc vs d' h => ?_, fun d m kvs d' h => ?_⟩
    · obtain ⟨b, d₁, hr, ⟨-, hi⟩ | ⟨-, -, vs, hi, -⟩ | ⟨-, -, kvs, he, -⟩ | ⟨-, hs⟩⟩ := decode_ok h
      · exact (readByte_consumes hr).trans (decodeInt_ok hi)
      · exact (readByte_consumes hr).trans (ihItems _ _ _ _ hi)
      · exact (readByte_consumes hr).trans (ihEntries _ _ _ _ he)
      · -- the digit read is pushed back for `decodeString`
        obtain ⟨hs', hb'⟩ := decodeString_ok hs
        obtain ⟨hr', hb⟩ := readByte_ok hr
        refine ⟨by simp only [unreadByte_size] at hs'; omega, fun h1 => hb' ?_⟩
        simp [unreadByte, hb h1]
    · obtain ⟨b, d₁, hp, ⟨-, rfl, rfl⟩ | ⟨-, v, d₂, hv, hi⟩⟩ := decodeItems_ok h
      · obtain ⟨hs, hb⟩ := peekByte_skip hp
        exact ⟨by omega, hb⟩
      · exact Consumes.of_peekByte hp ((ih _ _ _ _ hv).trans (ihItems _ _ _ _ hi))
    · obtain ⟨b, d₁, hp, ⟨-, rfl, rfl⟩ | ⟨-, key, d₂, val, d₃, hk, hv, he⟩⟩ := decodeEntries_ok h
      · obtain ⟨hs, hb⟩ := peekByte_skip hp
        exact ⟨by omega, hb⟩
      · exact Consumes.of_peekByte hp
          (((ih _ _ _ _ hk).trans (ih _ _ _ _ hv)).trans (ihEntries _ _ _ _ he))

/-! ## The fuel never runs out -/

lemma invalidInteger_ne_fuel (e : String) : "invalid bencode: invalid integer: " ++ e ≠ "out of fuel" :=
  fun h => by simpa using congrArg (fun x : String => x.data.head?) h

lemma unexpectedByte_ne_fuel (e : String) : "invalid bencode: unexpected byte " ++ e ≠ "out of fuel" :=
  fun h => by simpa using congrArg (fun x : String => x.data.head?) h

/-- `decodeInt` fails only with Go's errors. -/
lemma decodeInt_error {t : Target} {e : String} (h : decodeInt t d = .err e) :
    e ≠ "out of fuel" := by
  unfold decodeInt at h
  split at h
  · rename_i e' hu
    cases h
    rw [readUntilLoop_error hu]
    decide
  · split at h
    · cases h
      exact invalidInteger_ne_fuel _
    · split_ifs at h with ht
      cases h
      cases t
      · exact absurd rfl ht
      · decide
      · decide

/-- `decodeString` fails only with Go's errors. -/
lemma decodeString_error {t : Target} {e : String} (h : decodeString t d = .err e) :
    e ≠ "out of fuel" := by
  unfold decodeString at h
  split at h
  · rename_i e' hu
    cases h
    rw [readUntilLoop_error hu]
    decide
  · split at h
    · cases h
      decide
    · split_ifs at h <;> (try split at h) <;> cases h <;>
        first | decide | (rcases readFull_error ‹_› with rfl | rfl <;> decide)

/-- The one panic of `decodeString` is `make`'s, for a declared length past `maxAlloc`. -/
lemma decodeString_panic {t : Target} {e : String} (h : decodeString t d = .panic e) :
    e = "runtime error: makeslice: len out of range" := by
  unfold decodeString at h
  split at h
  · cases h
  · split at h
    · cases h
    · split_ifs at h <;> (try split at h) <;> cases h
      rfl

lemma decodeInt_ne_panic {t : Target} {e : String} : decodeInt t d ≠ .panic e := by
  unfold decodeInt
  split
  · exact fun h => by cases h
  · split
    · exact fun h => by cases h
    · split_ifs <;> exact fun h => by cases h

/-- **The one panic.**  Whatever the fuel, a panic of `decode` or of its loops is `make`'s, for a
string whose declared length is past `maxAlloc`. -/
lemma decode_panic : ∀ k,
    (∀ t d e, decode k t d = .panic e → e = "runtime error: makeslice: len out of range") ∧
    (∀ d acc e, decodeItems k d acc = .panic e → e = "runtime error: makeslice: len out of range") ∧
    (∀ d m e, decodeEntries k d m = .panic e → e = "runtime error: makeslice: len out of range")
  | 0 => ⟨fun _ _ _ h => by simp [decode] at h, fun _ _ _ h => by simp [decodeItems] at h,
      fun _ _ _ h => by simp [decodeEntries] at h⟩
  | k + 1 => by
    obtain ⟨ih, ihItems, ihEntries⟩ := decode_panic k
    refine ⟨fun t d e h => ?_, fun d acc e h => ?_, fun d m e h => ?_⟩
    · rw [decode] at h
      cases hr : d.readByte with
      | error => simp [hr] at h
      | ok bd =>
        simp only [hr] at h
        split_ifs at h
        all_goals first
          | exact absurd h decodeInt_ne_panic
          | exact decodeString_panic h
          | (split at h <;> cases h
             first | exact ihItems _ _ _ ‹_› | exact ihEntries _ _ _ ‹_›)
    · rw [decodeItems] at h
      cases hp : d.peekByte with
      | error => simp [hp] at h
      | ok bd =>
        simp only [hp] at h
        split_ifs at h
        split at h
        · cases h
        · cases h; exact ih _ _ _ ‹_›
        · exact ihItems _ _ _ h
    · rw [decodeEntries] at h
      cases hp : d.peekByte with
      | error => simp [hp] at h
      | ok bd =>
        simp only [hp] at h
        split_ifs at h
        split at h
        · cases h
        · cases h; exact ih _ _ _ ‹_›
        · split at h
          · cases h
          · cases h; exact ih _ _ _ ‹_›
          · exact ihEntries _ _ _ h

/-- **The fuel never runs out.**  With at least twice the bytes left plus one for a call, and
plus two for a loop, one more unit of fuel changes nothing, and the result is not the fuel
error. -/
lemma decode_fuel : ∀ k,
    (∀ t d, 2 * d.size + 1 ≤ k → decode (k + 1) t d = decode k t d ∧ decode k t d ≠ .err "out of fuel") ∧
    (∀ d acc, 2 * d.size + 2 ≤ k →
      decodeItems (k + 1) d acc = decodeItems k d acc ∧ decodeItems k d acc ≠ .err "out of fuel") ∧
    (∀ d m, 2 * d.size + 2 ≤ k →
      decodeEntries (k + 1) d m = decodeEntries k d m ∧ decodeEntries k d m ≠ .err "out of fuel")
  | 0 => ⟨fun _ _ h => by omega, fun _ _ h => by omega, fun _ _ h => by omega⟩
  | k + 1 => by
    obtain ⟨ih, ihItems, ihEntries⟩ := decode_fuel k
    refine ⟨fun t d hk => ?_, fun d acc hk => ?_, fun d m hk => ?_⟩
    · rw [decode, decode]
      cases hr : d.readByte with
      | error e => exact ⟨rfl, fun h => by cases h; exact absurd (readByte_error hr) (by decide)⟩
      | ok bd =>
        have hs := (readByte_ok hr).1
        dsimp only
        split_ifs
        · exact ⟨rfl, fun h => decodeInt_error h rfl⟩
        · obtain ⟨he, hne⟩ := ihItems bd.2 [] (by omega)
          rw [he]
          refine ⟨rfl, ?_⟩
          cases hi : decodeItems k bd.2 [] with
          | ok => exact fun h => by cases h
          | err e => exact fun h => hne (by rw [hi]; cases h; rfl)
          | panic => exact fun h => by cases h
        · refine ⟨rfl, fun h => ?_⟩
          have := Outcome.err.inj h
          revert this
          cases t <;> decide
        · exact ⟨rfl, fun h => absurd (Outcome.err.inj h) (by decide)⟩
        · obtain ⟨he, hne⟩ := ihEntries bd.2 [] (by omega)
          rw [he]
          refine ⟨rfl, ?_⟩
          cases hi : decodeEntries k bd.2 [] with
          | ok => exact fun h => by cases h
          | err e => exact fun h => hne (by rw [hi]; cases h; rfl)
          | panic => exact fun h => by cases h
        · exact ⟨rfl, fun h => decodeString_error h rfl⟩
        · exact ⟨rfl, fun h => unexpectedByte_ne_fuel _ (Outcome.err.inj h)⟩
    · rw [decodeItems, decodeItems]
      cases hp : d.peekByte with
      | error e => exact ⟨rfl, fun h => by cases h; exact absurd (peekByte_error hp) (by decide)⟩
      | ok bd =>
        have hs := (peekByte_ok hp).1
        dsimp only
        split_ifs
        · exact ⟨rfl, fun h => by cases h⟩
        · obtain ⟨he, hne⟩ := ih .iface bd.2 (by omega)
          rw [he]
          cases hv : decode k .iface bd.2 with
          | err e => exact ⟨rfl, fun h => hne (by rw [hv]; cases h; rfl)⟩
          | panic => exact ⟨rfl, fun h => by cases h⟩
          | ok vd =>
            have hc := (decode_consumes k).1 _ _ _ _ hv
            exact ihItems vd.2 _ (by unfold Consumes at hc; omega)
    · rw [decodeEntries, decodeEntries]
      cases hp : d.peekByte with
      | error e => exact ⟨rfl, fun h => by cases h; exact absurd (peekByte_error hp) (by decide)⟩
      | ok bd =>
        have hs := (peekByte_ok hp).1
        dsimp only
        split_ifs
        · exact ⟨rfl, fun h => by cases h⟩
        · obtain ⟨he, hne⟩ := ih .string bd.2 (by omega)
          rw [he]
          cases hk : decode k .string bd.2 with
          | err e => exact ⟨rfl, fun h => hne (by rw [hk]; cases h; rfl)⟩
          | panic => exact ⟨rfl, fun h => by cases h⟩
          | ok kd =>
            have hc := (decode_consumes k).1 _ _ _ _ hk
            obtain ⟨he', hne'⟩ := ih .iface kd.2 (by unfold Consumes at hc; omega)
            dsimp only
            rw [he']
            cases hv : decode k .iface kd.2 with
            | err e => exact ⟨rfl, fun h => hne' (by rw [hv]; cases h; rfl)⟩
            | panic => exact ⟨rfl, fun h => by cases h⟩
            | ok vd =>
              have hc' := (decode_consumes k).1 _ _ _ _ hv
              exact ihEntries vd.2 _ (by unfold Consumes at hc hc'; omega)

/-- From the bound on, the fuel changes no result. -/
lemma decode_fuel_stable {t : Target} {k : Nat} (hk : 2 * d.size + 1 ≤ k) :
    decode k t d = decode (2 * d.size + 1) t d := by
  induction k, hk using Nat.le_induction with
  | base => rfl
  | succ k hk ih => rw [((decode_fuel k).1 t d hk).1, ih]

/-! ## One iteration of each loop -/

/-- One iteration of `decodeList`'s loop: past a byte that is not `e`, an item is decoded, and
the loop goes on from fewer bytes. -/
lemma decodeItems_iteration {k : Nat} {d₁ d₂ : Decoder} {acc : List Value} {v : Value}
    (hp : d.peekByte = .ok (b, d₁)) (hb : b ≠ 101) (hv : decode k .iface d₁ = .ok (v, d₂)) :
    decodeItems (k + 1) d acc = decodeItems k d₂ (acc ++ [v]) ∧ d₂.size < d.size := by
  refine ⟨by simp [decodeItems, hp, hb, hv], ?_⟩
  have h₁ := (peekByte_ok hp).1
  have h₂ := ((decode_consumes k).1 _ _ _ _ hv).1
  omega

/-- One iteration of `decodeDict`'s loop: past a byte that is not `e`, a key and a value are
decoded, and the loop goes on from fewer bytes. -/
lemma decodeEntries_iteration {k : Nat} {d₁ d₂ d₃ : Decoder} {m : List (Bytes × Value)}
    {key val : Value} (hp : d.peekByte = .ok (b, d₁)) (hb : b ≠ 101)
    (hk : decode k .string d₁ = .ok (key, d₂)) (hv : decode k .iface d₂ = .ok (val, d₃)) :
    decodeEntries (k + 1) d m = decodeEntries k d₃ (mapInsert (keyOf key) val m) ∧
      d₃.size < d.size := by
  refine ⟨by simp [decodeEntries, hp, hb, hk, hv], ?_⟩
  have h₁ := (peekByte_ok hp).1
  have h₂ := ((decode_consumes k).1 _ _ _ _ hk).1
  have h₃ := ((decode_consumes k).1 _ _ _ _ hv).1
  omega

end Decoder

/-- **A long declared length panics.**  `decodeString` calls `make([]byte, length)` before it
reads the string, so a length past `maxAlloc` (and below `2^63`, so that `ParseInt` accepts it)
panics whatever follows the `:`, for every target. -/
theorem decode_long_string_panics {n : Nat} (h₁ : maxAlloc < n) (h₂ : n < 2 ^ 63) (t : Target)
    (rest : Bytes) :
    decode (formatNat n ++ 58 :: rest) t = .panic "runtime error: makeslice: len out of range" := by
  obtain ⟨c, cs, hcs, -⟩ := formatNat_canonical n
  have hc : isDigit c = true := formatNat_isDigit n c (hcs ▸ List.mem_cons_self _ _)
  have hds : Decoder.decodeString t ⟨[], formatNat n ++ 58 :: rest⟩ =
      .panic "runtime error: makeslice: len out of range" := by
    rw [Decoder.decodeString, Decoder.readUntil_delim (not_mem_formatNat (by decide) _)]
    dsimp only
    rw [parseInt_formatNat h₂]
    dsimp only
    rw [if_neg (by omega), if_pos (by omega)]
  unfold decode
  rw [hcs, List.cons_append, decode_digit _ t hc, ← List.cons_append, ← hcs, hds]

theorem decode_long_string_panics_sample :
    maxAlloc < 281474976710657 ∧ 281474976710657 < 2 ^ 63 ∧
      decode (bytesOf "281474976710657:") .iface = .panic "runtime error: makeslice: len out of range" :=
  ⟨by decide, by decide, by
    rw [show bytesOf "281474976710657:" = formatNat 281474976710657 ++ 58 :: [] by decide]
    exact decode_long_string_panics (by decide) (by decide) .iface []⟩

end BitTorrent.Bencode
