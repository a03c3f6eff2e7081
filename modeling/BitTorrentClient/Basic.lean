import Mathlib.Data.List.Basic
import Mathlib.Algebra.Order.Ring.Nat

/-!
# Bytes, Go outcomes, bitfields and big-endian integers

The few pieces of Go's runtime and standard library that every package of the client leans on.

* `Bytes` is a Go `[]byte` (and a Go `string`, which is an immutable byte sequence).  A `nil`
  slice and an empty one are the same value here; where the code tells them apart (a peer's
  bitfield before its first BITFIELD message) the model uses `Option Bytes`.
* `Outcome` is how a Go call ends: a value, a returned `error`, or a runtime **panic**.
* `wrap64` is Go's `int64` arithmetic on the mathematical result: it wraps modulo `2^64` into
  `[-2^63, 2^63)`; `wrap64_of_lt` says a result that fits is left alone.
* `bitfieldHas` / `bitfieldSet` are the one bitfield layout all packages share: bit `i` lives in
  byte `i / 8` under the mask `1 << (7 - i % 8)`, and an index past the slice is ignored.
  Their lemma `bitfieldHas_bitfieldSet` is the only fact about the bit arithmetic the rest of the
  development uses.
* `bytesOf` is `[]byte(s)` of a string literal, `Bytes.toGoString` the other way, for error
  messages.
* `putUint32` / `uint32` model `binary.BigEndian`; `uint32_putUint32` is their round trip.
* `readFull` is `io.ReadFull` on a reader holding a known byte sequence.
-/

namespace BitTorrent

/-- A Go `[]byte`, or a Go `string`. -/
abbrev Bytes := List UInt8

/-- How a Go call ends.  `err` is a returned `error` value; `panic` is a runtime panic (the
process dies).  Where a function can also return a value alongside an error, the value is
part of `α`. -/
inductive Outcome (α : Type) where
  | ok (a : α)
  | err (msg : String)
  | panic (msg : String)
  deriving Repr, DecidableEq

/-- The Go runtime's largest allocation on 64-bit Linux, `1 << 48` bytes: `make` of a longer
slice panics, and no slice or string is longer. -/
def maxAlloc : Nat := 281474976710656

/-- Go slice indexing `xs[i]`: the element, or the runtime panic for an index out of range. -/
def goIndex {α : Type} (xs : List α) (i : Nat) : Outcome α :=
  match xs[i]? with
  | some a => .ok a
  | none => .panic s!"runtime error: index out of range [{i}] with length {xs.length}"

theorem goIndex_of_lt {α : Type} {xs : List α} {i : Nat} (h : i < xs.length) :
    goIndex xs i = .ok (xs.get ⟨i, h⟩) := by
  simp [goIndex, List.getElem?_eq_getElem h]

theorem goIndex_of_le {α : Type} {xs : List α} {i : Nat} (h : xs.length ≤ i) :
    goIndex xs i = .panic s!"runtime error: index out of range [{i}] with length {xs.length}" := by
  simp [goIndex, List.getElem?_eq_none h]

/-! ## Go's `int64` -/

/-- Go's `int64` arithmetic: the exact result taken modulo `2^64` into `[-2^63, 2^63)`. -/
def wrap64 (x : Int) : Int :=
  (x + 9223372036854775808) % 18446744073709551616 - 9223372036854775808

/-- A result that fits an `int64` does not wrap. -/
lemma wrap64_of_lt {x : Int} (h₀ : -9223372036854775808 ≤ x) (h₁ : x < 9223372036854775808) :
    wrap64 x = x := by
  unfold wrap64; omega

/-- Every `int64` result lies in `[-2^63, 2^63)`. -/
lemma wrap64_mem (x : Int) :
    -9223372036854775808 ≤ wrap64 x ∧ wrap64 x < 9223372036854775808 := by
  unfold wrap64; omega

example : wrap64 9223372036854775808 = -9223372036854775808 := by decide

/-! ## Bitfields -/

/-- The mask of bit `i` inside its byte: `1 << (7 - i % 8)`. -/
def bitMask (i : Nat) : UInt8 := 1 <<< (7 - i % 8).toUInt8

/-- Whether bit `i` of `bf` is set; an index past the slice reads as unset. -/
def bitfieldHas (bf : Bytes) (i : Nat) : Bool :=
  if i / 8 < bf.length then bf.getD (i / 8) 0 &&& bitMask i != 0 else false

/-- `bf[i/8] |= 1 << (7 - i%8)` when `i / 8 < len(bf)`, and nothing otherwise. -/
def bitfieldSet (bf : Bytes) (i : Nat) : Bytes :=
  if i / 8 < bf.length then bf.set (i / 8) (bf.getD (i / 8) 0 ||| bitMask i) else bf

lemma bitMask_toNat (i : Nat) : (bitMask i).toNat = 2 ^ (7 - i % 8) := by
  have key : ∀ k : Fin 8, ((1 : UInt8) <<< (7 - k.val).toUInt8).toNat = 2 ^ (7 - k.val) := by
    decide
  exact key ⟨i % 8, Nat.mod_lt _ (by decide)⟩

lemma UInt8.toNat_lor (a b : UInt8) : (a ||| b).toNat = a.toNat ||| b.toNat :=
  BitVec.toNat_or _ _

/-- A byte meets the mask of bit `k < 8` exactly when its bit `k` (counted from the least
significant end) is set. -/
lemma and_two_pow_ne_zero (x k : Nat) : x &&& 2 ^ k ≠ 0 ↔ x.testBit k = true := by
  constructor
  · intro h
    obtain ⟨j, hj⟩ := Nat.ne_zero_implies_bit_true h
    rw [Nat.testBit_and, Nat.testBit_two_pow, Bool.and_eq_true, decide_eq_true_eq] at hj
    exact hj.2 ▸ hj.1
  · intro h h0
    have := congrArg (Nat.testBit · k) h0
    simp [Nat.testBit_two_pow_self, h] at this

lemma byte_has_iff (b : UInt8) (i : Nat) :
    (b &&& bitMask i != 0) = b.toNat.testBit (7 - i % 8) := by
  have hb : (b &&& bitMask i != 0) = true ↔ (b.toNat &&& 2 ^ (7 - i % 8) ≠ 0) := by
    rw [bne_iff_ne, ne_eq, ne_eq, ← bitMask_toNat, ← UInt8.and_toNat]
    exact ⟨fun h h0 => h (UInt8.toNat.inj (by simpa using h0)), fun h h0 => h (by simp [h0])⟩
  rw [Bool.eq_iff_iff, hb, and_two_pow_ne_zero]

lemma byte_lor_has (b : UInt8) (i j : Nat) (hij : i / 8 = j / 8) :
    ((b ||| bitMask i) &&& bitMask j != 0) = ((b &&& bitMask j != 0) || decide (i = j)) := by
  rw [byte_has_iff, byte_has_iff, UInt8.toNat_lor, bitMask_toNat, Nat.testBit_or,
    Nat.testBit_two_pow]
  congr 1
  apply decide_eq_decide.mpr
  omega

@[simp] lemma bitfieldSet_length (bf : Bytes) (i : Nat) :
    (bitfieldSet bf i).length = bf.length := by
  unfold bitfieldSet; split <;> simp

/-- **Setting a bit.**  Inside the slice, `bitfieldSet` sets exactly bit `i`; outside it,
nothing changes. -/
theorem bitfieldHas_bitfieldSet (bf : Bytes) (i j : Nat) :
    bitfieldHas (bitfieldSet bf i) j = (bitfieldHas bf j || (decide (i = j) && i / 8 < bf.length)) := by
  unfold bitfieldSet
  split
  · rename_i hi
    unfold bitfieldHas
    simp only [List.length_set, List.getD_eq_getElem?_getD, List.getElem?_set]
    by_cases hij : i / 8 = j / 8
    · simp only [hij, if_true] at hi ⊢
      simp [hi, byte_lor_has _ _ _ hij, List.getElem?_eq_getElem hi]
    · have hne : i ≠ j := fun h => hij (h ▸ rfl)
      simp [hij, hne]
  · rename_i hi
    have : ¬ (decide (i = j) && decide (i / 8 < bf.length)) = true := by simp [hi]
    simp [hi]

@[simp] lemma bitfieldHas_replicate_zero (k j : Nat) :
    bitfieldHas (List.replicate k 0) j = false := by
  unfold bitfieldHas
  split
  · rename_i h
    rw [List.length_replicate] at h
    rw [byte_has_iff]
    simp [List.getElem?_replicate, h]
  · rfl

/-! ## Go strings -/

/-- `[]byte(s)` of an ASCII string. -/
def bytesOf (s : String) : Bytes := s.toList.map fun c => c.toNat.toUInt8

/-- Render a Go string in an error message. -/
def Bytes.toGoString (b : Bytes) : String := String.mk (b.map fun c => Char.ofNat c.toNat)

/-! ## `encoding/binary.BigEndian` -/

/-- `binary.BigEndian.PutUint32`: the four bytes of `x`, most significant first. -/
def putUint32 (x : UInt32) : Bytes :=
  [(x >>> 24).toUInt8, (x >>> 16).toUInt8, (x >>> 8).toUInt8, x.toUInt8]

/-- `binary.BigEndian.Uint32` on the first four bytes of a slice (the callers only pass slices
of length at least four). -/
def uint32 : Bytes → UInt32
  | b0 :: b1 :: b2 :: b3 :: _ =>
      (b0.toUInt32 <<< 24) ||| (b1.toUInt32 <<< 16) ||| (b2.toUInt32 <<< 8) ||| b3.toUInt32
  | _ => 0

/-- `binary.BigEndian.PutUint16`. -/
def putUint16 (x : UInt16) : Bytes := [(x >>> 8).toUInt8, x.toUInt8]

/-- `binary.BigEndian.Uint16` on the first two bytes of a slice. -/
def uint16 : Bytes → UInt16
  | b0 :: b1 :: _ => (b0.toUInt16 <<< 8) ||| b1.toUInt16
  | _ => 0

@[simp] lemma putUint32_length (x : UInt32) : (putUint32 x).length = 4 := rfl

@[simp] lemma putUint16_length (x : UInt16) : (putUint16 x).length = 2 := rfl

lemma uint32_append (x : UInt32) (rest : Bytes) : uint32 (putUint32 x ++ rest) = uint32 (putUint32 x) :=
  rfl

/-! ### The machine operations as `Nat` arithmetic -/

lemma UInt32.toNat_lor (a b : UInt32) : (a ||| b).toNat = a.toNat ||| b.toNat :=
  BitVec.toNat_or _ _

lemma UInt32.toNat_shr (x k : UInt32) (hk : k.toNat < 32) :
    (x >>> k).toNat = x.toNat / 2 ^ k.toNat := by
  show (x.toBitVec >>> (UInt32.mod k 32).toBitVec).toNat = _
  have : (UInt32.mod k 32).toBitVec.toNat = k.toNat := by
    show k.toNat % 32 = k.toNat
    omega
  simp [this, Nat.shiftRight_eq_div_pow]; rfl

lemma UInt32.toNat_shl (x k : UInt32) (hk : k.toNat < 32) :
    (x <<< k).toNat = x.toNat * 2 ^ k.toNat % 2 ^ 32 := by
  show (x.toBitVec <<< (UInt32.mod k 32).toBitVec).toNat = _
  have : (UInt32.mod k 32).toBitVec.toNat = k.toNat := by
    show k.toNat % 32 = k.toNat
    omega
  simp [this, Nat.shiftLeft_eq]; rfl

lemma UInt32.toNat_toUInt8 (x : UInt32) : x.toUInt8.toNat = x.toNat % 256 := by
  show (BitVec.ofNat 8 x.toNat).toNat = _
  simp

lemma UInt8.toNat_toUInt32 (x : UInt8) : x.toUInt32.toNat = x.toNat := rfl

lemma UInt8.toNat_toUInt16 (x : UInt8) : x.toUInt16.toNat = x.toNat := rfl

lemma UInt16.toNat_lor (a b : UInt16) : (a ||| b).toNat = a.toNat ||| b.toNat :=
  BitVec.toNat_or _ _

lemma UInt16.toNat_shr8 (x : UInt16) : (x >>> 8).toNat = x.toNat / 2 ^ 8 := by
  show (x.toBitVec >>> (UInt16.mod 8 16).toBitVec).toNat = _
  simp [Nat.shiftRight_eq_div_pow]; rfl

lemma UInt16.toNat_shl8 (x : UInt16) : (x <<< 8).toNat = x.toNat * 2 ^ 8 % 2 ^ 16 := by
  show (x.toBitVec <<< (UInt16.mod 8 16).toBitVec).toNat = _
  simp [Nat.shiftLeft_eq]; rfl

lemma UInt16.toNat_toUInt8 (x : UInt16) : x.toUInt8.toNat = x.toNat % 256 := by
  show (BitVec.ofNat 8 x.toNat).toNat = _
  simp

lemma or_eq_add {i b : Nat} (a : Nat) (h : b < 2 ^ i) : 2 ^ i * a ||| b = 2 ^ i * a + b :=
  (Nat.mul_add_lt_is_or h a).symm

/-- **Big-endian round trip.**  `Uint32` reads back what `PutUint32` wrote. -/
theorem uint32_putUint32 (x : UInt32) : uint32 (putUint32 x) = x := by
  apply UInt32.toNat.inj
  have h : x.toNat < 2 ^ 32 := x.toNat_lt_size
  simp only [putUint32, uint32, UInt32.toNat_lor, UInt8.toNat_toUInt32, UInt32.toNat_toUInt8,
    UInt32.toNat_shl _ _ (by decide : (24 : UInt32).toNat < 32),
    UInt32.toNat_shl _ _ (by decide : (16 : UInt32).toNat < 32),
    UInt32.toNat_shl _ _ (by decide : (8 : UInt32).toNat < 32),
    UInt32.toNat_shr _ _ (by decide : (24 : UInt32).toNat < 32),
    UInt32.toNat_shr _ _ (by decide : (16 : UInt32).toNat < 32),
    UInt32.toNat_shr _ _ (by decide : (8 : UInt32).toNat < 32)]
  generalize x.toNat = n at *
  have e3 : n / 2 ^ UInt32.toNat 24 % 256 * 2 ^ UInt32.toNat 24 % 2 ^ 32
      = 2 ^ 24 * (n / 2 ^ 24 % 256) := by
    simp only [show UInt32.toNat 24 = 24 from rfl]; omega
  have e2 : n / 2 ^ UInt32.toNat 16 % 256 * 2 ^ UInt32.toNat 16 % 2 ^ 32
      = n / 2 ^ 16 % 256 * 2 ^ 16 := by
    simp only [show UInt32.toNat 16 = 16 from rfl]; omega
  have e1 : n / 2 ^ UInt32.toNat 8 % 256 * 2 ^ UInt32.toNat 8 % 2 ^ 32
      = n / 2 ^ 8 % 256 * 2 ^ 8 := by
    simp only [show UInt32.toNat 8 = 8 from rfl]; omega
  rw [e3, e2, e1, or_eq_add _ (by omega),
    show 2 ^ 24 * (n / 2 ^ 24 % 256) + n / 2 ^ 16 % 256 * 2 ^ 16
      = 2 ^ 16 * (2 ^ 8 * (n / 2 ^ 24 % 256) + n / 2 ^ 16 % 256) by omega,
    or_eq_add _ (by omega),
    show 2 ^ 16 * (2 ^ 8 * (n / 2 ^ 24 % 256) + n / 2 ^ 16 % 256) + n / 2 ^ 8 % 256 * 2 ^ 8
      = 2 ^ 8 * (2 ^ 16 * (n / 2 ^ 24 % 256) + 2 ^ 8 * (n / 2 ^ 16 % 256) + n / 2 ^ 8 % 256)
      by omega,
    or_eq_add _ (by omega)]
  omega

/-- `Uint16` reads back what `PutUint16` wrote. -/
theorem uint16_putUint16 (x : UInt16) : uint16 (putUint16 x) = x := by
  apply UInt16.toNat.inj
  have h : x.toNat < 2 ^ 16 := x.toNat_lt_size
  simp only [putUint16, uint16, UInt16.toNat_lor, UInt8.toNat_toUInt16, UInt16.toNat_toUInt8,
    UInt16.toNat_shl8, UInt16.toNat_shr8]
  rw [show x.toNat / 2 ^ 8 % 256 * 2 ^ 8 % 2 ^ 16 = 2 ^ 8 * (x.toNat / 2 ^ 8) by omega,
    or_eq_add _ (by omega)]
  omega

/-! ## `io.ReadFull` -/

/-- `io.ReadFull(r, buf)` with `len(buf) = n`, on a reader that still holds the bytes `r`: the
bytes read and the rest, `io.EOF` if nothing was left, `io.ErrUnexpectedEOF` if too little. -/
def readFull (r : Bytes) (n : Nat) : Except String (Bytes × Bytes) :=
  if n ≤ r.length then .ok (r.take n, r.drop n)
  else if r = [] then .error "EOF" else .error "unexpected EOF"

lemma readFull_append {a : Bytes} (rest : Bytes) : readFull (a ++ rest) a.length = .ok (a, rest) := by
  simp [readFull]

lemma readFull_length {r a r' : Bytes} {n : Nat} (h : readFull r n = .ok (a, r')) : a.length = n := by
  unfold readFull at h
  split_ifs at h with hn
  cases h
  simpa using hn

end BitTorrent
