import BitTorrentClient.Basic
import Mathlib.Tactic.IntervalCases

/-!
# Bencode values and the encoder

`internal/bencode`: the values the decoder builds into an `interface{}` (an `int64`, a string,
a `[]interface{}` or a `map[string]interface{}`), and `Encoder.encode` of such a value.

A Go map has no order.  It is represented here by its entries in strictly ascending key order
(`Value.WF`), which makes equal maps equal values; `encodeDict` sorts the keys before writing
them, so on this representation it writes the entries in list order.

Numbers are written by `fmt`'s `%d`: `formatNat` gives the decimal digits, `formatInt` adds the
sign.  `digitsValue` reads digits back, and `digitsValue_formatNat` is the round trip the
decoder's proofs rest on; `formatNat_canonical` says the digits never start with a needless
zero.
-/

namespace BitTorrent.Bencode

/-- A decoded bencode value. -/
inductive Value where
  | int (n : Int)
  | str (s : Bytes)
  | list (vs : List Value)
  | dict (kvs : List (Bytes × Value))
  deriving Repr

/-- Go's `<` on strings: bytewise lexicographic order. -/
def bytesLt : Bytes → Bytes → Bool
  | [], [] => false
  | [], _ :: _ => true
  | _ :: _, [] => false
  | a :: as, b :: bs => a < b || (a = b && bytesLt as bs)

/-- A value Go can hold: an `int64`, strings no longer than the runtime allocates (`maxAlloc`),
and maps (strictly ascending keys, so each key once). -/
inductive Value.WF : Value → Prop
  | int {n : Int} : -2 ^ 63 ≤ n → n < 2 ^ 63 → WF (.int n)
  | str {s : Bytes} : s.length ≤ maxAlloc → WF (.str s)
  | list {vs : List Value} : (∀ v ∈ vs, WF v) → WF (.list vs)
  | dict {kvs : List (Bytes × Value)} : (kvs.map (·.1)).Pairwise (bytesLt · ·) →
      (∀ kv ∈ kvs, kv.1.length ≤ maxAlloc) → (∀ kv ∈ kvs, WF kv.2) → WF (.dict kvs)

/-! ## The key order -/

lemma bytesLt_irrefl : ∀ s : Bytes, bytesLt s s = false
  | [] => rfl
  | a :: s => by simp [bytesLt, UInt8.lt_irrefl a, bytesLt_irrefl s]

lemma bytesLt_trans : ∀ {a b c : Bytes}, bytesLt a b → bytesLt b c → bytesLt a c
  | [], [], _, h, _ | [], _ :: _, [], _, h | _ :: _, [], _, h, _ | _ :: _, _ :: _, [], _, h => by
    simp [bytesLt] at h
  | [], _ :: _, _ :: _, _, _ => rfl
  | x :: a, y :: b, z :: c, h₁, h₂ => by
    simp only [bytesLt, Bool.or_eq_true, decide_eq_true_eq, Bool.and_eq_true] at h₁ h₂ ⊢
    rcases h₁ with h₁ | ⟨rfl, h₁⟩ <;> rcases h₂ with h₂ | ⟨rfl, h₂⟩
    · exact .inl (Nat.lt_trans h₁ h₂)
    · exact .inl h₁
    · exact .inl h₂
    · exact .inr ⟨rfl, bytesLt_trans h₁ h₂⟩

lemma bytesLt_trichotomy : ∀ a b : Bytes, bytesLt a b ∨ a = b ∨ bytesLt b a
  | [], [] => .inr (.inl rfl)
  | [], _ :: _ => .inl rfl
  | _ :: _, [] => .inr (.inr rfl)
  | x :: a, y :: b => by
    rcases Nat.lt_trichotomy x.toNat y.toNat with h | h | h
    · exact .inl (by simp [bytesLt, show x < y from h])
    · obtain rfl := UInt8.toNat.inj h
      rcases bytesLt_trichotomy a b with h' | rfl | h'
      · exact .inl (by simp [bytesLt, h'])
      · exact .inr (.inl rfl)
      · exact .inr (.inr (by simp [bytesLt, h']))
    · exact .inr (.inr (by simp [bytesLt, show y < x from h]))

/-! ## Decimal numbers -/

/-- An ASCII decimal digit. -/
def isDigit (c : UInt8) : Bool := 48 ≤ c && c ≤ 57

/-- The character of the decimal digit `d`. -/
def digitChar (d : Nat) : UInt8 := (d + 48).toUInt8

/-- The decimal digits of `n`, most significant first; `k` bounds the recursion. -/
def formatNatAux : Nat → Nat → Bytes
  | 0, n => [digitChar (n % 10)]
  | k + 1, n => if n < 10 then [digitChar n] else formatNatAux k (n / 10) ++ [digitChar (n % 10)]

/-- The decimal digits of `n`. -/
def formatNat (n : Nat) : Bytes := formatNatAux n n

/-- `fmt`'s `%d` of an integer. -/
def formatInt (n : Int) : Bytes := if n < 0 then 45 :: formatNat n.natAbs else formatNat n.toNat

/-- The number a string of digits denotes. -/
def digitsValue (ds : Bytes) : Nat := ds.foldl (fun a c => 10 * a + (c.toNat - 48)) 0

lemma isDigit_iff {c : UInt8} : isDigit c = true ↔ 48 ≤ c.toNat ∧ c.toNat ≤ 57 := by
  simp only [isDigit, Bool.and_eq_true, decide_eq_true_eq]
  rfl

/-- A digit is none of the bytes that mark bencode's structure. -/
lemma isDigit_ne {c : UInt8} (h : isDigit c = true) (b : UInt8) (hb : b.toNat < 48 ∨ 57 < b.toNat) :
    c ≠ b := by
  rintro rfl
  rw [isDigit_iff] at h
  omega

lemma le_foldl_digits (ds : Bytes) (n : Nat) :
    n ≤ ds.foldl (fun a c => 10 * a + (c.toNat - 48)) n := by
  induction ds generalizing n with
  | nil => exact le_rfl
  | cons c ds ih => exact le_trans (show n ≤ 10 * n + (c.toNat - 48) by omega) (ih _)

lemma formatNatAux_congr : ∀ (k₁ k₂ n : Nat), n ≤ k₁ → n ≤ k₂ → formatNatAux k₁ n = formatNatAux k₂ n
  | 0, 0, _, _, _ => rfl
  | 0, _ + 1, n, h, _ => by obtain rfl : n = 0 := by omega
                            rfl
  | _ + 1, 0, n, _, h => by obtain rfl : n = 0 := by omega
                            rfl
  | k₁ + 1, k₂ + 1, n, h₁, h₂ => by
    simp only [formatNatAux]
    split_ifs with hn
    · rfl
    · rw [formatNatAux_congr k₁ k₂ (n / 10) (by omega) (by omega)]

lemma formatNat_of_lt {n : Nat} (h : n < 10) : formatNat n = [digitChar n] := by
  unfold formatNat
  cases n with
  | zero => rfl
  | succ k => simp [formatNatAux, h]

lemma formatNat_of_ge {n : Nat} (h : 10 ≤ n) :
    formatNat n = formatNat (n / 10) ++ [digitChar (n % 10)] := by
  obtain ⟨k, rfl⟩ : ∃ k, n = k + 1 := ⟨n - 1, by omega⟩
  simp only [formatNat, formatNatAux, if_neg (show ¬ k + 1 < 10 by omega)]
  rw [formatNatAux_congr k ((k + 1) / 10) _ (by omega) le_rfl]

lemma digitChar_toNat {d : Nat} (h : d < 10) : (digitChar d).toNat = d + 48 :=
  Nat.mod_eq_of_lt (by omega)

lemma digitChar_sub {c : UInt8} (h : isDigit c = true) : digitChar (c.toNat - 48) = c := by
  rw [isDigit_iff] at h
  apply UInt8.toNat.inj
  rw [digitChar_toNat (by omega)]
  omega

lemma isDigit_digitChar {d : Nat} (h : d < 10) : isDigit (digitChar d) = true := by
  interval_cases d <;> rfl

lemma digitsValue_snoc (ds : Bytes) {d : Nat} (h : d < 10) :
    digitsValue (ds ++ [digitChar d]) = 10 * digitsValue ds + d := by
  simp [digitsValue, List.foldl_append, digitChar_toNat h]

/-- **Digits read back.** -/
theorem digitsValue_formatNat (n : Nat) : digitsValue (formatNat n) = n := by
  induction n using Nat.strong_induction_on with
  | _ n ih =>
    by_cases h : n < 10
    · rw [formatNat_of_lt h, show [digitChar n] = [] ++ [digitChar n] from rfl,
        digitsValue_snoc _ h]
      simp [digitsValue]
    · rw [formatNat_of_ge (by omega), digitsValue_snoc _ (Nat.mod_lt _ (by omega)),
        ih _ (by omega)]
      omega

lemma formatNat_isDigit (n : Nat) : ∀ c ∈ formatNat n, isDigit c = true := by
  induction n using Nat.strong_induction_on with
  | _ n ih =>
    by_cases h : n < 10
    · rw [formatNat_of_lt h]
      simpa using isDigit_digitChar h
    · rw [formatNat_of_ge (by omega)]
      intro c hc
      rcases List.mem_append.mp hc with hc | hc
      · exact ih _ (by omega) c hc
      · simp only [List.mem_singleton] at hc
        exact hc ▸ isDigit_digitChar (Nat.mod_lt _ (by omega))

/-- Canonical digits: `0` alone, or a first digit other than `0`. -/
theorem formatNat_canonical (n : Nat) :
    ∃ c cs, formatNat n = c :: cs ∧ (c = 48 → n = 0 ∧ cs = []) := by
  induction n using Nat.strong_induction_on with
  | _ n ih =>
    by_cases h : n < 10
    · refine ⟨digitChar n, [], formatNat_of_lt h, fun hc => ⟨?_, rfl⟩⟩
      have h48 : n + 48 = 48 := (digitChar_toNat h).symm.trans (congrArg UInt8.toNat hc)
      omega
    · obtain ⟨c, cs, hcs, hc⟩ := ih (n / 10) (by omega)
      refine ⟨c, cs ++ [digitChar (n % 10)], by rw [formatNat_of_ge (by omega), hcs]; rfl,
        fun h0 => ?_⟩
      have := (hc h0).1
      omega

lemma formatNat_ne_nil (n : Nat) : formatNat n ≠ [] := by
  obtain ⟨c, cs, h, -⟩ := formatNat_canonical n
  simp [h]

/-! ## The encoder -/

/-- `Encoder.encodeBytes` (and `encodeString`): the length, a colon, the bytes. -/
def encodeBytes (s : Bytes) : Bytes := formatNat s.length ++ 58 :: s

mutual
/-- `Encoder.encode` of a decoded value: `i%de`, a string, `l…e`, `d…e`. -/
def encode : Value → Bytes
  | .int n => 105 :: formatInt n ++ [101]
  | .str s => encodeBytes s
  | .list vs => 108 :: encodeList vs ++ [101]
  | .dict kvs => 100 :: encodeDict kvs ++ [101]

/-- The element loop of `encodeList`. -/
def encodeList : List Value → Bytes
  | [] => []
  | v :: vs => encode v ++ encodeList vs

/-- The entry loop of `encodeDict`, in (ascending) key order. -/
def encodeDict : List (Bytes × Value) → Bytes
  | [] => []
  | (k, v) :: kvs => encodeBytes k ++ encode v ++ encodeDict kvs
end

/-- `d1:ai-3e1:bl1:xee`. -/
example : encode (.dict [([97], .int (-3)), ([98], .list [.str [120]])]) =
    [100, 49, 58, 97, 105, 45, 51, 101, 49, 58, 98, 108, 49, 58, 120, 101, 101] := by decide

end BitTorrent.Bencode
