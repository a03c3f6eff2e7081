import BitTorrentClient.Bencode.Decode

/-!
# Decoding what the encoder wrote

`decode_encode`: started on the encoding of a value Go can hold, followed by anything, the
decoder returns the value and stops right after its encoding, with its push-back buffer empty.
The proof follows the value: an integer is read up to its `e` and parsed back
(`parseInt_formatInt`), a string's length likewise, a list item by item, a dictionary entry by
entry, where each key is larger than every key already in the map, so `mapInsert` appends it.

Every step starts from a state with an empty buffer: the byte `peekByte` pushes back is read
again at once, and `decode_buf` says a one-byte buffer behaves as that byte in front of the
reader.
-/

namespace BitTorrent.Bencode

open Decoder

/-! ## The first byte of an encoding -/

lemma encodeBytes_head (s : Bytes) : ∃ c cs, encodeBytes s = c :: cs ∧ isDigit c = true := by
  obtain ⟨c, cs, hcs, -⟩ := formatNat_canonical s.length
  exact ⟨c, cs ++ 58 :: s, by rw [encodeBytes, hcs]; rfl,
    formatNat_isDigit _ c (hcs ▸ List.mem_cons_self _ _)⟩

/-- No encoding starts with the `e` that ends a list or a dictionary. -/
lemma encode_head (v : Value) : ∃ b bs, encode v = b :: bs ∧ b ≠ 101 := by
  cases v with
  | int n => exact ⟨105, _, by rw [encode]; rfl, by decide⟩
  | str s =>
    obtain ⟨c, cs, h, hc⟩ := encodeBytes_head s
    exact ⟨c, cs, by rw [encode, h], isDigit_ne hc 101 (by decide)⟩
  | list vs => exact ⟨108, _, by rw [encode]; rfl, by decide⟩
  | dict kvs => exact ⟨100, _, by rw [encode]; rfl, by decide⟩

lemma encode_length_pos (v : Value) : 0 < (encode v).length := by
  obtain ⟨b, bs, h, -⟩ := encode_head v
  simp [h]

lemma encodeBytes_length (s : Bytes) : 2 ≤ (encodeBytes s).length := by
  obtain ⟨c, cs, hcs, -⟩ := formatNat_canonical s.length
  simp only [encodeBytes, hcs, List.length_append, List.length_cons]
  omega

lemma not_mem_formatNat {b : UInt8} (hb : b.toNat < 48 ∨ 57 < b.toNat) (n : Nat) :
    b ∉ formatNat n := fun h => isDigit_ne (formatNat_isDigit n b h) b hb rfl

lemma e_not_mem_formatInt (n : Int) : (101 : UInt8) ∉ formatInt n := by
  unfold formatInt
  split_ifs
  · simp only [List.mem_cons, not_or]
    exact ⟨by decide, not_mem_formatNat (by decide) _⟩
  · exact not_mem_formatNat (by decide) _

/-! ## One value's first step -/

lemma decode_int (k : Nat) (t : Target) (r : Bytes) :
    Decoder.decode (k + 1) t ⟨[], 105 :: r⟩ = decodeInt t ⟨[], r⟩ := rfl

lemma decode_list (k : Nat) (r : Bytes) :
    Decoder.decode (k + 1) .iface ⟨[], 108 :: r⟩ =
      match decodeItems k ⟨[], r⟩ [] with
      | .ok (vs, d) => .ok (.list vs, d)
      | .err e => .err e
      | .panic e => .panic e := rfl

lemma decode_dict (k : Nat) (r : Bytes) :
    Decoder.decode (k + 1) .iface ⟨[], 100 :: r⟩ =
      match decodeEntries k ⟨[], r⟩ [] with
      | .ok (kvs, d) => .ok (.dict kvs, d)
      | .err e => .err e
      | .panic e => .panic e := rfl

lemma decode_digit (k : Nat) (t : Target) {c : UInt8} (hc : isDigit c = true) (r : Bytes) :
    Decoder.decode (k + 1) t ⟨[], c :: r⟩ = decodeString t ⟨[], c :: r⟩ := by
  simp only [Decoder.decode, readByte_nil_cons, if_neg (isDigit_ne hc 105 (by decide)),
    if_neg (isDigit_ne hc 108 (by decide)), if_neg (isDigit_ne hc 100 (by decide)), hc, if_true,
    unreadByte_nil, decodeString_buf]

lemma decodeItems_end (k : Nat) (r : Bytes) (acc : List Value) :
    decodeItems (k + 1) ⟨[], 101 :: r⟩ acc = .ok (acc, ⟨[], r⟩) := rfl

lemma decodeItems_next (k : Nat) {x : Bytes} (hx : ∃ b bs, x = b :: bs ∧ b ≠ 101) (r : Bytes)
    (acc : List Value) :
    decodeItems (k + 2) ⟨[], x ++ r⟩ acc =
      match Decoder.decode (k + 1) .iface ⟨[], x ++ r⟩ with
      | .err e => .err e
      | .panic e => .panic e
      | .ok (v, d) => decodeItems (k + 1) d (acc ++ [v]) := by
  obtain ⟨b, bs, rfl, hb⟩ := hx
  simp only [List.cons_append, decodeItems, peekByte_nil_cons, if_neg hb]
  rfl

lemma decodeEntries_end (k : Nat) (r : Bytes) (m : List (Bytes × Value)) :
    decodeEntries (k + 1) ⟨[], 101 :: r⟩ m = .ok (m, ⟨[], r⟩) := rfl

lemma decodeEntries_next (k : Nat) {x : Bytes} (hx : ∃ b bs, x = b :: bs ∧ b ≠ 101) (r : Bytes)
    (m : List (Bytes × Value)) :
    decodeEntries (k + 2) ⟨[], x ++ r⟩ m =
      match Decoder.decode (k + 1) .string ⟨[], x ++ r⟩ with
      | .err e => .err e
      | .panic e => .panic e
      | .ok (key, d) =>
        match Decoder.decode (k + 1) .iface d with
        | .err e => .err e
        | .panic e => .panic e
        | .ok (val, d) => decodeEntries (k + 1) d (mapInsert (keyOf key) val m) := by
  obtain ⟨b, bs, rfl, hb⟩ := hx
  simp only [List.cons_append, decodeEntries, peekByte_nil_cons, if_neg hb]
  rfl

/-! ## Strings and integers -/

lemma decodeString_encodeBytes {t : Target} (ht : t ≠ .map) {s : Bytes} (hs : s.length ≤ maxAlloc)
    (rest : Bytes) : decodeString t ⟨[], encodeBytes s ++ rest⟩ = .ok (.str s, ⟨[], rest⟩) := by
  unfold maxAlloc at hs
  rw [decodeString, encodeBytes, List.append_assoc, List.cons_append,
    readUntil_delim (not_mem_formatNat (by decide) _)]
  dsimp only
  rw [parseInt_formatNat (by omega)]
  dsimp only
  rw [if_neg (by omega), if_neg (by unfold maxAlloc; omega), Int.toNat_ofNat, readFull_append]
  simp [ht]

lemma decode_encodeBytes {t : Target} (ht : t ≠ .map) {s : Bytes} (hs : s.length ≤ maxAlloc)
    (k : Nat) (rest : Bytes) : Decoder.decode (k + 1) t ⟨[], encodeBytes s ++ rest⟩ = .ok (.str s, ⟨[], rest⟩) := by
  obtain ⟨c, cs, hcs, hc⟩ := encodeBytes_head s
  rw [hcs, List.cons_append, decode_digit k t hc, ← List.cons_append, ← hcs,
    decodeString_encodeBytes ht hs]

lemma decode_encode_int {n : Int} (h₁ : -2 ^ 63 ≤ n) (h₂ : n < 2 ^ 63) (k : Nat) (rest : Bytes) :
    Decoder.decode (k + 1) .iface ⟨[], encode (.int n) ++ rest⟩ = .ok (.int n, ⟨[], rest⟩) := by
  simp only [encode, List.cons_append, List.append_assoc, List.singleton_append]
  rw [decode_int, decodeInt, readUntil_delim (e_not_mem_formatInt n)]
  dsimp only
  rw [parseInt_formatInt h₁ h₂]
  rfl

/-! ## Dictionaries in key order -/

lemma bytesLt_asymm {a b : Bytes} (h : bytesLt a b = true) : bytesLt b a = false := by
  cases h' : bytesLt b a
  · rfl
  · have := bytesLt_trans h h'
    rw [bytesLt_irrefl] at this
    cases this

/-- A key larger than every key of the map goes to its end. -/
lemma mapInsert_of_lt {key : Bytes} (val : Value) :
    ∀ (m : List (Bytes × Value)), (∀ a ∈ m.map (·.1), bytesLt a key = true) →
      mapInsert key val m = m ++ [(key, val)]
  | [], _ => rfl
  | (k, v) :: m, h => by
    have hk : bytesLt k key = true := h k (List.mem_cons_self _ _)
    have hne : key ≠ k := by rintro rfl; rw [bytesLt_irrefl] at hk; cases hk
    rw [mapInsert, if_neg (by rw [bytesLt_asymm hk]; decide), if_neg hne,
      mapInsert_of_lt val m (fun a ha => h a (List.mem_cons_of_mem _ ha))]
    rfl

/-! ## The round trip -/

mutual
/-- **Decoding an encoding.**  With enough fuel, the decoder reads back any value Go can hold
from its encoding, and stops right after it. -/
theorem decode_encode : ∀ (v : Value), v.WF → ∀ k, (encode v).length ≤ k → ∀ rest,
    Decoder.decode k .iface ⟨[], encode v ++ rest⟩ = .ok (v, ⟨[], rest⟩)
  | .int _, .int h₁ h₂, k + 1, _, rest => decode_encode_int h₁ h₂ k rest
  | .str _, .str hs, k + 1, _, rest => decode_encodeBytes (by decide) hs k rest
  | .list vs, .list hvs, k + 1, hk, rest => by
    simp only [encode, List.cons_append, List.append_assoc, List.singleton_append,
      List.nil_append] at hk ⊢
    rw [decode_list, decodeItems_encodeList vs hvs k (by simp at hk; omega) [] rest]
    rfl
  | .dict kvs, .dict hsorted hkeys hvals, k + 1, hk, rest => by
    simp only [encode, List.cons_append, List.append_assoc, List.singleton_append,
      List.nil_append] at hk ⊢
    rw [decode_dict, decodeEntries_encodeDict kvs hsorted hkeys hvals k (by simp at hk; omega) []
      rest (by simp)]
    rfl
  | v, _, 0, hk, _ => absurd hk (by have := encode_length_pos v; omega)

/-- The item loop over the encodings of `vs` and the list's `e`. -/
theorem decodeItems_encodeList : ∀ (vs : List Value), (∀ v ∈ vs, v.WF) →
    ∀ k, (encodeList vs).length < k → ∀ acc rest,
      decodeItems k ⟨[], encodeList vs ++ 101 :: rest⟩ acc = .ok (acc ++ vs, ⟨[], rest⟩)
  | [], _, k + 1, _, acc, rest => by simp [encodeList, decodeItems_end]
  | [], _, 0, hk, _, _ => absurd hk (Nat.not_lt_zero _)
  | v :: vs, h, k, hk, acc, rest => by
    have hv := encode_length_pos v
    simp only [encodeList, List.length_append] at hk
    obtain ⟨k, rfl⟩ : ∃ k', k = k' + 2 := ⟨k - 2, by omega⟩
    rw [encodeList, List.append_assoc, decodeItems_next k (encode_head v),
      decode_encode v (h v (List.mem_cons_self _ _)) (k + 1) (by omega)]
    dsimp only
    rw [decodeItems_encodeList vs (fun w hw => h w (List.mem_cons_of_mem _ hw)) (k + 1) (by omega)]
    simp

/-- The entry loop over the encodings of `kvs` and the dictionary's `e`, into a map whose keys
are all smaller than those of `kvs`. -/
theorem decodeEntries_encodeDict : ∀ (kvs : List (Bytes × Value)),
    (kvs.map (·.1)).Pairwise (bytesLt · ·) → (∀ kv ∈ kvs, kv.1.length ≤ maxAlloc) →
    (∀ kv ∈ kvs, kv.2.WF) → ∀ k, (encodeDict kvs).length < k → ∀ m rest,
      (∀ a ∈ m.map (·.1), ∀ b ∈ kvs.map (·.1), bytesLt a b = true) →
      decodeEntries k ⟨[], encodeDict kvs ++ 101 :: rest⟩ m = .ok (m ++ kvs, ⟨[], rest⟩)
  | [], _, _, _, k + 1, _, m, rest, _ => by simp [encodeDict, decodeEntries_end]
  | [], _, _, _, 0, hk, _, _, _ => absurd hk (Nat.not_lt_zero _)
  | (key, val) :: kvs, hsorted, hkeys, hvals, k, hk, m, rest, hm => by
    have hkey := encodeBytes_length key
    simp only [encodeDict, List.length_append] at hk
    obtain ⟨k, rfl⟩ : ∃ k', k = k' + 2 := ⟨k - 2, by omega⟩
    obtain ⟨c, cs, hcs, hc⟩ := encodeBytes_head key
    rw [List.map_cons, List.pairwise_cons] at hsorted
    rw [encodeDict, List.append_assoc, List.append_assoc,
      decodeEntries_next k ⟨c, cs, hcs, isDigit_ne hc 101 (by decide)⟩,
      decode_encodeBytes (by decide) (hkeys _ (List.mem_cons_self _ _))]
    dsimp only
    rw [decode_encode val (hvals _ (List.mem_cons_self _ _)) (k + 1) (by omega)]
    dsimp only
    rw [keyOf, mapInsert_of_lt val m (fun a ha => hm a ha key (List.mem_cons_self _ _)),
      decodeEntries_encodeDict kvs hsorted.2 (fun kv h => hkeys kv (List.mem_cons_of_mem _ h))
        (fun kv h => hvals kv (List.mem_cons_of_mem _ h)) (k + 1) (by omega)]
    · simp
    · intro a ha b hb
      simp only [List.map_append, List.mem_append, List.map_cons, List.map_nil,
        List.mem_singleton] at ha
      rcases ha with ha | rfl
      · exact hm a ha b (List.mem_cons_of_mem _ hb)
      · exact hsorted.1 b hb
end

end BitTorrent.Bencode
